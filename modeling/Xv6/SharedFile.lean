import Xv6.BlockOwnership
import Xv6.SoleHolder
import Xv6.Transition

/-!
Processes that share one `struct file`, an open inode `ip`, and call `filewrite` on it.
-/

namespace Xv6.SharedFile

open Contract Fs SoleHolder Transition

def chunkMax : ℕ := (MAXOPBLOCKS - 1 - 1 - 2) / 2 * 512

structure Write where
  call : ℕ
  n : ℕ
  todo : List UInt8
  deriving DecidableEq

def Write.chunk (x : Write) : List UInt8 := x.todo.take chunkMax

inductive Pc
  | idle
  | loop (x : Write)
  | lock (x : Write)
  | write (x : Write)
  | advance (x : Write) (r : Option ℕ)
  | unlock (x : Write) (r : Option ℕ)
  | check (x : Write) (r : Option ℕ)
  deriving DecidableEq

structure Sys (P : Type) where
  fs : State
  off : ℕ
  writable : Bool
  holder : Option P
  pc : P → Pc
  calls : List (List UInt8)
  chunks : List (ℕ × List UInt8)
  results : List (ℕ × Option ℕ)

variable {P : Type} [DecidableEq P]

def goto (s : Sys P) (p : P) (x : Pc) : Sys P := { s with pc := Function.update s.pc p x }

def ret (s : Sys P) (p : P) (c : ℕ) (r : Option ℕ) : Sys P :=
  goto { s with results := s.results ++ [(c, r)] } p .idle

def afterWrite (s : Sys P) (p : P) (x : Write) (r : Option ℕ × State) : Sys P :=
  goto { s with fs := r.2, chunks := if r.1.isSome then s.chunks ++ [(x.call, x.chunk)] else s.chunks } p
      (.advance x r.1)

def filewrite (ip : ℕ) (s : Sys P) (p : P) : Option (Outcome (Sys P)) :=
  match s.pc p with
  | .idle => none
  | .loop x => some (.ok (if x.todo = [] then ret s p x.call (some x.n) else goto s p (.lock x)))
  | .lock x =>
    if s.holder = none then
      some ((ilock s.fs ip).map fun fs => goto { s with fs := fs, holder := some p } p (.write x))
    else none
  | .write x => some ((writei s.fs ip x.chunk s.off).map (afterWrite s p x))
  | .advance x r => some (.ok (goto { s with off := (s.off + r.getD 0) % 2 ^ 32 } p (.unlock x r)))
  | .unlock x r => some (.ok (goto { s with holder := none } p (.check x r)))
  | .check x none => some (.ok (ret s p x.call none))
  | .check x (some r) =>
    if r ≠ x.chunk.length then some (.error "short filewrite")
    else some (.ok (goto s p (.loop { x with todo := x.todo.drop r })))

inductive Event (P : Type)
  | call (p : P) (data : List UInt8)
  | advance (p : P)

def start (s : Sys P) (p : P) (data : List UInt8) : Sys P :=
  let t := { s with calls := s.calls ++ [data] }
  if s.writable then goto t p (.loop ⟨s.calls.length, data.length, data⟩) else ret t p s.calls.length none

def writeStep (ip : ℕ) (s : Sys P) : Event P → Option (Outcome (Sys P))
  | .call p data => if s.pc p = .idle then some (.ok (start s p data)) else none
  | .advance p => filewrite ip s p

def opened (fs : State) (off : ℕ) : Sys P := ⟨fs, off, true, none, fun _ => .idle, [], [], []⟩

def succeeds (ip : ℕ) (s : Sys P) : Event P → Bool
  | .advance p =>
    match s.pc p with
    | .write x =>
      match writei s.fs ip x.chunk s.off with
      | .ok (none, _) => false
      | _ => true
    | _ => true
  | .call _ _ => true

def written (s : Sys P) : List UInt8 := s.chunks.flatMap Prod.snd

def chunksOf (s : Sys P) (c : ℕ) : List (List UInt8) := (s.chunks.filter fun x => x.1 = c).map Prod.snd

def Pc.left : Pc → Option Write
  | .idle => none
  | .loop x | .lock x | .write x => some x
  | .advance x r | .unlock x r | .check x r => some { x with todo := x.todo.drop (r.getD 0) }

def Pc.inside : Pc → Bool
  | .write _ | .advance _ _ | .unlock _ _ => true
  | _ => false

def Pc.ahead : Pc → ℕ
  | .advance _ r => r.getD 0
  | _ => 0

def Pc.Fits (fs : State) (ip : ℕ) : Pc → Prop
  | .lock x => x.todo ≠ []
  | .write x => x.todo ≠ [] ∧ fs.valid ip = true
  | .advance x r | .unlock x r | .check x r => r = some x.chunk.length
  | _ => True

structure Placed (ip off0 : ℕ) (f : File) (s : Sys P) : Prop where
  holder : Sole (fun p => (s.pc p).inside) s.holder
  inv : Inv s.fs
  ref : 0 < s.fs.ref ip
  writable : s.writable = true
  bytes : file s.fs ip = some { f with bytes := splice f.bytes off0 (written s) }
  count : s.off + (s.holder.elim 0 fun p => (s.pc p).ahead) = off0 + (written s).length
  small : off0 + (written s).length < 2 ^ 32
  start : written s ≠ [] → off0 ≤ f.bytes.length
  fits : ∀ p, (s.pc p).Fits s.fs ip

structure Called (s : Sys P) : Prop where
  left : ∀ p x, (s.pc p).left = some x → s.calls[x.call]? = some ((chunksOf s x.call).flatten ++ x.todo) ∧
    x.n = (chunksOf s x.call).flatten.length + x.todo.length
  one : ∀ p q x y, (s.pc p).left = some x → (s.pc q).left = some y → x.call = y.call → p = q
  ended : ∀ c data, s.calls[c]? = some data → (∀ p x, (s.pc p).left = some x → x.call ≠ c) →
      (chunksOf s c).flatten = data
  short : ∀ c data, s.calls[c]? = some data → data.length ≤ chunkMax → chunksOf s c = [] ∨ chunksOf s c = [data]
  known : ∀ x ∈ s.chunks, x.1 < s.calls.length
  results : ∀ c r, (c, r) ∈ s.results → ∃ data, s.calls[c]? = some data ∧ r = some data.length

variable {ip off0 : ℕ} {f : File} {s t : Sys P} {p q : P} {x : Write} {y : Pc}

@[simp] theorem goto_pc_self : (goto s p y).pc p = y := Function.update_self ..

theorem goto_pc_of_ne (h : q ≠ p) : (goto s p y).pc q = s.pc q := Function.update_of_ne h ..

omit [DecidableEq P] in
theorem Called.same (h : Called s) (hleft : ∀ q, (t.pc q).left = (s.pc q).left) (hcalls : t.calls = s.calls)
    (hchunks : t.chunks = s.chunks) (hresults : t.results = s.results) : Called t := by
  have hof : ∀ c, chunksOf t c = chunksOf s c := fun c => by rw [chunksOf, hchunks, chunksOf]
  refine ⟨?_, ?_, ?_, ?_, ?_, ?_⟩
  · simpa only [hleft, hcalls, hof] using h.left
  · simpa only [hleft] using h.one
  · simpa only [hleft, hcalls, hof] using h.ended
  · simpa only [hcalls, hof] using h.short
  · simpa only [hcalls, hchunks] using h.known
  · simpa only [hcalls, hresults] using h.results

theorem left_goto (hy : y.left = (s.pc p).left) (q : P) : ((goto s p y).pc q).left = (s.pc q).left := by
  by_cases hq : q = p
  · rw [hq, goto_pc_self, hy]
  · rw [goto_pc_of_ne hq]

omit [DecidableEq P] in
theorem chunksOf_append {c : ℕ} {bytes : List UInt8} (ht : t.chunks = s.chunks ++ [(x.call, bytes)]) :
    chunksOf t c = if x.call = c then chunksOf s c ++ [bytes] else chunksOf s c := by
  simp only [chunksOf, ht, List.filter_append, List.filter_cons, List.filter_nil]
  split_ifs <;> simp_all

theorem Write.chunk_append (x : Write) : x.chunk ++ x.todo.drop x.chunk.length = x.todo := by
  rw [Write.chunk, List.length_take]
  rcases Nat.le_total chunkMax x.todo.length with h | h
  · rw [min_eq_left h, List.take_append_drop]
  · rw [min_eq_right h, List.take_of_length_le h, List.drop_length, List.append_nil]

theorem Called.write (h : Called s) (hp : s.pc p = .write x) (hx : x.todo ≠ []) (fs : State) :
    Called (afterWrite s p x (some x.chunk.length, fs)) := by
  obtain ⟨hcall, hn⟩ := h.left p x (by rw [hp]; rfl)
  set t := afterWrite s p x (some x.chunk.length, fs) with ht
  have hchunks : t.chunks = s.chunks ++ [(x.call, x.chunk)] := rfl
  have hof := fun c => chunksOf_append (c := c) hchunks
  have hsplit := x.chunk_append
  have hleftp : (t.pc p).left = some { x with todo := x.todo.drop x.chunk.length } := by
    rw [ht, afterWrite, goto_pc_self]
    rfl
  have hpcq : ∀ q, q ≠ p → (t.pc q).left = (s.pc q).left := fun q hq => by rw [ht, afterWrite, goto_pc_of_ne hq]
  have hcallq : ∀ q y, (t.pc q).left = some y → ∃ z, (s.pc q).left = some z ∧ z.call = y.call := by
    intro q y hy
    by_cases hq : q = p
    · rw [hq, hleftp] at hy
      cases hy
      exact ⟨x, by rw [hq, hp]; rfl, rfl⟩
    · exact ⟨y, hpcq q hq ▸ hy, rfl⟩
  refine ⟨fun q y hy => ?_, fun q r y z hy hz hyz => ?_, fun c data hc hno => ?_, fun c data hc hshort => ?_, ?_,
      h.results⟩
  · by_cases hq : q = p
    · rw [hq, hleftp] at hy
      cases hy
      simp only [hof, if_true, List.flatten_append, List.flatten_singleton, List.append_assoc, hsplit,
          List.length_append]
      have hlen := congrArg List.length hsplit
      rw [List.length_append] at hlen
      exact ⟨hcall, by omega⟩
    · rw [hpcq q hq] at hy
      have hne : x.call ≠ y.call := fun he => hq (h.one q p y x hy (by rw [hp]; rfl) he.symm)
      rw [hof, if_neg hne]
      exact h.left q y hy
  · obtain ⟨y', hy', hcy⟩ := hcallq q y hy
    obtain ⟨z', hz', hcz⟩ := hcallq r z hz
    exact h.one q r y' z' hy' hz' (by rw [hcy, hcz, hyz])
  · have hne : x.call ≠ c := hno p { x with todo := x.todo.drop x.chunk.length } hleftp
    rw [hof, if_neg hne]
    apply h.ended c data hc
    intro q y hy
    by_cases hq : q = p
    · rw [hq, hp] at hy
      cases hy
      exact hne
    · exact hno q y (hpcq q hq ▸ hy)
  · rw [hof]
    split_ifs with he
    · subst he
      have hdata : data = (chunksOf s x.call).flatten ++ x.todo := Option.some.inj (hc.symm.trans hcall)
      -- a short call writes all it has at once, so it has not written before
      rcases h.short _ _ hc hshort with hnil | hone
      · rw [hnil, List.flatten_nil, List.nil_append] at hdata
        right
        rw [hnil, List.nil_append, Write.chunk, List.take_of_length_le (by rw [← hdata]; exact hshort), hdata]
      · rw [hone, List.flatten_singleton] at hdata
        exact absurd (List.self_eq_append_right.mp hdata) hx
    · exact h.short c data hc hshort
  · intro y hy
    rw [hchunks, List.mem_append, List.mem_singleton] at hy
    rcases hy with hy | rfl
    · exact h.known y hy
    · exact (List.getElem?_eq_some_iff.mp hcall).1

theorem Called.ret (h : Called s) (hp : s.pc p = .loop x) (hx : x.todo = []) :
    Called (ret s p x.call (some x.n)) := by
  obtain ⟨hcall, hn⟩ := h.left p x (by rw [hp]; rfl)
  rw [hx, List.append_nil] at hcall
  rw [hx, List.length_nil, Nat.add_zero] at hn
  have hleft : ∀ q y, ((SharedFile.ret s p x.call (some x.n)).pc q).left = some y → (s.pc q).left = some y := by
    intro q y hy
    by_cases hq : q = p
    · rw [hq, SharedFile.ret, goto_pc_self] at hy
      cases hy
    · rwa [SharedFile.ret, goto_pc_of_ne hq] at hy
  refine ⟨fun q y hy => h.left q y (hleft q y hy), fun q r y z hy hz => h.one q r y z (hleft q y hy) (hleft r z hz),
    fun c data hc hno => ?_, h.short, h.known, fun c r hr => ?_⟩
  · by_cases he : x.call = c
    · subst he
      exact Option.some.inj (hcall.symm.trans hc)
    · apply h.ended c data hc
      intro q y hy
      by_cases hq : q = p
      · rw [hq, hp] at hy
        cases hy
        exact he
      · exact hno q y (by rwa [SharedFile.ret, goto_pc_of_ne hq])
  · rcases List.mem_append.mp hr with hr | hr
    · exact h.results c r hr
    · rw [List.mem_singleton] at hr
      cases hr
      exact ⟨_, hcall, by rw [hn]⟩

omit [DecidableEq P] in
theorem Called.chunksOf_new (h : Called s) : chunksOf s s.calls.length = [] := by
  rw [chunksOf, List.map_eq_nil_iff, List.filter_eq_nil_iff]
  intro y hy
  have := h.known y hy
  simp only [decide_eq_true_eq]
  omega

theorem getElem?_snoc {l : List (List UInt8)} {data d : List UInt8} {c : ℕ} :
    (l ++ [data])[c]? = some d ↔ l[c]? = some d ∨ c = l.length ∧ d = data := by
  rcases Nat.lt_trichotomy c l.length with hc | rfl | hc
  · simp [List.getElem?_append_left hc, hc.ne]
  · simp [eq_comm]
  · simp [List.getElem?_eq_none (show (l ++ [data]).length ≤ c by simp; omega), List.getElem?_eq_none hc.le, hc.ne']

theorem Called.start (h : Called s) (hp : s.pc p = .idle) (hw : s.writable = true) (data : List UInt8) :
    Called (start s p data) := by
  have hstart : SharedFile.start s p data =
      goto { s with calls := s.calls ++ [data] } p (.loop ⟨s.calls.length, data.length, data⟩) := if_pos hw
  rw [hstart]
  set t := goto { s with calls := s.calls ++ [data] } p (.loop ⟨s.calls.length, data.length, data⟩) with ht
  have hcalls : t.calls = s.calls ++ [data] := rfl
  have hof : ∀ c, chunksOf t c = chunksOf s c := fun _ => rfl
  have hleft : ∀ q y, (t.pc q).left = some y ↔ (s.pc q).left = some y ∨ q = p ∧
      y = ⟨s.calls.length, data.length, data⟩ := by
    intro q y
    by_cases hq : q = p
    · rw [hq, ht, goto_pc_self, hp]
      simp [Pc.left, eq_comm]
    · rw [ht, goto_pc_of_ne hq]
      simp [hq]
  have hold : ∀ q y, (s.pc q).left = some y → y.call < s.calls.length := fun q y hy =>
    (List.getElem?_eq_some_iff.mp (h.left q y hy).1).1
  refine ⟨fun q y hy => ?_, fun q r y z hy hz hyz => ?_, fun c d hc hno => ?_, fun c d hc hshort => ?_, fun y hy => ?_,
    fun c r hr => ?_⟩
  · rw [hcalls, hof, getElem?_snoc]
    rcases (hleft q y).mp hy with hy | ⟨rfl, rfl⟩
    · exact ⟨Or.inl (h.left q y hy).1, (h.left q y hy).2⟩
    · simp [h.chunksOf_new]
  · rcases (hleft q y).mp hy with hy | ⟨rfl, rfl⟩ <;> rcases (hleft r z).mp hz with hz | ⟨rfl, rfl⟩
    · exact h.one q r y z hy hz hyz
    · exact absurd hyz (hold q y (by assumption)).ne
    · exact absurd hyz.symm (hold r z (by assumption)).ne
    · rfl
  · rw [hcalls, getElem?_snoc] at hc
    rcases hc with hc | ⟨rfl, rfl⟩
    · exact h.ended c d hc fun q y hy => hno q y ((hleft q y).mpr (Or.inl hy))
    · exact absurd rfl (hno p _ ((hleft p _).mpr (Or.inr ⟨rfl, rfl⟩)))
  · rw [hcalls, getElem?_snoc] at hc
    rcases hc with hc | ⟨rfl, -⟩
    · exact h.short c d hc hshort
    · exact Or.inl h.chunksOf_new
  · rw [hcalls, List.length_append]
    have := h.known y hy
    omega
  · obtain ⟨d, hd, hr⟩ := h.results c r hr
    exact ⟨d, getElem?_snoc.mpr (Or.inl hd), hr⟩

omit [DecidableEq P] in
theorem Placed.frame (h : Placed ip off0 f s) (hfs : t.fs = s.fs) (hchunks : t.chunks = s.chunks)
    (hwritable : t.writable = s.writable) (hholder : Sole (fun q => (t.pc q).inside) t.holder)
    (hcount : t.off + (t.holder.elim 0 fun q => (t.pc q).ahead) = s.off + (s.holder.elim 0 fun q => (s.pc q).ahead))
    (hfits : ∀ q, (t.pc q).Fits s.fs ip) : Placed ip off0 f t := by
  have hwritten : written t = written s := by rw [written, hchunks, written]
  refine ⟨hholder, ?_, ?_, ?_, ?_, ?_, ?_, ?_, ?_⟩
  · rw [hfs]
    exact h.inv
  · rw [hfs]
    exact h.ref
  · rw [hwritable]
    exact h.writable
  · rw [hfs, hwritten]
    exact h.bytes
  · rw [hwritten, hcount]
    exact h.count
  · rw [hwritten]
    exact h.small
  · rw [hwritten]
    exact h.start
  · rw [hfs]
    exact hfits

theorem Pc.Fits.mono {fs fs' : State} (h : y.Fits fs ip) (hv : fs.valid ip = true → fs'.valid ip = true) :
    y.Fits fs' ip := by
  cases y with
  | write x => exact ⟨h.1, hv h.2⟩
  | _ => exact h

variable {fs : State} {r : Option ℕ}

theorem fits_goto (h : ∀ q, (s.pc q).Fits fs ip) (hy : y.Fits fs ip) (q : P) : ((goto s p y).pc q).Fits fs ip := by
  by_cases hq : q = p
  · rwa [hq, goto_pc_self]
  · rw [goto_pc_of_ne hq]
    exact h q

theorem inside_goto (h : Sole (fun q => (s.pc q).inside) s.holder) (hy : y.inside = (s.pc p).inside) :
    Sole (fun q => ((goto s p y).pc q).inside) s.holder := by
  apply h.congr
  intro q
  by_cases hq : q = p
  · rw [hq, goto_pc_self, hy]
  · rw [goto_pc_of_ne hq]

theorem ahead_goto (hy : y.ahead = (s.pc p).ahead) :
    (s.holder.elim 0 fun q => ((goto s p y).pc q).ahead) = s.holder.elim 0 fun q => (s.pc q).ahead := by
  cases s.holder with
  | none => rfl
  | some q =>
    by_cases hq : q = p
    · simp only [Option.elim_some, hq, goto_pc_self, hy]
    · simp only [Option.elim_some, goto_pc_of_ne hq]

theorem Placed.move (h : Placed ip off0 f s) (hin : y.inside = (s.pc p).inside) (hahead : y.ahead = (s.pc p).ahead)
    (hy : y.Fits s.fs ip) (hpc : t.pc = (goto s p y).pc) (hfs : t.fs = s.fs) (hchunks : t.chunks = s.chunks)
    (hwritable : t.writable = s.writable) (hholder : t.holder = s.holder) (hoff : t.off = s.off) :
    Placed ip off0 f t := by
  apply h.frame hfs hchunks hwritable
  · rw [hpc, hholder]
    exact inside_goto h.holder hin
  · rw [hpc, hholder, hoff, ahead_goto hahead]
  · rw [hpc]
    exact fits_goto h.fits hy

theorem Placed.lock (h : Placed ip off0 f s) (hp : s.pc p = .lock x) (hfree : s.holder = none)
    (hfs : ilock s.fs ip = .ok fs) : Placed ip off0 f (goto { s with fs := fs, holder := some p } p (.write x)) := by
  obtain ⟨hcached, href, hvalid⟩ := (ilock_spec h.inv ip).of_ok hfs
  have hx := h.fits p
  rw [hp] at hx
  have hcount := h.count
  rw [hfree] at hcount
  have hfits : ∀ q, (s.pc q).Fits fs ip := fun q => (h.fits q).mono fun _ => by rw [hvalid, Function.update_self]
  have hwrite : (Pc.write x).Fits fs ip := ⟨hx, by rw [hvalid, Function.update_self]⟩
  refine ⟨?_, hcached.inv, ?_, h.writable, ?_, ?_, h.small, h.start, fits_goto hfits hwrite⟩
  · apply (hfree ▸ h.holder).take
    · rw [goto_pc_self]
      rfl
    · intro q hq
      rw [goto_pc_of_ne hq]
  · change 0 < fs.ref ip
    rw [href]
    exact h.ref
  · exact (hcached.files ip).trans h.bytes
  · change s.off + ((goto { s with fs := fs, holder := some p } p (.write x)).pc p).ahead = _
    rw [goto_pc_self]
    exact hcount

theorem splice_splice {bs a b : List UInt8} {off : ℕ} (h : off ≤ bs.length) :
    splice (splice bs off a) (off + a.length) b = splice bs off (a ++ b) := by
  have hlen : (bs.take off ++ a).length = off + a.length := by
    rw [List.length_append, List.length_take, min_eq_left h]
  simp only [splice]
  rw [List.take_left' hlen, List.drop_append, hlen, List.drop_eq_nil_of_le (by omega), List.nil_append,
    show off + a.length + b.length - (off + a.length) = b.length by omega, List.drop_drop, List.length_append,
    List.append_assoc, List.append_assoc, List.append_assoc, List.append_assoc, Nat.add_assoc]

theorem splice_nil (bs : List UInt8) (off : ℕ) : splice bs off [] = bs := by
  simp [splice]

theorem bytes_le {i : ℕ} {g : File} (h : Inv fs) (hg : file fs i = some g) : g.bytes.length ≤ MAXFILE * BSIZE := by
  rw [file] at hg
  split_ifs at hg with ht
  cases hg
  rw [length_contents]
  exact h.bound i ht

theorem Placed.write (h : Placed ip off0 f s) (htype : f.type ≠ .dev) (hp : s.pc p = .write x)
    (hfs : writei s.fs ip x.chunk s.off = .ok (r, fs)) (hr : r ≠ none) :
    r = some x.chunk.length ∧ Placed ip off0 f (afterWrite s p x (some x.chunk.length, fs)) := by
  have hin : (s.pc p).inside = true := by rw [hp]; rfl
  have hx := h.fits p
  rw [hp] at hx
  have hholder : s.holder = some p := (h.holder p).mp hin
  have hoff : s.off = off0 + (written s).length := by
    have hcount := h.count
    rw [hholder, Option.elim_some, hp] at hcount
    exact hcount
  have hfile := h.bytes
  rw [file_of_valid hx.2 (h.inv.typed_inode hx.2), Option.some.injEq] at hfile
  have hdev : (s.fs.inode ip).type ≠ .dev := by
    rw [show (s.fs.inode ip).type = f.type from congrArg File.type hfile]
    exact htype
  have hsize : (s.fs.inode ip).size = (splice f.bytes off0 (written s)).length := by
    have hcontents : contents s.fs ip = splice f.bytes off0 (written s) := congrArg File.bytes hfile
    rw [← hcontents, length_contents, cur_of_valid hx.2]
  rcases (writei_spec h.inv hx.2 hdev x.chunk s.off).of_ok hfs with ⟨hn, -⟩ | ⟨hsome, hle, hw⟩
  · exact absurd hn hr
  have hstart : off0 ≤ f.bytes.length := by
    by_cases hne : written s = []
    · rw [hsize, hne, splice_nil] at hle
      omega
    · exact h.start hne
  have hbytes : file fs ip = some { f with bytes := splice f.bytes off0 (written s ++ x.chunk) } := by
    rw [hw.bytes _ h.bytes, hoff]
    simp only [splice_splice hstart]
  have hwritten : ∀ b, written (afterWrite s p x (some b, fs)) = written s ++ x.chunk := by
    intro b
    simp [written, afterWrite, goto]
  refine ⟨hsome, inside_goto h.holder hin.symm, hw.inv, ?_, h.writable, ?_, ?_, ?_, fun _ => hstart, ?_⟩
  · change 0 < fs.ref ip
    rw [hw.frame.ref]
    exact h.ref
  · rw [hwritten]
    exact hbytes
  · change s.off + (s.holder.elim 0 fun q => ((goto s p (.advance x (some x.chunk.length))).pc q).ahead) = _
    rw [hwritten, hholder, Option.elim_some, goto_pc_self, hoff, List.length_append, Nat.add_assoc]
    rfl
  · have hmax := bytes_le hw.inv hbytes
    rw [hwritten]
    simp only [length_splice hstart] at hmax
    have : MAXFILE * BSIZE < 2 ^ 32 := by decide
    omega
  · have hvalid : fs.valid = s.fs.valid := hw.frame.valid
    have hdone : (Pc.advance x (some x.chunk.length)).Fits fs ip := rfl
    have hfits : ∀ q, (s.pc q).Fits fs ip := fun q => (h.fits q).mono fun hv => by rwa [hvalid]
    exact fits_goto hfits hdone

theorem Placed.advance (h : Placed ip off0 f s) (hp : s.pc p = .advance x r) :
    Placed ip off0 f (goto { s with off := (s.off + r.getD 0) % 2 ^ 32 } p (.unlock x r)) := by
  have hin : (s.pc p).inside = true := by rw [hp]; rfl
  have hholder : s.holder = some p := (h.holder p).mp hin
  have hx := h.fits p
  rw [hp] at hx
  have hcount := h.count
  rw [hholder, Option.elim_some, hp] at hcount
  have hlt : s.off + r.getD 0 < 2 ^ 32 := lt_of_eq_of_lt hcount h.small
  refine h.frame rfl rfl rfl ?_ ?_ ?_
  · exact inside_goto h.holder hin.symm
  · change (s.off + r.getD 0) % 2 ^ 32 + (s.holder.elim 0 fun q => ((goto s p (.unlock x r)).pc q).ahead) = _
    rw [Nat.mod_eq_of_lt hlt, hholder, Option.elim_some, goto_pc_self, Option.elim_some, hp]
    rfl
  · exact fits_goto h.fits hx

theorem Placed.unlock (h : Placed ip off0 f s) (hp : s.pc p = .unlock x r) :
    Placed ip off0 f (goto { s with holder := none } p (.check x r)) := by
  have hin : (s.pc p).inside = true := by rw [hp]; rfl
  have hholder : s.holder = some p := (h.holder p).mp hin
  have hx := h.fits p
  rw [hp] at hx
  refine h.frame rfl rfl rfl ?_ ?_ ?_
  · apply (hholder ▸ h.holder).drop
    · rw [goto_pc_self]
      rfl
    · intro q hq
      rw [goto_pc_of_ne hq]
  · rw [hholder, Option.elim_some, hp]
    rfl
  · exact fits_goto h.fits hx

theorem filewrite_keeps (htype : f.type ≠ .dev) (h : Placed ip off0 f s) (hc : Called s)
    (hok : succeeds ip s (.advance p) = true) (hs : filewrite ip s p = some (.ok t)) : Placed ip off0 f t ∧
      Called t := by
  have hx := h.fits p
  cases hp : s.pc p with
  | idle => simp [filewrite, hp] at hs
  | loop x =>
    simp only [filewrite, hp, Option.some.injEq, Except.ok.injEq] at hs
    subst hs
    split_ifs with htodo
    · exact ⟨h.move (y := .idle) (by rw [hp]; rfl) (by rw [hp]; rfl) trivial rfl rfl rfl rfl rfl rfl, hc.ret hp htodo⟩
    · exact ⟨h.move (y := .lock x) (by rw [hp]; rfl) (by rw [hp]; rfl) htodo rfl rfl rfl rfl rfl rfl,
        hc.same (left_goto (by rw [hp]; rfl)) rfl rfl rfl⟩
  | lock x =>
    simp only [filewrite, hp, Option.ite_none_right_eq_some, Option.some.injEq] at hs
    obtain ⟨hfree, hs⟩ := hs
    cases hfs : ilock s.fs ip with
    | error e => simp [hfs, Except.map] at hs
    | ok fs =>
      simp only [hfs, Except.map, Except.ok.injEq] at hs
      subst hs
      exact ⟨h.lock hp hfree hfs, hc.same (left_goto (by rw [hp]; rfl)) rfl rfl rfl⟩
  | write x =>
    rw [hp] at hx
    simp only [filewrite, hp, Option.some.injEq] at hs
    cases hfs : writei s.fs ip x.chunk s.off with
    | error e => simp [hfs, Except.map] at hs
    | ok r =>
      obtain ⟨r, fs⟩ := r
      simp only [hfs, Except.map, Except.ok.injEq] at hs
      have hr : r ≠ none := by
        rintro rfl
        simp [succeeds, hp, hfs] at hok
      obtain ⟨rfl, hplaced⟩ := h.write htype hp hfs hr
      rw [← hs]
      exact ⟨hplaced, hc.write hp hx.1 fs⟩
  | advance x r =>
    simp only [filewrite, hp, Option.some.injEq, Except.ok.injEq] at hs
    subst hs
    exact ⟨h.advance hp, hc.same (left_goto (by rw [hp]; rfl)) rfl rfl rfl⟩
  | unlock x r =>
    simp only [filewrite, hp, Option.some.injEq, Except.ok.injEq] at hs
    subst hs
    exact ⟨h.unlock hp, hc.same (left_goto (by rw [hp]; rfl)) rfl rfl rfl⟩
  | check x r =>
    rw [hp] at hx
    obtain rfl : r = some x.chunk.length := hx
    simp only [filewrite, hp, ne_eq, not_true_eq_false, if_false, Option.some.injEq, Except.ok.injEq] at hs
    subst hs
    exact ⟨h.move (y := .loop { x with todo := x.todo.drop x.chunk.length }) (by rw [hp]; rfl)
        (by rw [hp]; rfl) trivial rfl
      rfl rfl rfl rfl rfl, hc.same (left_goto (by rw [hp]; rfl)) rfl rfl rfl⟩

theorem step_keeps {e : Event P} (htype : f.type ≠ .dev) (h : Placed ip off0 f s) (hc : Called s)
    (hok : succeeds ip s e = true) (hs : writeStep ip s e = some (.ok t)) : Placed ip off0 f t ∧ Called t := by
  cases e with
  | advance p => exact filewrite_keeps htype h hc hok hs
  | call p data =>
    simp only [writeStep, Option.ite_none_right_eq_some, Option.some.injEq, Except.ok.injEq] at hs
    obtain ⟨hp, rfl⟩ := hs
    refine ⟨?_, hc.start hp h.writable data⟩
    have hstart : start s p data =
        goto { s with calls := s.calls ++ [data] } p (.loop ⟨s.calls.length, data.length, data⟩) := if_pos h.writable
    rw [hstart]
    exact h.move (y := .loop ⟨s.calls.length, data.length, data⟩) (by rw [hp]; rfl)
        (by rw [hp]; rfl) trivial rfl rfl rfl
      rfl rfl rfl

omit [DecidableEq P] in
theorem opened_placed (hinv : Inv fs) (href : 0 < fs.ref ip) (hf : file fs ip = some f)
    (hoff : off0 < 2 ^ 32) : Placed ip off0 f (opened fs off0 : Sys P) := by
  refine ⟨fun p => by simp [opened, Pc.inside], hinv, href, rfl, ?_, rfl, hoff, fun hne => absurd rfl hne,
    fun _ => trivial⟩
  rw [show written (opened fs off0 : Sys P) = [] from rfl, splice_nil]
  exact hf

omit [DecidableEq P] in
theorem opened_called (fs : State) (off : ℕ) : Called (opened fs off : Sys P) := by
  refine ⟨?_, ?_, ?_, ?_, ?_, ?_⟩
  · rintro p x ⟨⟩
  · rintro p q x y ⟨⟩
  · rintro c data ⟨⟩
  · rintro c data ⟨⟩
  · rintro x ⟨⟩
  · rintro c r ⟨⟩

theorem shared_writes {fs : State} {es : List (Event P)} (hinv : Inv fs) (href : 0 < fs.ref ip)
    (hf : file fs ip = some f) (htype : f.type = .file) (hoff : off0 < 2 ^ 32)
    (hrun : Run (Steps (writeStep ip)) (opened fs off0) es s)
    (hok : Along (Steps (writeStep ip)) (fun s e => succeeds ip s e = true) (opened fs off0) es) :
    (s.holder = none → s.off = off0 + (s.chunks.flatMap Prod.snd).length) ∧
      file s.fs ip = some { f with bytes := splice f.bytes off0 (s.chunks.flatMap Prod.snd) } ∧
      ∀ c data, s.calls[c]? = some data →
        (chunksOf s c).flatten <+: data ∧
        ((∀ p x, (s.pc p).left = some x → x.call ≠ c) → (chunksOf s c).flatten = data) ∧
        (data.length ≤ 1536 → chunksOf s c = [] ∨ chunksOf s c = [data]) ∧
        ∀ r, (c, r) ∈ s.results → r = some data.length := by
  have hdev : f.type ≠ .dev := by rw [htype]; exact FType.noConfusion
  obtain ⟨h, hc⟩ := hrun.invariant (I := fun s => Placed ip off0 f s ∧ Called s)
    (fun _ _ _ hs ho hst => step_keeps hdev hs.1 hs.2 ho hst) hok ⟨opened_placed hinv href hf hoff,
        opened_called fs off0⟩
  refine ⟨fun hholder => ?_, h.bytes, fun c data hdata => ⟨?_, hc.ended c data hdata, hc.short c data hdata,
      fun r hr => ?_⟩⟩
  · have hcount := h.count
    rw [hholder] at hcount
    exact hcount
  · by_cases hopen : ∃ p x, (s.pc p).left = some x ∧ x.call = c
    · obtain ⟨p, x, hx, rfl⟩ := hopen
      rw [← Option.some.inj ((hc.left p x hx).1.symm.trans hdata)]
      exact List.prefix_append _ _
    · rw [hc.ended c data hdata fun p x hx he => hopen ⟨p, x, hx, he⟩]
  · obtain ⟨d, hd, hr⟩ := hc.results c r hr
    rw [hr, Option.some.inj (hd.symm.trans hdata)]

def twoWriters : List (Event Bool) :=
  [.call false [1, 2], .call true [3], .advance true, .advance false, .advance true, .advance true, .advance true,
    .advance true, .advance false, .advance false, .advance false, .advance false]

def newFile : File := ⟨.file, 0, 0, 0, []⟩

theorem shared_writes_two : ∃ (fs : State) (s : Sys Bool), Run (Steps (writeStep 1)) (opened fs 0) twoWriters s ∧
    file fs 1 = some newFile ∧ file s.fs 1 = some { newFile with bytes := [3, 1, 2] } ∧ s.off = 3 := by
  have hnew : (exec fsCall blankImage [.ialloc .file]).map (fun fs => decide (0 < fs.ref 1 ∧ file fs 1 = some newFile ∧
      Along (Steps (writeStep 1)) (fun s e => succeeds 1 s e = true) (opened fs 0 : Sys Bool) twoWriters ∧
      (exec (writeStep 1) (opened fs 0 : Sys Bool) twoWriters).map (fun s => decide (s.holder = none ∧
        s.chunks = [(1, [3]), (0, [1, 2])])) = some true)) = some true := by
    decide +kernel
  obtain ⟨fs, hfs, h⟩ := Option.map_eq_some_iff.mp hnew
  obtain ⟨href, hf, hok, hexec⟩ := of_decide_eq_true h
  obtain ⟨s, hs, hend⟩ := Option.map_eq_some_iff.mp hexec
  obtain ⟨hholder, hchunks⟩ := of_decide_eq_true hend
  have hinv := fsRun_inv blankImage_wellFormed.inv (run_of_exec hfs)
  obtain ⟨hoff, hbytes, -⟩ := shared_writes hinv href hf rfl (by decide) (run_of_exec hs) hok
  rw [hchunks] at hoff hbytes
  exact ⟨fs, s, run_of_exec hs, hf, hbytes, hoff hholder⟩

end Xv6.SharedFile
