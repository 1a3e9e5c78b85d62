import Xv6.ReadWrite
import Xv6.SharedFile

/-!
`filewrite` on a file that nobody else writes to.
-/

namespace Xv6.FileWrite

open Contract Transition SharedFile
open Fs hiding Slot

theorem chunkMax_pos : 0 < chunkMax := by decide

def writeChunk (fs : State) (ip off : ℕ) (src : List UInt8) : Outcome (Option ℕ × State) := do
  let fs ← ilock fs ip
  writei fs ip src off

def chunkLoop (fs : State) (ip off : ℕ) (src : List UInt8) : Outcome (Bool × ℕ × State) :=
  if _h : src = [] then .ok (true, off, fs)
  else do
    let (r, fs) ← writeChunk fs ip off (src.take chunkMax)
    match r with
    | none => .ok (false, off, fs)
    | some r =>
      if r ≠ (src.take chunkMax).length then .error "short filewrite"
      else chunkLoop fs ip ((off + r) % 2 ^ 32) (src.drop (src.take chunkMax).length)
termination_by src.length
decreasing_by
  have h1 := List.length_pos_iff.mpr _h
  have h2 := chunkMax_pos
  rw [List.length_drop, List.length_take]
  omega

def filewrite (fs : State) (ip : ℕ) (writable : Bool) (off : ℕ) (src : List UInt8) : Outcome (ℤ × ℕ × State) :=
  if writable = false then .ok (-1, off, fs)
  else do
    let (done, off, fs) ← chunkLoop fs ip off src
    .ok (if done then (src.length : ℤ) else -1, off, fs)

def Reports (f : Fs.File) (ip off : ℕ) (src : List UInt8) (r : ℤ × ℕ × State) : Prop :=
  (r.1 = src.length ∧ r.2.1 = off + src.length ∧
    ∃ g, file r.2.2 ip = some g ∧ (g.bytes.drop off).take src.length = src) ∨
  (r.1 = -1 ∧ r.2.1 = off ∧ file r.2.2 ip = some f)

def Cut (f : Fs.File) (off n : ℕ) : Prop :=
  off ≤ f.bytes.length ∧ chunkMax < n ∧ off + chunkMax ≤ MAXFILE * BSIZE ∧ MAXFILE * BSIZE < off + n

variable {fs fs' : State} {ip off : ℕ} {f : Fs.File} {src : List UInt8}

section

variable {P : Type} [DecidableEq P] {p : P}

theorem chunk_runs {s : Sys P} {x : Write} {r : Option ℕ} (hpc : s.pc p = .loop x) (hfree : s.holder = none)
    (hne : x.todo ≠ []) (hw : writeChunk s.fs ip s.off x.chunk = .ok (r, fs)) :
    ∃ t, Run (Steps (writeStep ip)) s (List.replicate 5 (.advance p)) t ∧ t.fs = fs ∧
      t.off = (s.off + r.getD 0) % 2 ^ 32 ∧ t.holder = none ∧ t.pc p = .check x r ∧ t.results = s.results := by
  obtain ⟨fs1, hl, hw⟩ := Outcome.bind_eq_ok.mp hw
  have h1 : writeStep ip s (.advance p) = some (.ok (goto s p (.lock x))) := by
    simp [writeStep, SharedFile.filewrite, hpc, hne]
  have h2 : writeStep ip (goto s p (.lock x)) (.advance p) =
      some (.ok (goto { s with fs := fs1, holder := some p } p (.write x))) := by
    simp [writeStep, SharedFile.filewrite, goto, hfree, hl, Except.map]
  have h3 : writeStep ip (goto { s with fs := fs1, holder := some p } p (.write x)) (.advance p) =
      some (.ok (afterWrite { s with fs := fs1, holder := some p } p x (r, fs))) := by
    simp [writeStep, SharedFile.filewrite, goto, afterWrite, hw, Except.map]
  have h4 (t : Sys P) (ht : t.pc p = .advance x r) : writeStep ip t (.advance p) =
      some (.ok (goto { t with off := (t.off + r.getD 0) % 2 ^ 32 } p (.unlock x r))) := by
    simp only [writeStep, SharedFile.filewrite, ht]
  have h5 (t : Sys P) (ht : t.pc p = .unlock x r) : writeStep ip t (.advance p) =
      some (.ok (goto { t with holder := none } p (.check x r))) := by
    simp only [writeStep, SharedFile.filewrite, ht]
  have hself (y : Sys P) (z : Pc) : (goto y p z).pc p = z := Function.update_self ..
  exact ⟨_, .cons h1 (.cons h2 (.cons h3 (.cons (h4 _ (hself ..)) (.cons (h5 _ (hself ..)) (.nil _))))), rfl, rfl, rfl,
    hself .., rfl⟩

/-- A process that writes while the others let the file alone does what `chunkLoop` does. -/
theorem chunkLoop_runs {s : Sys P} {x : Write} {done : Bool} (hpc : s.pc p = .loop x) (hfree : s.holder = none)
    (hoff : s.off < 2 ^ 32) (h : chunkLoop s.fs ip s.off x.todo = .ok (done, off, fs)) :
    ∃ k t, Run (Steps (writeStep ip)) s (List.replicate k (.advance p)) t ∧ t.fs = fs ∧ t.off = off ∧
      t.pc p = .idle ∧ t.results = s.results ++ [(x.call, if done then some x.n else none)] := by
  by_cases hne : x.todo = []
  · rw [chunkLoop, dif_pos hne] at h
    cases h
    have h1 : writeStep ip s (.advance p) = some (.ok (ret s p x.call (some x.n))) := by
      simp [writeStep, SharedFile.filewrite, hpc, hne]
    exact ⟨1, _, .cons h1 (.nil _), rfl, rfl, Function.update_self .., rfl⟩
  · rw [chunkLoop, dif_neg hne] at h
    obtain ⟨⟨r, fs1⟩, hw, h⟩ := Outcome.bind_eq_ok.mp h
    obtain ⟨u, hrun, hfs, hoff', hfree', hpc', hres⟩ := chunk_runs hpc hfree hne hw
    cases r with
    | none =>
      cases h
      have h6 : writeStep ip u (.advance p) = some (.ok (ret u p x.call none)) := by
        simp [writeStep, SharedFile.filewrite, hpc']
      refine ⟨6, _, hrun.append (.cons h6 (.nil _)), hfs, ?_, Function.update_self .., ?_⟩
      · rw [← Nat.mod_eq_of_lt hoff]
        exact hoff'
      · simp [ret, goto, hres]
    | some r =>
      simp only at h
      split_ifs at h with hr
      rw [not_not] at hr
      have hlt : (x.todo.drop r).length < x.todo.length := by
        have h1 := List.length_pos_iff.mpr hne
        have h2 := chunkMax_pos
        rw [hr, List.length_drop, List.length_take]
        omega
      have h6 : writeStep ip u (.advance p) = some (.ok (goto u p (.loop { x with todo := x.todo.drop r }))) := by
        simp [writeStep, SharedFile.filewrite, hpc', Write.chunk, hr]
      rw [Option.getD_some] at hoff'
      rw [← hfs, ← hoff', ← hr] at h
      have hlt32 : u.off < 2 ^ 32 := hoff' ▸ Nat.mod_lt _ (by decide)
      obtain ⟨k, t, hrun', ht⟩ := chunkLoop_runs (s := goto u p (.loop { x with todo := x.todo.drop r }))
        (Function.update_self ..) hfree' hlt32 h
      refine ⟨6 + k, t, ?_, hres ▸ ht⟩
      rw [List.replicate_add]
      exact (hrun.append (.cons h6 (.nil _))).append hrun'
termination_by x.todo.length
decreasing_by exact hlt

theorem filewrite_runs {s : Sys P} {r : ℤ} (hpc : s.pc p = .idle) (hfree : s.holder = none) (hoff : s.off < 2 ^ 32)
    (h : filewrite s.fs ip s.writable s.off src = .ok (r, off, fs)) :
    ∃ k t v, Run (Steps (writeStep ip)) s (.call p src :: List.replicate k (.advance p)) t ∧ t.fs = fs ∧ t.off = off ∧
      t.pc p = .idle ∧ t.results = s.results ++ [(s.calls.length, v)] ∧ r = v.elim (-1) (↑) := by
  have h1 : writeStep ip s (.call p src) = some (.ok (start s p src)) := if_pos hpc
  rw [filewrite] at h
  cases hw : s.writable with
  | false =>
    rw [hw, if_pos rfl] at h
    cases h
    rw [start, hw, if_neg Bool.false_ne_true] at h1
    exact ⟨0, _, none, .cons h1 (.nil _), rfl, rfl, Function.update_self .., rfl, rfl⟩
  | true =>
    rw [hw, if_neg Bool.noConfusion] at h
    obtain ⟨⟨done, off', fs'⟩, hloop, h⟩ := Outcome.bind_eq_ok.mp h
    cases h
    rw [start, if_pos hw] at h1
    obtain ⟨k, t, hrun, hfs, ho, hidle, hres⟩ := chunkLoop_runs (s := goto { s with calls := s.calls ++ [src] } p
      (.loop ⟨s.calls.length, src.length, src⟩)) (Function.update_self ..) hfree hoff hloop
    refine ⟨k, t, _, .cons h1 hrun, hfs, ho, hidle, hres, ?_⟩
    cases done <;> rfl

end

theorem refused_bound {size n : ℕ} (h : ¬Refused size off n) :
    off ≤ size ∧ off + n < 2 ^ 32 ∧ off + n ≤ MAXFILE * BSIZE := by
  simpa only [Refused, not_or, not_lt, not_le] using h

theorem ilock_freeCount (he : ilock fs ip = .ok fs') : freeCount fs' = freeCount fs := by
  rw [ilock] at he
  split_ifs at he
  · cases he
    rfl
  · cases he
    exact freeCount_congr rfl rfl

structure Locked (fs : State) (ip : ℕ) (f : Fs.File) (fs' : State) : Prop where
  inv : Inv fs'
  ref : 0 < fs'.ref ip
  valid : fs'.valid ip = true
  file : Fs.file fs' ip = some f
  type : (fs'.inode ip).type = f.type
  size : (fs'.inode ip).size = f.bytes.length
  free : freeCount fs' = freeCount fs

theorem ilock_locked (h : Inv fs) (hr : 0 < fs.ref ip) (hf : file fs ip = some f) :
    ∃ fs', ilock fs ip = .ok fs' ∧ Locked fs ip f fs' := by
  have hspec := ilock_spec h ip
  cases he : ilock fs ip with
  | error e =>
    rcases hspec.of_error he with ⟨-, hlt⟩ | ⟨-, hnone⟩
    · omega
    · rw [hf] at hnone
      cases hnone
  | ok fs' =>
    obtain ⟨hc, href, hv⟩ := hspec.of_ok he
    have hv' : fs'.valid ip = true := by rw [hv, Function.update_self]
    have hfile := file_of_valid hv' (hc.inv.typed_inode hv')
    rw [hc.files, hf] at hfile
    have hbytes : f.bytes = contents fs' ip := congrArg Fs.File.bytes (Option.some.inj hfile)
    refine ⟨fs', rfl, hc.inv, by rwa [href], hv', (hc.files ip).trans hf, ?_, ?_, ilock_freeCount he⟩
    · exact (congrArg Fs.File.type (Option.some.inj hfile)).symm
    · rw [hbytes, length_contents, cur_of_valid hv']

theorem writeChunk_spec (h : Inv fs) (hr : 0 < fs.ref ip) (hf : file fs ip = some f) (hd : f.type ≠ .dev) (off : ℕ)
    (src : List UInt8) :
    Sat (writeChunk fs ip off src) (· = "balloc: out of blocks") fun r => Inv r.2 ∧ 0 < r.2.ref ip ∧
      (r.1 = none ∧ file r.2 ip = some f ∧ Refused f.bytes.length off src.length ∨
        r.1 = some src.length ∧ ¬Refused f.bytes.length off src.length ∧
          file r.2 ip = some { f with bytes := splice f.bytes off src }) := by
  obtain ⟨fs1, he, hl⟩ := ilock_locked h hr hf
  have hdev : (fs1.inode ip).type ≠ .dev := by rwa [hl.type]
  rw [writeChunk, he, Outcome.ok_bind]
  by_cases hno : Refused f.bytes.length off src.length
  · rw [writei_refused hdev (hl.size.symm ▸ hno), sat_ok]
    exact ⟨hl.inv, hl.ref, Or.inl ⟨rfl, hl.file, hno⟩⟩
  · apply (writei_spec hl.inv hl.valid hdev src off).post
    rintro ⟨r, fs2⟩ (⟨-, -, hbad⟩ | ⟨hr2, -, hw⟩)
    · rw [hl.size] at hbad
      exact absurd hbad hno
    · refine ⟨hw.inv, ?_, Or.inr ⟨hr2, hno, hw.bytes f hl.file⟩⟩
      rw [hw.frame.ref]
      exact hl.ref

structure Stops (f : Fs.File) (ip start : ℕ) (src : List UInt8) (r : Bool × ℕ × State) (k : ℕ) : Prop where
  off : r.2.1 = start + k
  file : Fs.file r.2.2 ip = some { f with bytes := splice f.bytes start (src.take k) }
  room : 0 < k → start ≤ f.bytes.length ∧ start + k ≤ MAXFILE * BSIZE
  done : r.1 = true → k = src.length
  more : r.1 = false → k < src.length ∧ (k = 0 ∨ chunkMax ≤ k) ∧
    Refused (splice f.bytes start (src.take k)).length (start + k) ((src.drop k).take chunkMax).length

theorem Stops.next {n k : ℕ} {r : Bool × ℕ × State} (hn : n = (src.take chunkMax).length) (h0 : src ≠ [])
    (hno : ¬Refused f.bytes.length off n)
    (h : Stops { f with bytes := splice f.bytes off (src.take chunkMax) } ip (off + n) (src.drop n) r k) :
    Stops f ip off src r (n + k) := by
  obtain ⟨hoff, -, hmax⟩ := refused_bound hno
  have hlen : n = min chunkMax src.length := by rw [hn, List.length_take]
  have hsame : src.take chunkMax = src.take n := by rw [hlen, ← List.take_eq_take_min]
  rw [hsame] at h
  have htake : (src.take n).length = n := by rw [← hsame, ← hn]
  have hcat : src.take n ++ (src.drop n).take k = src.take (n + k) := (List.take_add ..).symm
  have hbytes : splice (splice f.bytes off (src.take n)) (off + n) ((src.drop n).take k) =
      splice f.bytes off (src.take (n + k)) := by
    have hs := splice_splice (a := src.take n) (b := (src.drop n).take k) hoff
    rwa [htake, hcat] at hs
  have hdrop : (src.drop n).length = src.length - n := List.length_drop ..
  have hpos := List.length_pos_iff.mpr h0
  have hcm := chunkMax_pos
  refine ⟨by rw [h.off, Nat.add_assoc], ?_, fun _ => ⟨hoff, ?_⟩, fun ht => ?_, fun hf => ?_⟩
  · rw [h.file]
    simp only [hbytes]
  · rcases Nat.eq_zero_or_pos k with rfl | hk
    · omega
    · have := (h.room hk).2
      omega
  · have := h.done ht
    omega
  · obtain ⟨h1, h2, h3⟩ := h.more hf
    simp only [hbytes] at h3
    rw [List.drop_drop, Nat.add_assoc] at h3
    refine ⟨by omega, Or.inr ?_, h3⟩
    -- what is left after a chunk means that the chunk was a full one
    omega

theorem chunkLoop_spec (h : Inv fs) (hr : 0 < fs.ref ip) (hf : file fs ip = some f) (hd : f.type ≠ .dev)
    (off : ℕ) (src : List UInt8) :
    Sat (chunkLoop fs ip off src) (· = "balloc: out of blocks") fun r => ∃ k, Stops f ip off src r k := by
  induction hn : src.length using Nat.strong_induction_on generalizing fs f off src with
  | _ n ih =>
    rw [chunkLoop]
    by_cases h0 : src = []
    · rw [dif_pos h0, sat_ok]
      subst h0
      refine ⟨0, rfl, ?_, fun hk => absurd hk (lt_irrefl 0), fun _ => rfl, fun he => (by cases he)⟩
      rw [List.take_nil, splice_nil]
      exact hf
    · rw [dif_neg h0]
      have hpos := List.length_pos_iff.mpr h0
      have hcm := chunkMax_pos
      apply (writeChunk_spec h hr hf hd off (src.take chunkMax)).bind
      rintro ⟨r, fs1⟩ ⟨hinv, href, ⟨rfl, hf1, hbad⟩ | ⟨rfl, hno, hf1⟩⟩
      · refine ⟨0, rfl, ?_, fun hk => absurd hk (lt_irrefl 0), fun he => (by cases he), fun _ => ⟨hpos, Or.inl rfl, ?_⟩⟩
        · rw [List.take_zero, splice_nil]
          exact hf1
        · rw [List.take_zero, splice_nil, List.drop_zero]
          exact hbad
      · simp only [ne_eq, not_true_eq_false, if_false]
        have hlt : off + (src.take chunkMax).length < 2 ^ 32 := (refused_bound hno).2.1
        have hlen : (src.take chunkMax).length = min chunkMax src.length := List.length_take ..
        have hshort : (src.drop (src.take chunkMax).length).length < n := by
          rw [List.length_drop]
          omega
        rw [Nat.mod_eq_of_lt hlt]
        apply (ih _ hshort hinv href hf1 hd (off + (src.take chunkMax).length)
          (src.drop (src.take chunkMax).length) rfl).post
        rintro r ⟨k, hk⟩
        exact ⟨_, Stops.next rfl h0 hno hk⟩

theorem take_drop_splice {bs : List UInt8} (h : off ≤ bs.length) :
    ((splice bs off src).drop off).take src.length = src := by
  have hlen : (bs.take off).length = off := by
    rw [List.length_take]
    omega
  rw [splice, List.append_assoc, List.drop_left' hlen, List.take_left]

theorem Stops.reports_iff {r : Bool × ℕ × State} {k : ℕ} (hbound : f.bytes.length ≤ MAXFILE * BSIZE)
    (hk : Stops f ip off src r k) :
    Reports f ip off src (if r.1 then (src.length : ℤ) else -1, r.2) ↔ ¬Cut f off src.length := by
  obtain ⟨done, off', fs'⟩ := r
  have hoff : off' = off + k := hk.off
  have hfile : Fs.file fs' ip = some { f with bytes := splice f.bytes off (src.take k) } := hk.file
  have hroom := hk.room
  cases done with
  | true =>
    have hlen : k = src.length := hk.done rfl
    rw [hlen, List.take_length] at hfile
    refine iff_of_true ?_ fun hc => ?_
    · refine Or.inl ⟨rfl, by rw [← hlen]; exact hoff, _, hfile, ?_⟩
      rcases Nat.eq_zero_or_pos src.length with h0 | hpos
      · rw [List.length_eq_zero_iff.mp h0]
        rfl
      · exact take_drop_splice (hroom (by omega)).1
    · obtain ⟨-, h1, -, h2⟩ := hc
      have := (hroom (by omega)).2
      omega
  | false =>
    obtain ⟨hlt, hfirst, hbad⟩ := hk.more rfl
    have hchunk : ((src.drop k).take chunkMax).length = min chunkMax (src.length - k) := by
      rw [List.length_take, List.length_drop]
    rw [hchunk] at hbad
    have hcm : chunkMax = 1536 := rfl
    have hmax : MAXFILE * BSIZE = 71680 := rfl
    rcases Nat.eq_zero_or_pos k with rfl | hpos
    · rw [List.take_zero, splice_nil] at hfile hbad
      refine iff_of_true (Or.inr ⟨rfl, hoff, hfile⟩) fun hc => ?_
      obtain ⟨h1, h2, h3, h4⟩ := hc
      rcases hbad with hb | hb | hb
      all_goals omega
    · obtain ⟨h1, h2⟩ := hroom hpos
      have hsize : (splice f.bytes off (src.take k)).length = max f.bytes.length (off + k) := by
        rw [length_splice h1, List.length_take, min_eq_left hlt.le]
      rw [hsize] at hbad
      refine iff_of_false ?_ fun hn => hn ⟨h1, ?_, ?_, ?_⟩
      · rintro (⟨he, -⟩ | ⟨-, he, -⟩)
        · have : (-1 : ℤ) = src.length := he
          omega
        · have : off' = off := he
          omega
      all_goals rcases hbad with hb | hb | hb
      all_goals omega

/-- `filewrite` on an open file that is not a device reports what it did, unless the file is writable and the limit of
the file size cuts a write of several chunks short. -/
theorem filewrite_reports (h : Inv fs) (hr : 0 < fs.ref ip) (hf : file fs ip = some f) (hd : f.type ≠ .dev)
    (writable : Bool) (off : ℕ) (src : List UInt8) :
    Sat (filewrite fs ip writable off src) (· = "balloc: out of blocks") fun r =>
      Reports f ip off src r ↔ ¬(writable = true ∧ Cut f off src.length) := by
  rw [filewrite]
  apply sat_ite
  · rintro rfl
    exact iff_of_true (Or.inr ⟨rfl, rfl, hf⟩) fun hc => Bool.noConfusion hc.1
  · intro hw
    have hw' : writable = true := by simpa using hw
    apply (chunkLoop_spec h hr hf hd off src).bind
    rintro r ⟨k, hk⟩
    rw [sat_ok, hw', hk.reports_iff (bytes_le h hf)]
    exact not_congr (and_iff_right rfl).symm

def roomy (fs : State) (f : Fs.File) : Prop :=
  slotsFor MAXFILE ≤ slotsFor (blocksOf f.bytes.length) + freeCount fs

theorem writeChunk_room (h : Inv fs) (hr : 0 < fs.ref ip) (hf : file fs ip = some f) (hd : f.type ≠ .dev)
    (hroom : roomy fs f) (off : ℕ) (src : List UInt8) :
    ∃ r, writeChunk fs ip off src = .ok r ∧ ∀ g, file r.2 ip = some g → roomy r.2 g := by
  obtain ⟨fs1, he, hl⟩ := ilock_locked h hr hf
  have hdev : (fs1.inode ip).type ≠ .dev := by rwa [hl.type]
  rw [writeChunk, he, Outcome.ok_bind]
  rw [roomy, ← hl.free] at hroom
  by_cases hno : Refused f.bytes.length off src.length
  · refine ⟨_, writei_refused hdev (hl.size.symm ▸ hno), fun g hg => ?_⟩
    obtain rfl := Option.some.inj (hl.file.symm.trans hg)
    exact hroom
  · obtain ⟨h1, -, h2⟩ := refused_bound hno
    have hmono : slotsFor (blocksOf (max f.bytes.length (off + src.length))) ≤ slotsFor MAXFILE :=
      slotsFor_mono (blocksOf_le (max_le (bytes_le h hf) h2))
    have hmax : blocksOf (max f.bytes.length (off + src.length)) =
        max (blocksOf f.bytes.length) (blocksOf (off + src.length)) := by
      simp only [blocksOf, BSIZE]
      omega
    have henough : enough fs1 ip off src.length := by
      rw [enough, hl.size, ← hmax]
      omega
    obtain ⟨fs2, hw, hwrote, hcount⟩ := writei_room hl.inv hl.valid hdev (hl.size.symm ▸ hno) henough
    refine ⟨_, hw, fun g hg => ?_⟩
    obtain rfl := Option.some.inj ((hwrote.bytes f hl.file).symm.trans hg)
    rw [hl.size] at hcount
    rw [roomy, length_splice h1]
    dsimp only
    omega

theorem chunkLoop_room (h : Inv fs) (hr : 0 < fs.ref ip) (hf : file fs ip = some f) (hd : f.type ≠ .dev)
    (hroom : roomy fs f) (off : ℕ) (src : List UInt8) : ∃ r, chunkLoop fs ip off src = .ok r := by
  induction hn : src.length using Nat.strong_induction_on generalizing fs f off src with
  | _ n ih =>
    rw [chunkLoop]
    by_cases h0 : src = []
    · exact ⟨_, dif_pos h0⟩
    · rw [dif_neg h0]
      have hpos := List.length_pos_iff.mpr h0
      have hcm := chunkMax_pos
      obtain ⟨⟨r, fs1⟩, he, hroom1⟩ := writeChunk_room h hr hf hd hroom off (src.take chunkMax)
      rw [he, Outcome.ok_bind]
      obtain ⟨hinv, href, ⟨rfl, -, -⟩ | ⟨rfl, -, hf1⟩⟩ := (writeChunk_spec h hr hf hd off (src.take chunkMax)).of_ok he
      · exact ⟨_, rfl⟩
      · simp only [ne_eq, not_true_eq_false, if_false]
        have hshort : (src.drop (src.take chunkMax).length).length < n := by
          rw [List.length_drop, List.length_take]
          omega
        exact ih _ hshort hinv href hf1 hd (hroom1 _ hf1) _ _ rfl

theorem filewrite_room (h : Inv fs) (hr : 0 < fs.ref ip) (hf : file fs ip = some f) (hd : f.type ≠ .dev)
    (hroom : roomy fs f) (writable : Bool) (off : ℕ) (src : List UInt8) :
    ∃ r, filewrite fs ip writable off src = .ok r := by
  rw [filewrite]
  split_ifs
  · exact ⟨_, rfl⟩
  · obtain ⟨r, he⟩ := chunkLoop_room h hr hf hd hroom off src
    rw [he]
    exact ⟨_, rfl⟩

def wideImage : State := { blankImage with sb := ⟨230, 200, 8⟩ }

theorem wideImage_slots (s : Fs.Slot) : diskRef wideImage s = none := blankImage_slots s

theorem wideImage_wellFormed : WellFormed wideImage where
  cold _ := rfl
  room := by decide
  small := by decide
  data s b hs := by
    rw [wideImage_slots] at hs
    cases hs
  once s t b hs := by
    rw [wideImage_slots] at hs
    cases hs
  bits b _ := by
    simp only [wideImage_slots]
    simp [wideImage, blankImage, Superblock.nmeta]
  filled i hi := absurd rfl hi
  bound i hi := absurd rfl hi

theorem wideImage_file : ∃ fs, Run (Steps fsCall) wideImage [.ialloc .file] fs ∧ 0 < fs.ref 1 ∧
    file fs 1 = some newFile ∧ roomy fs newFile := by
  have h : (exec fsCall wideImage [.ialloc .file]).map (fun fs => decide (0 < fs.ref 1 ∧ file fs 1 = some newFile ∧
      freeCount fs = 200)) = some true := by decide +kernel
  obtain ⟨fs, he, hd⟩ := Option.map_eq_some_iff.mp h
  obtain ⟨hr, hf, hfree⟩ := of_decide_eq_true hd
  refine ⟨fs, run_of_exec he, hr, hf, ?_⟩
  rw [roomy, hfree]
  decide

theorem filewrite_reports_small : ∃ fs r, Inv fs ∧ file fs 1 = some newFile ∧
    filewrite fs 1 true 0 (List.replicate 5000 7) = .ok r ∧ Reports newFile 1 0 (List.replicate 5000 7) r := by
  obtain ⟨fs, hrun, hr, hf, hroom⟩ := wideImage_file
  have h := fsRun_inv wideImage_wellFormed.inv hrun
  have hd : newFile.type ≠ .dev := by decide
  obtain ⟨r, he⟩ := filewrite_room h hr hf hd hroom true 0 (List.replicate 5000 7)
  have hiff := (filewrite_reports h hr hf hd true 0 (List.replicate 5000 7)).of_ok he
  refine ⟨fs, r, h, hf, he, hiff.mpr fun hc => absurd hc.2.2.2.2 ?_⟩
  rw [List.length_replicate]
  decide

/-- One byte more than a file can hold is written to an empty file: the chunks that fit are in the file afterwards,
and the call fails. -/
theorem filewrite_half_done : ¬∀ (fs : State) (ip : ℕ) (f : Fs.File) (writable : Bool) (off : ℕ) (src : List UInt8)
    (r : ℤ × ℕ × State), Inv fs → 0 < fs.ref ip → file fs ip = some f → f.type ≠ .dev →
    filewrite fs ip writable off src = .ok r → Reports f ip off src r := by
  intro hall
  obtain ⟨fs, hrun, hr, hf, hroom⟩ := wideImage_file
  have h := fsRun_inv wideImage_wellFormed.inv hrun
  have hd : newFile.type ≠ .dev := by decide
  set src : List UInt8 := List.replicate 71681 7 with hsrc
  have hlen : src.length = 71681 := List.length_replicate ..
  obtain ⟨r, he⟩ := chunkLoop_room h hr hf hd hroom 0 src
  obtain ⟨k, hk⟩ := (chunkLoop_spec h hr hf hd 0 src).of_ok he
  have hret : filewrite fs 1 true 0 src = .ok (if r.1 then (src.length : ℤ) else -1, r.2) := by
    rw [filewrite, if_neg Bool.noConfusion, he]
    rfl
  refine (hk.reports_iff (bytes_le h hf)).mp (hall _ _ _ _ _ _ _ h hr hf hd hret) ?_
  rw [Cut, hlen]
  decide

end Xv6.FileWrite
