import Xv6.DirMap
import Xv6.LinkCounts

/-!
Paths: their elements, and `namei` and `nameiparent` as folds of `dirlookup`.
-/

namespace Xv6.SysFile

open Contract FileTable OpenFiles ProcTable LinkGraph Transition
open Fs hiding Slot
open PointerCount hiding hit

def runs (path : Path) : List (List UInt8) := (path.splitOnP (· = slash)).filter (· ≠ [])

theorem runs_nil : runs [] = [] := by
  rw [runs, List.splitOnP_nil]
  rfl

theorem runs_slash (path : Path) : runs (slash :: path) = runs path := by
  have h : ([] ++ slash :: path).splitOnP (· = slash) = [] :: path.splitOnP (· = slash) :=
    List.splitOnP_append_cons_of_forall_mem (by simp) slash (by simp) path
  rw [List.nil_append] at h
  rw [runs, h, List.filter_cons_of_neg (by simp), runs]

theorem runs_dropWhile (path : Path) : runs (path.dropWhile (· = slash)) = runs path := by
  induction path with
  | nil => rfl
  | cons c path ih =>
    rw [List.dropWhile_cons]
    split_ifs with hc
    · rw [of_decide_eq_true hc, runs_slash, ih]
    · rfl

theorem runs_append {run : List UInt8} (h : ∀ c ∈ run, c ≠ slash) (h0 : run ≠ []) (rest : Path) :
    runs (run ++ slash :: rest) = run :: runs rest := by
  have hs : (run ++ slash :: rest).splitOnP (· = slash) = run :: rest.splitOnP (· = slash) :=
    List.splitOnP_append_cons_of_forall_mem (fun c hc => decide_eq_false (h c hc)) slash (by simp) rest
  rw [runs, hs, List.filter_cons_of_pos (by simpa using h0), runs]

theorem runs_single {run : List UInt8} (h : ∀ c ∈ run, c ≠ slash) (h0 : run ≠ []) : runs run = [run] := by
  rw [runs, List.splitOnP_eq_singleton fun c hc => decide_eq_false (h c hc),
      List.filter_cons_of_pos (by simpa using h0),
    List.filter_nil]

theorem dropWhile_head {p : UInt8 → Bool} {cs rest : List UInt8} {c : UInt8} (h : cs.dropWhile p = c :: rest) :
    p c = false := by
  have hnot := List.head?_dropWhile_not p cs
  rw [h] at hnot
  exact hnot

theorem skipelem_runs (path : Path) : match skipelem path with
    | none => runs path = []
    | some (name, rest) => ∃ run, runs path = run :: runs rest ∧ name = run.take DIRSIZ := by
  have hdrop := runs_dropWhile path
  simp only [skipelem]
  split_ifs with h0
  · rw [← hdrop, h0]
    exact runs_nil
  · obtain ⟨c, cs, hc⟩ := List.exists_cons_of_ne_nil h0
    have hslash : c ≠ slash := of_decide_eq_false (dropWhile_head hc)
    rw [hc] at hdrop ⊢
    have hrun : ∀ a ∈ (c :: cs).takeWhile (fun a => decide (a ≠ slash)), a ≠ slash := by
      intro a ha
      simpa using List.mem_takeWhile_imp ha
    have hne : (c :: cs).takeWhile (fun a => decide (a ≠ slash)) ≠ [] := by
      rw [List.takeWhile_cons_of_pos (by simpa using hslash)]
      exact List.cons_ne_nil _ _
    have hsplit : (c :: cs).takeWhile (fun a => decide (a ≠ slash)) ++ (c :: cs).dropWhile
        (fun a => decide (a ≠ slash)) =
        c :: cs := List.takeWhile_append_dropWhile
    refine ⟨_, ?_, rfl⟩
    rw [← hdrop, runs_dropWhile]
    cases hd : (c :: cs).dropWhile (fun a => decide (a ≠ slash)) with
    | nil =>
      rw [hd, List.append_nil] at hsplit
      rw [runs_nil, ← runs_single hrun hne, hsplit]
    | cons a rest =>
      have ha : a = slash := by simpa using dropWhile_head hd
      rw [hd, ha] at hsplit
      rw [ha, runs_slash, ← runs_append hrun hne, hsplit]

theorem pathElems_eq (path : Path) : pathElems path = (runs path).map (List.take DIRSIZ) := by
  induction hn : path.length using Nat.strong_induction_on generalizing path with
  | _ n ih =>
    have hstep := skipelem_runs path
    rw [pathElems]
    split
    · rename_i h
      rw [h] at hstep
      rw [hstep]
      rfl
    · rename_i name rest h
      rw [h] at hstep
      obtain ⟨run, hr, rfl⟩ := hstep
      rw [hr, List.map_cons, ih _ (hn ▸ skipelem_length h) rest rfl]

def lookupIn (F : Files) (d : ℕ) (name : List UInt8) : Option ℕ :=
  (F d).bind fun f => if f.type = .dir then (binding (entriesOf f.bytes) (chars DIRSIZ name)).map Prod.snd else none

def resolve (F : Files) (start : ℕ) (elems : List (List UInt8)) : Option ℕ := elems.foldlM (lookupIn F) start

def isDirIn (F : Files) (d : ℕ) : Prop := ∃ f, F d = some f ∧ f.type = .dir

instance (F : Files) (d : ℕ) : Decidable (isDirIn F d) :=
  match h : F d with
  | none => isFalse fun ⟨f, hf, _⟩ => by rw [h] at hf; cases hf
  | some f => decidable_of_iff (f.type = .dir) ⟨fun hd => ⟨f, h, hd⟩, fun ⟨g, hg,
      hd⟩ => by rw [h] at hg; cases hg; exact hd⟩

def walk (F : Files) (parent : Bool) : ℕ → List (List UInt8) → Option (ℕ × List UInt8)
  | ip, [] => if parent then none else some (ip, [])
  | ip, name :: elems =>
    if ¬isDirIn F ip then none
    else if parent ∧ elems = [] then some (ip, name)
    else (lookupIn F ip name).bind fun next => walk F parent next elems

variable {F : Files} {N : ℕ} {P : ℕ → ℕ} {d ip i dp : ℕ} {elems : List (List UInt8)} {name : List UInt8}

theorem lookupIn_of_not_dir (h : ¬isDirIn F d) (name : List UInt8) : lookupIn F d name = none := by
  rw [lookupIn]
  cases hf : F d with
  | none => rfl
  | some f =>
    rw [Option.bind_some, if_neg]
    intro hd
    exact h ⟨f, hf, hd⟩

theorem walk_false (F : Files) (ip : ℕ) (elems : List (List UInt8)) :
    (walk F false ip elems).map Prod.fst = resolve F ip elems := by
  induction elems generalizing ip with
  | nil => rfl
  | cons name elems ih =>
    rw [walk, resolve, List.foldlM_cons]
    by_cases hd : isDirIn F ip
    · rw [if_neg (not_not.mpr hd), if_neg (by simp)]
      cases hl : lookupIn F ip name with
      | none => rfl
      | some next =>
        rw [Option.bind_some, ih]
        rfl
    · rw [if_pos hd, lookupIn_of_not_dir hd]
      rfl

theorem walk_true (F : Files) (ip : ℕ) (elems : List (List UInt8)) (name : List UInt8) :
    walk F true ip (elems ++ [name]) = (resolve F ip elems).bind fun d =>
      if isDirIn F d then some (d, name) else none := by
  induction elems generalizing ip with
  | nil =>
    simp only [List.nil_append, walk, resolve, List.foldlM_nil, true_and, if_true]
    by_cases hd : isDirIn F ip
    · simp [hd]
    · simp [hd]
  | cons a elems ih =>
    rw [List.cons_append, walk, resolve, List.foldlM_cons]
    by_cases hd : isDirIn F ip
    · rw [if_neg (not_not.mpr hd), if_neg (by simp)]
      cases hl : lookupIn F ip a with
      | none => rfl
      | some next =>
        rw [Option.bind_some, ih]
        rfl
    · rw [if_pos hd, lookupIn_of_not_dir hd]
      rfl

variable {s t : Sys} {mine locked : Multiset ℕ} {f g : Fs.File}

def Kept (F : Files) (P : ℕ → ℕ) (i : ℕ) : Prop := ∀ f, F i = some f → f.nlink = 0 → 0 < P i

def inUse (N : ℕ) (P : ℕ → ℕ) : ℕ := ((List.range N).filter fun j => 0 < P j).length

theorem countP_le_add {p q r : ℕ → Bool} (h : ∀ j, p j = true → q j = true ∨ r j = true) (js : List ℕ) :
    js.countP p ≤ js.countP q + js.countP r := by
  induction js with
  | nil => simp
  | cons j js ih =>
    simp only [List.countP_cons]
    have hj := h j
    split_ifs <;> simp_all
    all_goals omega

theorem inUse_add_le (N : ℕ) (P : ℕ → ℕ) (mine : Multiset ℕ) :
    inUse N (fun j => P j + mine.count j) ≤ inUse N P + mine.card := by
  have hsplit : inUse N (fun j => P j + mine.count j) ≤ inUse N P + ((List.range N).filter fun j =>
      j ∈ mine).length := by
    rw [inUse, inUse, ← List.countP_eq_length_filter, ← List.countP_eq_length_filter, ← List.countP_eq_length_filter]
    apply countP_le_add
    intro j hj
    simp only [decide_eq_true_eq] at hj ⊢
    by_cases hm : j ∈ mine
    · exact Or.inr hm
    · rw [Multiset.count_eq_zero.mpr hm] at hj
      exact Or.inl hj
  have hmine : ((List.range N).filter fun j => j ∈ mine).length ≤ mine.card := by
    have hle : (((List.range N).filter fun j => j ∈ mine : List ℕ) : Multiset ℕ) ≤ mine := by
      apply (Multiset.le_iff_subset _).mpr
      · intro j hj
        simpa using (List.mem_filter.mp hj).2
      · exact List.nodup_range.filter _
    simpa using Multiset.card_le_card hle
  omega

namespace Work

theorem ref_eq (h : Work s F N P mine locked) (j : ℕ) : s.fs.ref j = P j + mine.count j := by
  obtain ⟨n, hb⟩ := h.balance
  rw [← h.ptrs, pointers, hb.refs j]

theorem cached_length (h : Work s F N P mine locked) :
    (cached s.fs).length = inUse N (fun j => P j + mine.count j) := by
  simp only [cached, h.ninodes, inUse, h.ref_eq]

theorem cached_le (h : Work s F N P mine locked) : (cached s.fs).length ≤ inUse N P + mine.card := by
  rw [h.cached_length]
  exact inUse_add_le N P mine

theorem ilock_ok (h : Work s F N P mine locked) (hi : i ∈ mine) (hn : i ∉ locked) (hf : F i = some f) :
    ∃ t, SysFile.ilock s i = .ok t ∧ Work t F N P mine (i ::ₘ locked) ∧ (t.fs.inode i).type = f.type := by
  obtain ⟨n, hb⟩ := h.balance
  have hok : ∃ t, SysFile.ilock s i = .ok t := by
    have hheld : ¬s.held i = true := fun hh => hn (hb.mem_locked.mpr hh)
    have hspec := ilock_spec h.inv i
    rw [SysFile.ilock, if_neg hheld]
    cases he : Fs.ilock s.fs i with
    | error e =>
      rcases hspec.of_error he with ⟨-, hlt⟩ | ⟨-, hnone⟩
      · have := h.pos hi
        omega
      · rw [h.file_eq, hf] at hnone
        cases hnone
    | ok fs => exact ⟨_, rfl⟩
  obtain ⟨t, ht⟩ := hok
  have hw := (h.ilock hi).of_ok ht
  obtain ⟨g, hg, htype, -⟩ := hw.locked_file (Multiset.mem_cons_self i locked)
  rw [hf] at hg
  cases hg
  exact ⟨t, ht, hw, htype.symm⟩

theorem iunlock_ok (h : Work s F N P mine (i ::ₘ locked)) :
    ∃ t, SysFile.iunlock s i = .ok t ∧ Work t F N P mine locked := by
  obtain ⟨n, hb⟩ := h.balance
  have hi := Multiset.mem_cons_self i locked
  have hheld : s.held i = true := hb.mem_locked.mp hi
  have hpos := h.pos (h.locks i hi)
  have hok : SysFile.iunlock s i = .ok { s with held := Function.update s.held i false } := by
    rw [SysFile.iunlock, if_neg]
    rw [hheld]
    simp only [Bool.true_eq_false, false_or]
    omega
  exact ⟨_, hok, h.iunlock.of_ok hok⟩

theorem iput_kept (h : Work s F N P (i ::ₘ mine) locked) (hn : i ∉ locked) (hk : Kept F P i) :
    ∃ t, SysFile.iput s i = .ok t ∧ Work t F N P mine locked := by
  have hspec := h.iput
  cases he : SysFile.iput s i with
  | error e => exact absurd (hspec.of_error he).2 hn
  | ok t =>
    rcases hspec.of_ok he with ht | ⟨hP, -, f, hf, h0, -⟩
    · exact ⟨t, rfl, ht⟩
    · have := hk f hf h0
      omega

theorem iunlockput_kept (h : Work s F N P (i ::ₘ mine) (i ::ₘ locked)) (hk : Kept F P i) :
    ∃ t, SysFile.iunlockput s i = .ok t ∧ Work t F N P mine locked := by
  obtain ⟨t, ht, hw⟩ := h.iunlock_ok
  obtain ⟨t', ht', hw'⟩ := hw.iput_kept h.notMem_of_cons hk
  refine ⟨t', ?_, hw'⟩
  rw [SysFile.iunlockput, ht, Outcome.ok_bind, ht']

theorem dirlookup_eq (h : Work s F N P mine locked) (hdp : dp ∈ locked) (hf : F dp = some f) (hd : f.type = .dir)
    (hmod : f.bytes.length % sizeofDirent = 0) (name : List UInt8) :
    Sat (SysFile.dirlookup s dp name) (fun e => e = "iget: no inodes" ∧ NINODE ≤ (cached s.fs).length) fun r =>
      r.1 = binding (entriesOf f.bytes) (chars DIRSIZ name) ∧ Work r.2 F N P
        (holding (r.1.map Prod.snd) mine) locked := by
  obtain ⟨g, hg, htype, -⟩ := h.locked_file hdp
  rw [hf] at hg
  cases hg
  have hbytes := h.bytes hf
  have hread : Readable s.fs dp := ⟨h.inv, h.valid dp hdp, htype.symm.trans hd, by rw [hbytes]; exact hmod⟩
  have hspec := h.dirlookup hdp name
  cases hb : binding (entriesOf f.bytes) (chars DIRSIZ name) with
  | none =>
    have he : SysFile.dirlookup s dp name = .ok (none, s) := by
      rw [SysFile.dirlookup, hread.dirlookup_missing (by rw [dirMap, hbytes]; exact hb)]
      rfl
    rw [he]
    exact ⟨rfl, h⟩
  | some r =>
    obtain ⟨off, i⟩ := r
    have he : SysFile.dirlookup s dp name = (fun fs => (some (off, i), setFs s fs)) <$> Fs.iget s.fs i := by
      rw [SysFile.dirlookup, hread.dirlookup_found (by rw [dirMap, hbytes]; exact hb)]
      cases Fs.iget s.fs i <;> rfl
    rw [he, sat_map]
    cases hi : Fs.iget s.fs i with
    | error e =>
      rw [Fs.iget] at hi
      split_ifs at hi with h1 h2
      cases hi
      exact ⟨rfl, h2⟩
    | ok fs =>
      rw [he, hi] at hspec
      obtain ⟨f', -, -, hr⟩ := hspec
      exact ⟨rfl, hr.1⟩

end Work

theorem kept_named {x : Option ℕ} (h : Tidy True N x F) (hf : F d = some f) (hd : f.type = .dir) (hk : Kept F P d)
    {off : ℕ} {key : List UInt8} (hb : binding (entriesOf f.bytes) key = some (off, i)) : F i ≠ none ∧ Kept F P i := by
  obtain ⟨⟨q, de⟩, hfind, he⟩ := Option.map_eq_some_iff.mp hb
  cases he
  obtain ⟨hget, hused, -⟩ := SlotTable.find_sound hfind
  have hmem := List.mem_of_getElem? hget
  have h0 : de.inum ≠ 0 := by simpa [unused] using hused
  refine ⟨h.named trivial hf hd hmem h0, ?_⟩
  have hpos {j : ℕ} {m : Node ℕ} (hm : graph F j = some m) (hl : 0 < m.nlink) : Kept F P j := by
    intro g hg hg0
    rw [graph_of_some hg] at hm
    cases hm
    rw [nodeOf_nlink, hg0] at hl
    exact absurd hl (by decide)
  rcases (h.dirs d f hf hd).2.named hmem h0 with he | he | hkid
  · exact he ▸ hk
  · rw [he]
    by_cases hl : 0 < f.nlink.toInt
    · obtain ⟨m, hm, hlive⟩ := h.tree.live_parent (graph_of_some hf) (Tidy.live hd hl)
      rw [nodeOf_dir hd] at hm
      exact hpos hm hlive.2
    · obtain ⟨m, hm, hlive⟩ := h.anchored trivial d (nodeOf f) (Tidy.isDir hf hd) (by rwa [nodeOf_nlink])
      rw [nodeOf_dir hd] at hm
      exact hpos hm hlive.2
  · obtain ⟨m, hm, hl⟩ := h.tree.pos_of_kid (Tidy.isDir hf hd) (by rw [nodeOf_dir hd]; exact hkid)
    exact hpos hm hl

def Full (N : ℕ) (P : ℕ → ℕ) (mine : Multiset ℕ) (e : String) : Prop :=
  e = "iget: no inodes" ∧ NINODE < inUse N P + mine.card + 2

theorem Work.namexLoop_eq (h : Work s F N P (ip ::ₘ mine) 0) (hT : Tidy True N none F) (ha : F ip ≠ none)
    (hk : Kept F P ip) (parent : Bool) (elems : List (List UInt8)) :
    Sat (namexLoop s ip parent elems) (Full N P mine) fun r => r.1 = walk F parent ip elems ∧
      Work r.2 F N P (holding (r.1.map Prod.fst) mine) 0 := by
  induction elems generalizing s ip with
  | nil =>
    rw [namexLoop, walk]
    cases parent with
    | true =>
      obtain ⟨t, ht, hw⟩ := h.iput_kept (Multiset.notMem_zero ip) hk
      simp only [if_true, ht]
      exact ⟨rfl, hw⟩
    | false =>
      simp only [Bool.false_eq_true, if_false]
      exact ⟨rfl, h⟩
  | cons name elems ih =>
    obtain ⟨f, hf⟩ := Option.ne_none_iff_exists'.mp ha
    obtain ⟨t, ht, hw, htype⟩ := h.ilock_ok (Multiset.mem_cons_self ip mine) (Multiset.notMem_zero ip) hf
    have hcached := hw.cached_le
    rw [Multiset.card_cons] at hcached
    rw [namexLoop, walk, ht, Outcome.ok_bind, htype]
    have hgive {t : Sys} (hw : Work t F N P (ip ::ₘ mine) (ip ::ₘ 0)) :
        Sat (giveUp t ip) (Full N P mine) fun r => r.1 = (none : Option (ℕ × List UInt8)) ∧
          Work r.2 F N P (holding (r.1.map Prod.fst) mine) 0 := by
      obtain ⟨t', ht', hw'⟩ := hw.iunlockput_kept hk
      rw [giveUp, ht']
      exact ⟨rfl, hw'⟩
    by_cases hd : f.type = .dir
    · have hdir : isDirIn F ip := ⟨f, hf, hd⟩
      rw [if_neg (not_not.mpr hd), if_neg (not_not.mpr hdir)]
      by_cases hlast : parent = true ∧ elems = []
      · obtain ⟨t', ht', hw'⟩ := hw.iunlock_ok
        rw [if_pos hlast, if_pos hlast, ht']
        exact ⟨rfl, hw'⟩
      · rw [if_neg hlast, if_neg hlast]
        have hlook : lookupIn F ip name = (binding (entriesOf f.bytes) (chars DIRSIZ name)).map Prod.snd := by
          rw [lookupIn, hf, Option.bind_some, if_pos hd]
        apply Sat.bind ((hw.dirlookup_eq (Multiset.mem_cons_self ip 0) hf hd (hT.dirs ip f hf hd).1 name).mono
          (fun e he => ⟨he.1, by omega⟩) fun _ hq => hq)
        rintro ⟨_ | ⟨off, next⟩, t'⟩ ⟨hr, hw'⟩
        · rw [hlook, ← hr]
          exact hgive hw'
        · have hw'' : Work t' F N P (ip ::ₘ next ::ₘ mine) (ip ::ₘ 0) := Multiset.cons_swap next ip mine ▸ hw'
          obtain ⟨t1, ht1, hw1⟩ := hw''.iunlockput_kept hk
          obtain ⟨hnext, hknext⟩ := kept_named hT hf hd hk hr.symm
          rw [hlook, ← hr, Option.map_some, Option.bind_some]
          simp only [ht1, Outcome.ok_bind]
          exact ih hw1 hnext hknext
    · have hdir : ¬isDirIn F ip := by
        rintro ⟨g, hg, hgd⟩
        rw [hf] at hg
        cases hg
        exact hd hgd
      rw [if_pos hd, if_pos hdir]
      exact hgive hw

theorem Work.cached_eq (h : Work s F N P 0 locked) : (cached s.fs).length = inUse N P := by
  simp only [h.cached_length, Multiset.count_zero, Nat.add_zero]

def startOf (cwd : ℕ) (path : Path) : ℕ := if path.head? = some slash then ROOTINO else cwd

def CacheFull (s : Sys) (e : String) : Prop := e = "iget: no inodes" ∧ NINODE < (cached s.fs).length + 2

theorem Sound.namex_eq (h : Sound True none s 0 0) {p : Slot} {c : ℕ} (hc : s.cwd p = some c) (path : Path)
    (parent : Bool) : Sat (SysFile.namex s p path parent) (CacheFull s) fun r =>
      r.1 = walk (file s.fs) parent (startOf c path) (pathElems path) ∧ file r.2.fs = file s.fs := by
  have hfull (e : String) (he : Full s.fs.sb.ninodes (pointers s) 0 e) : CacheFull s e := by
    rw [Full, ← h.work.cached_eq, Multiset.card_zero, Nat.add_zero] at he
    exact he
  rw [SysFile.namex, startOf]
  split_ifs with hroot
  · have hkept : Kept (file s.fs) (pointers s) ROOTINO := by
      intro f hf h0
      obtain ⟨n, hn, hl, -⟩ := h.tidy.tree.top
      have hg : graph (file s.fs) ROOTINO = some n := hn.1
      rw [graph_of_some hf] at hg
      cases hg
      rw [nodeOf_nlink, h0] at hl
      exact absurd hl (by decide)
    have hget := h.work.iget ROOTINO
    cases hi : Fs.iget s.fs ROOTINO with
    | error e =>
      rw [Fs.iget] at hi
      split_ifs at hi with h1 h2
      cases hi
      exact ⟨rfl, by omega⟩
    | ok fs =>
      apply ((hget.of_ok hi).namexLoop_eq h.tidy h.root hkept parent (pathElems path)).mono hfull
      rintro r ⟨hr, hw⟩
      exact ⟨hr, hw.files⟩
  · rw [hc]
    have hkept : Kept (file s.fs) (pointers s) c := by
      intro f _ _
      have := count_pos hc
      unfold pointers
      omega
    apply ((h.work.idup c).namexLoop_eq h.tidy (h.cwd hc) hkept parent (pathElems path)).mono hfull
    rintro r ⟨hr, hw⟩
    exact ⟨hr, hw.files⟩

theorem resolve_eq_none (F : Files) (start : ℕ) (elems : List (List UInt8)) : resolve F start elems = none ↔
    ∃ before name after d, elems = before ++ name :: after ∧ resolve F start before = some d ∧
      lookupIn F d name = none := by
  induction elems generalizing start with
  | nil => simp [resolve]
  | cons a elems ih =>
    rw [resolve, List.foldlM_cons]
    cases hl : lookupIn F start a with
    | none => exact iff_of_true rfl ⟨[], a, elems, start, rfl, rfl, hl⟩
    | some next =>
      have hcons (before : List (List UInt8)) : resolve F start (a :: before) = resolve F next before := by
        rw [resolve, List.foldlM_cons, hl]
        rfl
      refine (ih next).trans ⟨?_, ?_⟩
      · rintro ⟨before, name, after, d, rfl, hd, hn⟩
        exact ⟨a :: before, name, after, d, rfl, (hcons before).trans hd, hn⟩
      · rintro ⟨_ | ⟨b, before⟩, name, after, d, he, hd, hn⟩
        · cases he
          cases hd
          rw [hl] at hn
          cases hn
        · cases he
          exact ⟨before, name, after, d, rfl, (hcons before).symm.trans hd, hn⟩

theorem lookupIn_eq_none (F : Files) (d : ℕ) (name : List UInt8) : lookupIn F d name = none ↔
    ¬isDirIn F d ∨ ∃ f, F d = some f ∧ binding (entriesOf f.bytes) (chars DIRSIZ name) = none := by
  by_cases hd : isDirIn F d
  · obtain ⟨f, hf, hdir⟩ := hd
    rw [lookupIn, hf, Option.bind_some, if_pos hdir, Option.map_eq_none_iff]
    constructor
    · exact fun hb => Or.inr ⟨f, rfl, hb⟩
    · rintro (hn | ⟨g, hg, hb⟩)
      · exact absurd ⟨f, hf, hdir⟩ hn
      · cases hg
        exact hb
  · exact iff_of_true (lookupIn_of_not_dir hd name) (Or.inl hd)

theorem resolve_concat (F : Files) (start : ℕ) (elems : List (List UInt8)) (name : List UInt8) :
    resolve F start (elems ++ [name]) = (resolve F start elems).bind fun d => lookupIn F d name := by
  rw [resolve, List.foldlM_append]
  cases hr : resolve F start elems with
  | none =>
    rw [resolve] at hr
    rw [hr]
    rfl
  | some d =>
    rw [resolve] at hr
    rw [hr]
    simp

theorem walk_parent (F : Files) (start : ℕ) (elems : List (List UInt8)) :
    (walk F true start elems = none ↔ elems = [] ∨ ∀ d, resolve F start elems.dropLast = some d → ¬isDirIn F d) ∧
    ∀ d name, walk F true start elems = some (d, name) → resolve F start elems.dropLast = some d ∧ isDirIn F d ∧
      elems.getLast? = some name ∧ resolve F start elems = lookupIn F d name := by
  rcases List.eq_nil_or_concat elems with rfl | ⟨before, last, rfl⟩
  · exact ⟨iff_of_true rfl (Or.inl rfl), fun d name he => by cases he⟩
  · rw [List.concat_eq_append, walk_true, List.dropLast_concat, resolve_concat]
    cases hr : resolve F start before with
    | none => exact ⟨iff_of_true rfl (Or.inr fun d he => by cases he), fun d name he => by cases he⟩
    | some d =>
      simp only [Option.bind_some]
      by_cases hd : isDirIn F d
      · rw [if_pos hd]
        refine ⟨iff_of_false (by simp) ?_, fun d' name he => ?_⟩
        · rintro (he | hn)
          · exact absurd he (by simp)
          · exact hn d rfl hd
        · cases he
          exact ⟨rfl, hd, List.getLast?_concat, rfl⟩
      · rw [if_neg hd]
        refine ⟨iff_of_true rfl (Or.inr fun d' he => ?_), fun d' name he => by cases he⟩
        cases he
        exact hd

/-- On a tree of directories: the elements of a path are its runs, `namei` is the fold of `dirlookup` over them, it
fails exactly at an element that is looked for in vain, and `nameiparent` stops before the last one. -/
theorem path_resolution (h : Sound True none s 0 0) {p : Slot} {c : ℕ} (hc : s.cwd p = some c) (path : Path) :
    pathElems path = (runs path).map (List.take DIRSIZ) ∧
    (∀ path' : Path, path'.head? = path.head? → runs path' = runs path → namei s p path' = namei s p path) ∧
    (Sat (namei s p path) (CacheFull s) fun r => file r.2.fs = file s.fs ∧
      r.1 = resolve (file s.fs) (startOf c path) (pathElems path) ∧
      (r.1 = none ↔ ∃ before name after d, pathElems path = before ++ name :: after ∧
        resolve (file s.fs) (startOf c path) before = some d ∧ (¬isDirIn (file s.fs) d ∨
          ∃ f, file s.fs d = some f ∧ binding (entriesOf f.bytes) (chars DIRSIZ name) = none))) ∧
    Sat (nameiparent s p path) (CacheFull s) fun r => file r.2.fs = file s.fs ∧
      (r.1 = none ↔ pathElems path = [] ∨
        ∀ d, resolve (file s.fs) (startOf c path) (pathElems path).dropLast = some d → ¬isDirIn (file s.fs) d) ∧
      ∀ d name, r.1 = some (d, name) → resolve (file s.fs) (startOf c path) (pathElems path).dropLast = some d ∧
        (pathElems path).getLast? = some name ∧
        resolve (file s.fs) (startOf c path) (pathElems path) = lookupIn (file s.fs) d name := by
  refine ⟨pathElems_eq path, fun path' hhead hruns => ?_, ?_, ?_⟩
  · rw [namei, namei, namex, namex, hhead, pathElems_eq, pathElems_eq, hruns]
  · apply (h.namex_eq hc path false).bind
    rintro ⟨r, t⟩ ⟨hr, hf⟩
    simp only at hr
    have hres : r.map Prod.fst = resolve (file s.fs) (startOf c path) (pathElems path) := by
      rw [hr, walk_false]
    refine ⟨hf, hres, ?_⟩
    simp only [hres, resolve_eq_none, lookupIn_eq_none]
  · apply (h.namex_eq hc path true).post
    rintro ⟨r, t⟩ ⟨hr, hf⟩
    simp only at hr
    obtain ⟨hnone, hsome⟩ := walk_parent (file s.fs) (startOf c path) (pathElems path)
    refine ⟨hf, by rw [hr]; exact hnone, fun d name he => ?_⟩
    rw [hr] at he
    obtain ⟨h1, -, h2, h3⟩ := hsome d name he
    exact ⟨h1, h2, h3⟩

/-- "//a/" after `mkdir("/a")`. -/
theorem path_resolution_slashes : ∃ t, Sound True none t 0 0 ∧ t.cwd firstUser = some ROOTINO ∧
    pathElems [slash, slash, 97, slash] = [[97]] ∧ resolve (file t.fs) ROOTINO [[97]] = some 2 ∧
    Sat (namei t firstUser [slash, slash, 97, slash]) (fun _ => False) fun r => r.1 = some 2 := by
  have h : (Transition.exec sysStep (boot firstUser rootImage) [.mkdir firstUser (some pathA)]).map (fun t =>
      decide (t.cwd firstUser = some ROOTINO ∧ (cached t.fs).length + 2 ≤ NINODE ∧
        resolve (file t.fs) ROOTINO [[97]] = some 2)) = some true := by
    decide +kernel
  have hcond : Along (Steps sysStep) (fun s e => roomy s e = true ∧ (True → orderly s e = true))
      (boot firstUser rootImage) [.mkdir firstUser (some pathA)] := by
    decide +kernel
  obtain ⟨t, ht, hd⟩ := Option.map_eq_some_iff.mp h
  obtain ⟨hcwd, hroom, hres⟩ := of_decide_eq_true hd
  have hs := run_sound (rootImage_tree True) (run_of_exec ht) hcond
  obtain ⟨helems, -, hname, -⟩ := path_resolution hs hcwd [slash, slash, 97, slash]
  have hone : pathElems [slash, slash, 97, slash] = [[97]] := by
    rw [helems]
    decide +kernel
  refine ⟨t, hs, hcwd, hone, hres, hname.mono (fun e he => ?_) fun r hr => ?_⟩
  · have := he.2
    omega
  · rw [hr.2.1, hone]
    exact hres

end Xv6.SysFile
