import Xv6.CallSteps

namespace Xv6.SysFile

open Contract FileTable OpenFiles ProcTable LinkGraph PointerCount Transition
open Fs hiding Slot

def named (f : Fs.File) (i : ℕ) : ℕ :=
  ((entriesOf f.bytes).filter fun de => de.inum ≠ 0 ∧ de.inum = i ∧ namecmp de.name dot ≠ 0).length

def linkCount (fs : State) (i : ℕ) : ℕ := ∑ d ∈ Finset.range fs.sb.ninodes,
  match file fs d with
  | some f => if f.type = .dir ∧ 0 < f.nlink.toInt then named f i else 0
  | none => 0

def Counted (fs : State) : Prop := ∀ i f, file fs i = some f → f.nlink.toInt = linkCount fs i

def TreeImage (σ : Prop) (fs : State) : Prop := WellFormed fs ∧ Tidy σ fs.sb.ninodes none (file fs)

variable {σ : Prop} {s t : Sys} {init : Slot} {fs : State} {es : List Event}

theorem namecmp_dot (name : List UInt8) : namecmp name dot ≠ 0 ↔ chars DIRSIZ name ≠ dot := by
  rw [namecmp, ne_eq, strncmp_eq_zero]
  rfl

theorem count_liveInums {i : ℕ} (hi : i ≠ 0) {ds : List Dirent} (h : ∀ de ∈ ds, de.inum ≠ 0 →
    chars DIRSIZ de.name ≠ dot) :
    (ds.filter fun de => decide (de.inum ≠ 0 ∧ de.inum = i ∧ namecmp de.name dot ≠ 0)).length =
    (liveInums ds).count i := by
  induction ds with
  | nil => rfl
  | cons de ds ih =>
    have hde := h de List.mem_cons_self
    rw [liveInums_cons, Multiset.count_add, ← ih fun e he => h e (List.mem_cons_of_mem de he), List.filter_cons]
    simp only [namecmp_dot]
    by_cases he : de.inum = i
    · subst he
      rw [if_pos (by simpa [hi] using hde hi), if_pos hi, List.length_cons, Multiset.count_singleton_self]
      omega
    · rw [if_neg (by simp [he])]
      split_ifs with h0
      · simp [Ne.symm he]
      · simp

theorem named_eq {d i : ℕ} {f : Fs.File} (hd : f.type = .dir) (hs : DirShape d (entriesOf f.bytes)) (hi : i ≠ 0) :
    named f i = (if (nodeOf f).parent = i then 1 else 0) + (nodeOf f).kids.count i := by
  rw [nodeOf_dir hd, named]
  obtain ⟨a, b, rest, he, -, ha, hb, hbn, hrest⟩ := hs.dots
  have hdots : chars DIRSIZ b.name ≠ dot := by
    rw [hbn]
    decide
  simp only [he, kidsOf, parentOf, List.drop_succ_cons, List.drop_zero, List.getD_cons_succ, List.getD_cons_zero]
  rw [← count_liveInums hi fun de hde h0 => (hrest de hde h0).1, List.filter_cons, List.filter_cons,
    if_neg (by simp [namecmp_dot, ha])]
  split_ifs with h1 h2 h2
  · rw [List.length_cons]
    omega
  · simp only [decide_eq_true_eq] at h1
    exact absurd h1.2.1 h2
  · exact absurd (by simp [namecmp_dot, hdots, h2, hi]) h1
  · omega

theorem linkCount_eq {x : Option ℕ} {i : ℕ} (h : Tidy σ fs.sb.ninodes x (file fs)) (hi : i ≠ 0) :
    linkCount fs i = links (Finset.range fs.sb.ninodes) (graph (file fs)) i := by
  apply Finset.sum_congr rfl
  intro d _
  cases hf : file fs d with
  | none =>
    rw [graph, hf]
    rfl
  | some f =>
    rw [graph_of_some hf]
    simp only
    by_cases hl : f.type = .dir ∧ 0 < f.nlink.toInt
    · rw [if_pos hl, out_of_live (Tidy.live hl.1 hl.2), named_eq hl.1 (h.dirs d f hf hl.1).2 hi]
    · rw [if_neg hl, out_of_not_live]
      rintro ⟨hdir, hpos⟩
      rw [nodeOf_nlink] at hpos
      by_cases hd : f.type = .dir
      · exact hl ⟨hd, hpos⟩
      · rw [nodeOf_plain hd] at hdir
        cases hdir

theorem Sound.counted {mine locked : Multiset ℕ} (h : Sound σ none s mine locked) : Counted s.fs := by
  intro i f hf
  rw [linkCount_eq h.tidy (h.tidy.ne_zero hf), h.tidy.nlink_eq hf]
  simp [extra]

theorem boot_file (init : Slot) (h : WellFormed fs) : Inv (boot init fs).fs ∧ file (boot init fs).fs = file fs := by
  have hcold : fs.valid = fun _ => false := funext h.cold
  have hfs : (boot init fs).fs = { fs with ref := Function.update (fun _ => 0) ROOTINO 1 } := by
    simp only [boot, ← hcold]
  obtain ⟨hinv, hfiles⟩ := h.inv.setRef (Function.update (fun _ => 0) ROOTINO 1)
  rw [hfs]
  exact ⟨hinv, funext hfiles⟩

theorem boot_sound (h : TreeImage σ fs) : Sound σ none (boot init fs) 0 0 := by
  obtain ⟨hinv, hfile⟩ := boot_file init h.1
  have hroot : file fs ROOTINO ≠ none := by
    obtain ⟨n, hn, -⟩ := h.2.tree.top
    intro he
    exact hn.ne_none (by rw [graph, he]; rfl)
  refine ⟨⟨⟨_, (boot_settled init fs).balance⟩, hinv, rfl, rfl, rfl, fun i hi => ?_, fun i hi => ?_⟩, ?_,
    fun i hi => ?_, fun _ i hi => ?_⟩
  · exact absurd hi (Multiset.notMem_zero i)
  · exact absurd hi (Multiset.notMem_zero i)
  · rw [hfile]
    exact h.2
  · rw [hfile]
    have hr : (boot init fs).fs.ref i = pointers (boot init fs) i := (boot_settled init fs).refs i
    by_cases he : i = ROOTINO
    · rwa [he]
    · have hz : (boot init fs).fs.ref i = 0 := by simp [boot, Function.update_of_ne he]
      omega
  · exact absurd hi (Multiset.notMem_zero i)

theorem run_sound (h : TreeImage σ fs) (hrun : Run (Steps sysStep) (boot init fs) es t)
    (hroom : Along (Steps sysStep) (fun s e => roomy s e = true ∧ (σ → orderly s e = true)) (boot init fs) es) :
    Sound σ none t 0 0 := by
  apply hrun.invariant _ hroom (boot_sound h)
  intro s e t hs hc hstep
  exact (hs.step hc.1 hc.2 hstep).of_ok rfl

def emptyRoot (sb : Superblock) : State where
  sb := sb
  bitmap b := decide (b < sb.nmeta + 1)
  dinode i :=
    if i = ROOTINO then ⟨.dir, 0, 0, 1, 32, fun k => if k = 0 then sb.nmeta else 0⟩
    else ⟨.free, 0, 0, 0, 0, fun _ => 0⟩
  data b := if b = sb.nmeta then fun k => rootEntries.getD k 0 else ByteMemory.zero
  inode _ := ⟨.free, 0, 0, 0, 0, fun _ => 0⟩
  valid _ := false
  ref _ := 0

theorem rootImage_eq : rootImage = emptyRoot ⟨64, 32, 16⟩ := rfl

section EmptyRoot

variable {sb : Superblock}

theorem emptyRoot_dinode : (emptyRoot sb).dinode ROOTINO = ⟨.dir, 0, 0, 1, 32, fun k => if k =
    0 then sb.nmeta else 0⟩ := by
  simp only [emptyRoot, if_pos]

theorem emptyRoot_blk (bn : ℕ) :
    blk (emptyRoot sb).data ((emptyRoot sb).dinode ROOTINO) bn = if bn = 0 then sb.nmeta else 0 := by
  by_cases hbn : bn = 0
  · subst hbn
    simp [blk, emptyRoot, NDIRECT]
  · simp [blk, emptyRoot, hbn, NDIRECT]

theorem emptyRoot_slots (hm : 0 < sb.nmeta) (q : Fs.Slot) :
    diskRef (emptyRoot sb) q = if q = .block ROOTINO 0 then some sb.nmeta else none := by
  have hcur (i : ℕ) : cur { emptyRoot sb with valid := fun _ => false } i = (emptyRoot sb).dinode i := by simp [cur]
  simp only [diskRef, slotRef, slotNumber, hcur]
  by_cases hi : q.inum = ROOTINO
  · cases q with
    | indirect j =>
      simp only [Slot.inum] at hi
      subst hi
      rfl
    | block j bn =>
      simp only [Slot.inum] at hi
      subst hi
      by_cases hbn : bn = 0
      · subst hbn
        have htype : ((emptyRoot sb).dinode ROOTINO).type ≠ .free := by
          rw [emptyRoot_dinode]
          rintro ⟨⟩
        have hmax : 0 < MAXFILE := by decide
        simp [Slot.inum, Slot.number, emptyRoot_blk, htype, hmax, hm.ne']
      · simp [Slot.inum, Slot.number, emptyRoot_blk, hbn]
  · have hq : q ≠ .block ROOTINO 0 := by
      rintro rfl
      exact hi rfl
    simp [emptyRoot, hi, hq]

theorem emptyRoot_wellFormed (hm : 0 < sb.nmeta) (hlt : sb.nmeta < sb.size) (hsize : sb.size ≤ 2 ^ 32) :
    WellFormed (emptyRoot sb) where
  cold _ := rfl
  room := hm
  small := hsize
  data q b hq := by
    rw [emptyRoot_slots hm] at hq
    split_ifs at hq
    cases hq
    exact ⟨le_refl _, hlt⟩
  once q r b hq hr := by
    rw [emptyRoot_slots hm] at hq hr
    split_ifs at hq hr with h1 h2
    rw [h1, h2]
  bits b hb := by
    have hslot : (∃ q, diskRef (emptyRoot sb) q = some b) ↔ b = sb.nmeta := by
      simp only [emptyRoot_slots hm]
      constructor
      · rintro ⟨q, hq⟩
        split_ifs at hq
        exact (Option.some.inj hq).symm
      · rintro rfl
        exact ⟨.block ROOTINO 0, if_pos rfl⟩
    rw [hslot]
    simp only [emptyRoot, decide_eq_true_eq]
    omega
  filled i hi := by
    by_cases he : i = ROOTINO
    · subst he
      have hblocks : blocksOf ((emptyRoot sb).dinode ROOTINO).size = 1 := by
        rw [emptyRoot_dinode]
        exact (by decide : blocksOf 32 = 1)
      rw [hblocks]
      refine ⟨fun bn _ => ?_, by simp [emptyRoot, NDIRECT]⟩
      rw [emptyRoot_blk]
      split_ifs <;> omega
    · simp [emptyRoot, he] at hi
  bound i hi := by
    by_cases he : i = ROOTINO
    · subst he
      rw [emptyRoot_dinode]
      exact (by decide : 32 ≤ MAXFILE * BSIZE)
    · simp [emptyRoot, he] at hi

theorem emptyRoot_file (i : ℕ) :
    file (emptyRoot sb) i = if i = ROOTINO then some ⟨.dir, 0, 0, 1, rootEntries⟩ else none := by
  by_cases he : i = ROOTINO
  · subst he
    have hcur : cur (emptyRoot sb) ROOTINO = (emptyRoot sb).dinode ROOTINO := rfl
    have hbytes : contents (emptyRoot sb) ROOTINO = rootEntries := by
      have hlist : rootEntries = (List.range 32).map fun k => rootEntries.getD k 0 := by decide +kernel
      rw [contents, hcur, hlist, emptyRoot_dinode]
      refine List.map_congr_left fun k hk => ?_
      have hk' : k < 32 := List.mem_range.mp hk
      have hblock : k / BSIZE = 0 := Nat.div_eq_of_lt (by simp only [BSIZE]; omega)
      have hpos : k % BSIZE = k := Nat.mod_eq_of_lt (by simp only [BSIZE]; omega)
      rw [fileByte, hcur, hblock, hpos, emptyRoot_blk, if_pos rfl]
      simp only [emptyRoot, if_pos]
    rw [file, hbytes, hcur, emptyRoot_dinode]
    rfl
  · simp [file, cur, emptyRoot, he]

theorem emptyRoot_tree (σ : Prop) (hm : 0 < sb.nmeta) (hlt : sb.nmeta < sb.size) (hsize : sb.size ≤ 2 ^ 32)
    (hn : ROOTINO < sb.ninodes) (hfits : sb.ninodes ≤ 65536) : TreeImage σ (emptyRoot sb) := by
  have hentries : entriesOf rootEntries = [⟨ROOTINO, strncpy dot DIRSIZ⟩, ⟨ROOTINO, strncpy dotdot DIRSIZ⟩] := by
    decide +kernel
  have hgraph : graph (file (emptyRoot sb)) = fun i => if i = ROOTINO then some ⟨true, 1, ROOTINO, 0⟩ else none := by
    funext i
    rw [graph, emptyRoot_file]
    by_cases he : i = ROOTINO
    · rw [if_pos he, if_pos he, Option.map_some, nodeOf_dir rfl, hentries]
      rfl
    · rw [if_neg he, if_neg he]
      rfl
  refine ⟨emptyRoot_wellFormed hm hlt hsize, fun d f hf _ => ?_, ?_, fun _ => ?_, rfl, hfits⟩
  · rw [emptyRoot_file] at hf
    split_ifs at hf with hd
    cases hf
    subst hd
    refine ⟨rfl, ?_⟩
    rw [hentries]
    refine ⟨_, _, [], rfl, rfl, ?_, by decide, ?_, by simp⟩
    · rw [chars_strncpy]
      rfl
    · rw [chars_strncpy]
      rfl
  · rw [hgraph]
    exact Tree.alone (Finset.mem_range.mpr hn)
  · rw [hgraph]
    intro d n hd h0
    simp only [IsDir] at hd
    split_ifs at hd
    · rw [← Option.some.inj hd.1] at h0
      exact absurd Int.one_pos h0
    · cases hd.1

end EmptyRoot

theorem rootImage_tree (σ : Prop) : TreeImage σ rootImage :=
  rootImage_eq ▸ emptyRoot_tree σ (by decide) (by decide) (by decide) (by decide) (by decide)

/-- As long as no call adds an entry to a directory without links or counts beyond the type of `nlink`, the counts are
those of the entries. -/
theorem link_counts (h : TreeImage False fs) (hrun : Run (Steps sysStep) (boot init fs) es t)
    (hroom : Along (Steps sysStep) (fun s e => roomy s e = true) (boot init fs) es) : Counted t.fs := by
  apply Sound.counted (σ := False)
  apply run_sound h hrun
  exact hroom.invariant (I := fun _ => True) (fun _ _ _ _ _ _ => trivial) (fun s e _ he => ⟨he, False.elim⟩) trivial

def firstUser : Slot := ⟨0, NPROC_pos⟩

def pathA : Path := [slash, 97]
def pathAB : Path := [slash, 97, slash, 98]
def pathAX : Path := [slash, 97, slash, 120]
def pathY : Path := [slash, 121]
def pathX : Path := [120]

/-- A file is made, named a second time and unlinked by its first name. -/
theorem link_counts_rename : ∃ t, TreeImage False rootImage ∧
    Run (Steps sysStep) (boot firstUser rootImage) [.mkdir firstUser (some pathA), .open firstUser (some pathAX) 0x202,
      .link firstUser (some pathAX) (some pathY), .unlink firstUser (some pathAX)] t ∧
    (file t.fs 3).map Fs.File.nlink = some 1 ∧ Counted t.fs := by
  have h : (Transition.exec sysStep (boot firstUser rootImage) [.mkdir firstUser (some pathA),
      .open firstUser (some pathAX) 0x202, .link firstUser (some pathAX) (some pathY),
      .unlink firstUser (some pathAX)]).map (fun t => (file t.fs 3).map Fs.File.nlink) = some (some 1) := by
    decide +kernel
  have hroom : Along (Steps sysStep) (fun s e => roomy s e = true) (boot firstUser rootImage)
      [.mkdir firstUser (some pathA), .open firstUser (some pathAX) 0x202, .link firstUser (some pathAX) (some pathY),
        .unlink firstUser (some pathAX)] := by
    decide +kernel
  obtain ⟨t, he, hn⟩ := Option.map_eq_some_iff.mp h
  have hrun := run_of_exec he
  exact ⟨t, rootImage_tree False, hrun, hn, link_counts (rootImage_tree False) hrun hroom⟩

/-- A process creates a file in its current directory, which has been unlinked. -/
theorem unlinked_cwd_miscounted : ¬ ∀ (init : Slot) (fs : State) (es : List Event) (t : Sys), TreeImage False fs →
    Run (Steps sysStep) (boot init fs) es t → Counted t.fs := by
  intro hall
  have h : (Transition.exec sysStep (boot firstUser rootImage) [.mkdir firstUser (some pathA),
      .chdir firstUser (some pathA),
      .unlink firstUser (some pathA), .open firstUser (some pathX) 0x200]).map
      (fun t => ((file t.fs 3).map Fs.File.nlink, linkCount t.fs 3)) = some (some 1, 0) := by
    decide +kernel
  obtain ⟨t, he, hn⟩ := Option.map_eq_some_iff.mp h
  obtain ⟨hfile, hcount⟩ := Prod.mk.inj hn
  obtain ⟨f, hf, hlink⟩ := Option.map_eq_some_iff.mp hfile
  have hc := hall firstUser rootImage _ t (rootImage_tree False) (run_of_exec he) 3 f hf
  rw [hlink, hcount] at hc
  revert hc
  decide

inductive Reached (s : Sys) : ℕ → Prop
  | root : Reached s ROOTINO
  | cwd {p : Slot} {c : ℕ} (h : s.cwd p = some c) : Reached s c
  | entry {d : ℕ} {f : Fs.File} {de : Dirent} (h : Reached s d) (hf : file s.fs d = some f) (hd : f.type = .dir)
      (he : de ∈ entriesOf f.bytes) (h0 : de.inum ≠ 0) : Reached s de.inum

theorem Sound.dinode {mine locked : Multiset ℕ} {i : ℕ} (h : Sound σ none s mine locked) (hi : file s.fs i ≠ none) :
    (s.fs.dinode i).type ≠ .free := by
  intro hfree
  apply hi
  rw [file, h.work.inv.cur_eq, if_pos hfree]

/-- If moreover no directory is removed that is the ".." of a directory removed before, whatever a process can walk to
is there, and no call stops for want of a type. -/
theorem walks_typed (h : TreeImage True fs) (hrun : Run (Steps sysStep) (boot init fs) es t)
    (hcond : Along (Steps sysStep) (fun s e => roomy s e = true ∧ orderly s e = true) (boot init fs) es) :
    (∀ d f de, Reached t d → file t.fs d = some f → f.type = .dir → de ∈ entriesOf f.bytes → de.inum ≠ 0 →
      (t.fs.dinode de.inum).type ≠ .free) ∧
    ∀ e, roomy t e = true → orderly t e = true → sysStep t e ≠ some (.error "ilock: no type") := by
  have hs : Sound True none t 0 0 := by
    apply run_sound h hrun
    exact hcond.invariant (I := fun _ => True) (fun _ _ _ _ _ _ => trivial)
        (fun s e _ he => ⟨he.1, fun _ => he.2⟩) trivial
  constructor
  · intro d f de _ hf hd he h0
    exact hs.dinode (hs.tidy.named trivial hf hd he h0)
  · intro e hr ho hstop
    exact (hs.step hr (fun _ => ho) hstop).of_error rfl trivial rfl

/-- A directory is removed while it is the current directory, and the one above it is not. -/
theorem walks_typed_removed : ∃ t, TreeImage True rootImage ∧
    Run (Steps sysStep) (boot firstUser rootImage) [.mkdir firstUser (some pathA), .mkdir firstUser (some pathAB),
      .chdir firstUser (some pathAB), .unlink firstUser (some pathAB)] t ∧ t.cwd firstUser = some 3 ∧
    (file t.fs 3).map Fs.File.nlink = some 0 ∧
    sysStep t (.chdir firstUser (some dotdot)) ≠ some (.error "ilock: no type") := by
  have h : (Transition.exec sysStep (boot firstUser rootImage) [.mkdir firstUser (some pathA),
      .mkdir firstUser (some pathAB), .chdir firstUser (some pathAB), .unlink firstUser (some pathAB)]).map
      (fun t => (t.cwd firstUser, (file t.fs 3).map Fs.File.nlink)) = some (some 3, some 0) := by
    decide +kernel
  have hcond : Along (Steps sysStep) (fun s e => roomy s e = true ∧ orderly s e = true) (boot firstUser rootImage)
      [.mkdir firstUser (some pathA), .mkdir firstUser (some pathAB), .chdir firstUser (some pathAB),
        .unlink firstUser (some pathAB)] := by
    decide +kernel
  obtain ⟨t, he, hn⟩ := Option.map_eq_some_iff.mp h
  obtain ⟨hcwd, hlink⟩ := Prod.mk.inj hn
  have hrun := run_of_exec he
  exact ⟨t, rootImage_tree True, hrun, hcwd, hlink, (walks_typed (rootImage_tree True) hrun hcond).2 _ rfl rfl⟩

/-- The current directory and then the directory above it are removed, and the process walks up. -/
theorem removed_parent_walked :
    (¬ ∀ (init : Slot) (fs : State) (es : List Event) (t : Sys), TreeImage True fs →
      Run (Steps sysStep) (boot init fs) es t → ∀ d f de, Reached t d → file t.fs d = some f → f.type = .dir →
        de ∈ entriesOf f.bytes → de.inum ≠ 0 → (t.fs.dinode de.inum).type ≠ .free) ∧
    ¬ ∀ (init : Slot) (fs : State) (es : List Event) (t : Sys), TreeImage True fs →
      Run (Steps sysStep) (boot init fs) es t → ∀ e, sysStep t e ≠ some (.error "ilock: no type") := by
  have h : (Transition.exec sysStep (boot firstUser rootImage) [.mkdir firstUser (some pathA),
      .mkdir firstUser (some pathAB), .chdir firstUser (some pathAB), .unlink firstUser (some pathAB),
      .unlink firstUser (some pathA)]).map (fun t => (t.cwd firstUser,
        (file t.fs 3).map (fun f => (f.type, (entriesOf f.bytes)[1]?.map Dirent.inum)), (t.fs.dinode 2).type,
        stopped (sysStep t (.chdir firstUser (some dotdot))))) =
      some (some 3, some (.dir, some 2), .free, some "ilock: no type") := by
    decide +kernel
  obtain ⟨t, he, hn⟩ := Option.map_eq_some_iff.mp h
  simp only [Prod.mk.injEq, Option.map_eq_some_iff] at hn
  obtain ⟨hcwd, ⟨f, hf, hd, de, hget, hi⟩, hfree, hstop⟩ := hn
  have hrun := run_of_exec he
  constructor
  · intro hall
    apply hall firstUser rootImage _ t (rootImage_tree True) hrun 3 f de (.cwd hcwd) hf hd (List.mem_of_getElem? hget)
    · rw [hi]
      decide
    · rw [hi]
      exact hfree
  · intro hall
    exact hall firstUser rootImage _ t (rootImage_tree True) hrun _ (stopped_eq_some.mp hstop)

/-- After any calls that keep the counts, a directory with a link is named once, in the directory that its ".." names,
and the root is named nowhere. -/
theorem directory_tree (h : TreeImage False fs) (hrun : Run (Steps sysStep) (boot init fs) es t)
    (hroom : Along (Steps sysStep) (fun s e => roomy s e = true) (boot init fs) es) :
    (∀ d f, file t.fs d = some f → f.type = .dir → DirShape d (entriesOf f.bytes) ∧
      ROOTINO ∉ kidsOf (entriesOf f.bytes)) ∧
    ∀ c g, file t.fs c = some g → g.type = .dir → 0 < g.nlink.toInt → c ≠ ROOTINO →
      (∃ f, file t.fs (parentOf (entriesOf g.bytes)) = some f ∧ f.type = .dir ∧
        (kidsOf (entriesOf f.bytes)).count c = 1) ∧
      ∀ d f, file t.fs d = some f → f.type = .dir → c ∈ kidsOf (entriesOf f.bytes) →
        d = parentOf (entriesOf g.bytes) := by
  have hs : Sound False none t 0 0 := by
    apply run_sound h hrun
    exact hroom.invariant (I := fun _ => True) (fun _ _ _ _ _ _ => trivial) (fun s e _ he => ⟨he, False.elim⟩) trivial
  have htree := hs.tidy.tree
  have honly {d c : ℕ} {f g : Fs.File} (hf : file t.fs d = some f) (hd : f.type = .dir)
      (hc : c ∈ kidsOf (entriesOf f.bytes))
      (hg : file t.fs c = some g) (hgd : g.type = .dir) :
      parentOf (entriesOf g.bytes) = d ∧ (kidsOf (entriesOf f.bytes)).count c = 1 ∧ c ≠ ROOTINO := by
    have := htree.only d (nodeOf f) c (nodeOf g) (isDir_graph.mpr ⟨f, hf, hd, rfl⟩) (by rwa [nodeOf_dir hd])
      (isDir_graph.mpr ⟨g, hg, hgd, rfl⟩)
    rwa [nodeOf_dir hd, nodeOf_dir hgd] at this
  refine ⟨fun d f hf hd => ⟨(hs.tidy.dirs d f hf hd).2, fun hroot => ?_⟩,
      fun c g hg hgd hl hne => ⟨?_, fun d f hf hd hc => ?_⟩⟩
  · obtain ⟨n, hn, -⟩ := htree.top
    obtain ⟨g, hg, hgd, -⟩ := isDir_graph.mp hn
    exact (honly hf hd hroot hg hgd).2.2 rfl
  · obtain ⟨m, hm, hc⟩ := htree.home c (nodeOf g) (isDir_graph.mpr ⟨g, hg, hgd, rfl⟩) (by rwa [nodeOf_nlink]) hne
    obtain ⟨f, hf, hd, rfl⟩ := isDir_graph.mp hm
    rw [nodeOf_dir hgd] at hf
    rw [nodeOf_dir hd] at hc
    exact ⟨f, hf, hd, (honly hf hd hc hg hgd).2.1⟩
  · exact (honly hf hd hc hg hgd).1.symm

theorem directory_tree_mkdir : ∃ t, Run (Steps sysStep) (boot firstUser rootImage) [.mkdir firstUser (some pathA)] t ∧
    ∀ d f, file t.fs d = some f → f.type = .dir → ROOTINO ∉ kidsOf (entriesOf f.bytes) := by
  have h : (Transition.exec sysStep (boot firstUser rootImage) [.mkdir firstUser (some pathA)]).isSome = true := by
    decide +kernel
  obtain ⟨t, ht⟩ := Option.isSome_iff_exists.mp h
  have hroom : Along (Steps sysStep) (fun s e => roomy s e = true) (boot firstUser rootImage)
      [.mkdir firstUser (some pathA)] := by
    decide +kernel
  have hrun := run_of_exec ht
  exact ⟨t, hrun, fun d f hf hd => ((directory_tree (rootImage_tree False) hrun hroom).1 d f hf hd).2⟩

end Xv6.SysFile
