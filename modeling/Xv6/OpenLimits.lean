import Xv6.CreateRoom

/-!
The limits on open files and processes against the size of the inode cache.
-/

namespace Xv6.SysFile

open Contract FileTable OpenFiles ProcTable LinkGraph Transition
open Fs hiding Slot
open PointerCount hiding hit

def fitsOpen (F : Files) (N : ℕ) (P : ℕ → ℕ) (path : Path) (omode start : ℕ) : Prop :=
  if omode &&& O_CREATE ≠ 0 then fitsCreate F N P 0 path start else fitsNamex F N P 0 path false start

def opens (F : Files) (path : Path) (omode start : ℕ) : Prop :=
  if omode &&& O_CREATE ≠ 0 then creates F start path .file
  else ∃ ip, resolve F start (pathElems path) = some ip ∧ (isDirIn F ip → omode = 0)

def hasFile (k : Kernel) : Prop := ∃ f, (k.ft.file f).ref = 0

def hasFd (k : Kernel) (p : Slot) : Prop := ∃ fd, k.ofile (p, fd) = none

def Fits (s : Sys) : Event → Prop
  | .open p (some path) omode => ∀ start, startAt s p path = some start →
      fitsOpen (file s.fs) s.fs.sb.ninodes (pointers s) path omode start
  | .chdir p (some path) => ∀ start, startAt s p path = some start →
      fitsNamex (file s.fs) s.fs.sb.ninodes (pointers s) 0 path false start
  | _ => True

def Servable (s : Sys) : Event → Prop
  | .open p path omode => hasFile s.kernel ∧ hasFd s.kernel p ∧
      ∃ q start, path = some q ∧ startAt s p q = some start ∧ opens (file s.fs) q omode start
  | .chdir p path => ∃ q start ip, path = some q ∧ startAt s p q = some start ∧
      resolve (file s.fs) start (pathElems q) = some ip ∧ isDirIn (file s.fs) ip
  | .close p fd => argfd s.kernel p fd ≠ none
  | .fork _ kstack copied => kstack = true ∧ copied = true ∧ ∃ q, s.kernel.state q = .unused
  | _ => True

def Protected (s : Sys) : Event → Prop
  | .open p path omode => Sat (sysOpen s p path omode) (· ≠ noInodes) fun r => ¬Servable s (.open p path omode) →
    r.1 = -1
  | .chdir p path => Sat (sysChdir s p path) (· ≠ noInodes) fun r => ¬Servable s (.chdir p path) → r.1 = -1
  | .close p fd => Sat (sysClose s p fd) (· ≠ noInodes) fun r => ¬Servable s (.close p fd) → r.1 = -1
  | .fork p kstack copied => Sat (fork s p kstack copied) (· ≠ noInodes) fun t => ¬Servable s (.fork p kstack copied) →
    t = s
  | _ => True

def Event.limited : Event → Bool
  | .open .. | .chdir .. | .fork .. | .close .. => true
  | _ => false

variable {s t : Sys} {F : Files} {N : ℕ} {P : ℕ → ℕ} {mine locked : Multiset ℕ} {i ip start : ℕ} {f : Fs.File}
  {p : Slot} {path : Path} {omode : ℕ}

theorem notCreated_ne {type : FType} {e : String} (h : NotCreated s F N type start path e) : e ≠ noInodes := by
  rcases h with ⟨rfl, -⟩ | ⟨rfl, -⟩ | ⟨rfl, -⟩
  · decide
  · decide
  · decide

theorem namex_lost (h : startAt s p path = none) (parent : Bool) :
    namex s p path parent = .error "no current directory" := by
  rw [startAt] at h
  rw [namex]
  split_ifs at h ⊢
  rw [h]

namespace Work

theorem namei_room (h : Work s F N P mine 0) (hW : Walkable F P) (hst : startAt s p path = some start) :
    Guarded (SysFile.namei s p path) (fitsNamex F N P mine path false start) noInodes (fun _ => False) fun r =>
      r.1 = resolve F start (pathElems path) ∧ Work r.2 F N P (holding r.1 mine) 0 ∧ Still s r.2 ∧
      ∀ ip, r.1 = some ip → F ip ≠ none ∧ Kept F P ip := by
  obtain ⟨hstart, hk⟩ := h.start_kept hW hst
  apply (h.namex_room hW hst false).bind_sat
  rintro ⟨r, t⟩ ⟨hr, hw, hs⟩
  simp only at hr hw hs
  refine ⟨by rw [hr, walk_false], hw, hs, ?_⟩
  rintro ip hip
  obtain ⟨q, hq, rfl⟩ := Option.map_eq_some_iff.mp hip
  exact hW.walk hstart hk (hr.symm.trans hq)

structure Opened (s t : Sys) (F : Files) (N : ℕ) (P : ℕ → ℕ) (path : Path) (omode start : ℕ) (r : Option ℕ) : Prop where
  kernel : t.kernel = s.kernel
  answer : r = none ↔ ¬opens F path omode start
  work : ∃ F', Work t F' N P (holding r 0) (holding r 0) ∧ (LiveDirs F → LiveDirs F')

theorem openInode_room (h : Work s F N P 0 0) (hW : Walkable F P) (hN : N ≤ 65536) (hst : startAt s p path = some start)
    (omode : ℕ) : Guarded (SysFile.openInode s p path omode) (fitsOpen F N P path omode start) noInodes (· ≠ noInodes)
      fun r => Opened s r.2 F N P path omode start r.1 := by
  rw [SysFile.openInode, fitsOpen]
  by_cases hc : omode &&& O_CREATE ≠ 0
  · rw [if_pos hc, if_pos hc]
    have ha : ∀ i ∈ (0 : Multiset ℕ), F i ≠ none := fun i hi => absurd hi (Multiset.notMem_zero i)
    apply (h.create_room hW ha hN hst (by decide : FType.file ≠ .free) 0 0).mono (fun _ he => notCreated_ne he)
    rintro ⟨r, t⟩ hr
    obtain ⟨F', hw, hl⟩ := hr.work
    refine ⟨hr.kernel, ?_, F', hw, hl (by decide)⟩
    rw [hr.answer, opens, if_pos hc]
  · rw [if_neg hc, if_neg hc]
    apply Guarded.bind_sat ((h.namei_room hW hst).mono (fun _ he => he.elim) fun _ hq => hq)
    rintro ⟨r, t⟩ ⟨hr, hw, hs, hkept⟩
    simp only at hr hw hs hkept
    have hopens : opens F path omode start ↔ ∃ ip, r = some ip ∧ (isDirIn F ip → omode = 0) := by
      rw [opens, if_neg hc, hr]
    cases r with
    | none =>
      refine ⟨hs.kernel, iff_of_true rfl ?_, F, hw, id⟩
      rw [hopens]
      rintro ⟨ip, ⟨⟩, -⟩
    | some ip =>
      obtain ⟨hne, hk⟩ := hkept ip rfl
      obtain ⟨f, hf⟩ := Option.ne_none_iff_exists'.mp hne
      have hw' : Work t F N P (ip ::ₘ 0) 0 := hw
      obtain ⟨t1, ht1, hw1, htype, hs1⟩ := hw'.ilock_still (Multiset.mem_cons_self ip 0) (Multiset.notMem_zero ip) hf
      simp only [Option.some.injEq, exists_eq_left', isDirIn_iff hf] at hopens
      simp only [ht1, Outcome.ok_bind, htype]
      apply sat_ite
      · rintro ⟨hd, h0⟩
        obtain ⟨t2, ht2, hw2, hs2⟩ := hw1.giveUp_still (α := ℕ) hk
        rw [ht2]
        refine ⟨((hs.trans hs1).trans hs2).kernel, iff_of_true rfl ?_, F, hw2, id⟩
        rw [hopens]
        exact fun h => h0 (h hd)
      · intro hno
        refine ⟨(hs.trans hs1).kernel, iff_of_false (by simp) (not_not.mpr ?_), F, hw1, id⟩
        rw [hopens]
        intro hd
        by_contra h0
        exact hno ⟨hd, h0⟩

theorem table (h : Work s F N P mine locked) {ft : Ftable} (hm : Moved s.kernel.ft ft none) :
    Work (setKernel s (setTable s.kernel ft)) F N P mine locked := by
  obtain ⟨n, hb⟩ := h.balance
  refine ⟨⟨n, hb.table hm⟩, h.inv, h.files, h.ninodes, ?_, h.valid, h.locks⟩
  rw [← h.ptrs]
  funext i
  have := hm.2 i
  rw [hit_none] at this
  simp only [pointers, setKernel, setTable]
  omega

theorem kernel (h : Work s F N P mine locked) {k : Kernel} (hf : k.ft = s.kernel.ft) (hs : k.state = s.kernel.state) :
    Work (setKernel s k) F N P mine locked := by
  obtain ⟨n, hb⟩ := h.balance
  refine ⟨⟨n, hb.kernel hf (by rw [hs]; exact hb.idle)⟩, h.inv, h.files, h.ninodes, ?_, h.valid, h.locks⟩
  rw [← h.ptrs]
  funext i
  simp only [pointers, setKernel, hf]

theorem openFd_ok (h : Work s F N P (ip ::ₘ 0) (ip ::ₘ 0)) (p : Slot) (omode : ℕ) :
    ∃ r t, SysFile.openFd s p ip omode = .ok (r, t) ∧ (¬(hasFile s.kernel ∧ hasFd s.kernel p) → r = -1) ∧
      t.cwd = s.cwd ∧ (LiveDirs F → LiveDirs (file t.fs)) := by
  obtain ⟨n, hb⟩ := h.balance
  simp only [SysFile.openFd]
  cases ha : filealloc s.kernel.ft with
  | none =>
    obtain ⟨t, ht, -, hc, hl⟩ := h.putFinish_ok (-1 : ℤ)
    exact ⟨-1, t, ht, fun _ => rfl, hc, hl⟩
  | some r =>
    obtain ⟨f, ft⟩ := r
    obtain ⟨hm, htype, href⟩ := filealloc_moved hb.closed ha
    have hfile : hasFile s.kernel := by
      rw [filealloc] at ha
      cases hf : (List.finRange NFILE).find? (fun f => (s.kernel.ft.file f).ref = 0) with
      | none =>
        rw [hf] at ha
        cases ha
      | some g => exact ⟨g, by simpa using List.find?_some hf⟩
    have h1 := h.table hm
    simp only [fdalloc]
    cases hfd : (List.finRange NOFILE).find? fun fd =>
        decide ((setKernel s (setTable s.kernel ft)).kernel.ofile (p, fd) = none) with
    | none =>
      obtain ⟨ft', hclose⟩ := At.fileclose_fresh htype href
      have hm' := (fileclose_moved hm.1 f).of_ok hclose
      have hstep : SysFile.fileclose (setKernel s (setTable s.kernel ft)) f =
          .ok (setKernel s (setTable s.kernel ft')) := by
        rw [SysFile.fileclose]
        simp only [setKernel, setTable, hclose]
        rfl
      have h2 : Work (setKernel s (setTable s.kernel ft')) F N P (ip ::ₘ 0) (ip ::ₘ 0) := h1.table hm'
      obtain ⟨t, ht, -, hc, hl⟩ := h2.putFinish_ok (-1 : ℤ)
      simp only [hstep]
      exact ⟨-1, t, ht, fun _ => rfl, hc, hl⟩
    | some fd =>
      have hfree := List.find?_some hfd
      have hslot : hasFd s.kernel p := ⟨fd, of_decide_eq_true hfree⟩
      have h2 := h1.kernel (k := setSlot (setTable s.kernel ft) (p, fd) (some f)) rfl rfl
      obtain ⟨t, ht, hw, hs⟩ := h2.iunlock_still
      simp only [setKernel] at ht ⊢
      simp only [ht, Outcome.ok_bind]
      refine ⟨_, _, rfl, fun hn => absurd ⟨hfile, hslot⟩ hn, hs.cwd, fun hl => ?_⟩
      rw [← hw.files] at hl
      exact hl

theorem iput_any (h : Work s F N P mine 0) (i : ℕ) (E : String → Prop) :
    Sat (SysFile.iput s i) E fun t => LiveDirs F → LiveDirs (file t.fs) := by
  obtain ⟨n, hb⟩ := h.balance
  have hfree : ¬s.held i = true := fun hh => Multiset.notMem_zero i (hb.mem_locked.mpr hh)
  obtain ⟨fs, he, -, -, -, -, hcase⟩ := iput_spec h.inv i
  rw [SysFile.iput, if_neg hfree, he, ← h.files]
  intro hl d f hf hd
  rcases hcase with ⟨hsame, -⟩ | ⟨hothers, hgone, -⟩
  · exact hl d f ((hsame d).symm.trans hf) hd
  · by_cases hi : d = i
    · subst hi
      cases hgone.symm.trans hf
    · exact hl d f ((hothers d hi).symm.trans hf) hd

end Work

namespace Sound

theorem sysOpen_room (h : Sound True none s 0 0) (p : Slot) (path : Option Path) (omode : ℕ) :
    Guarded (SysFile.sysOpen s p path omode) (Fits s (.open p path omode)) noInodes (· ≠ noInodes) fun r =>
      (¬Servable s (.open p path omode) → r.1 = -1) ∧ (LiveDirs (file s.fs) → LiveDirs (file r.2.fs)) := by
  cases path with
  | none => exact Guarded.of_sat ⟨fun _ => rfl, id⟩ trivial
  | some path =>
    cases hst : startAt s p path with
    | none =>
      have hlost (parent : Bool) : SysFile.namex (SysFile.beginOp s) p path parent = .error "no current directory" :=
        namex_lost (s := SysFile.beginOp s) hst parent
      have herr : SysFile.sysOpen s p (some path) omode = .error "no current directory" := by
        simp only [SysFile.sysOpen, SysFile.openInode, SysFile.create, SysFile.createLookup, nameiparent, SysFile.namei,
          hlost]
        split_ifs <;> rfl
      rw [herr]
      apply Guarded.of_sat
      · exact (by decide : "no current directory" ≠ noInodes)
      · intro start hs
        rw [hst] at hs
        cases hs
    | some start =>
      have hfits : Fits s (.open p (some path) omode) ↔
          fitsOpen (file s.fs) s.fs.sb.ninodes (pointers s) path omode start := by simp [Fits, hst]
      have hserve : Servable s (.open p (some path) omode) ↔
          hasFile s.kernel ∧ hasFd s.kernel p ∧ opens (file s.fs) path omode start := by simp [Servable, hst]
      apply Guarded.congr _ hfits
      apply (Work.openInode_room h.beginOp.work h.beginOp.walkable h.tidy.fits hst omode).bind_sat
      rintro ⟨r, t⟩ hr
      obtain ⟨F', hw, hl⟩ := hr.work
      cases r with
      | none =>
        refine ⟨fun _ => rfl, fun hlive => ?_⟩
        rw [← hw.files] at hl
        exact hl hlive
      | some ip =>
        obtain ⟨r, t', ht', hno, -, hl'⟩ := Work.openFd_ok hw p omode
        simp only [ht']
        refine ⟨fun hn => hno ?_, fun hlive => hl' (hl hlive)⟩
        rintro ⟨hfile, hfd⟩
        rw [hr.kernel] at hfile hfd
        have hopens := hr.answer.mpr
        exact hn (hserve.mpr ⟨hfile, hfd, not_not.mp fun hno => by cases hopens hno⟩)

theorem sysChdir_room (h : Sound True none s 0 0) (p : Slot) (path : Option Path) :
    Guarded (SysFile.sysChdir s p path) (Fits s (.chdir p path)) noInodes (· ≠ noInodes) fun r =>
      (¬Servable s (.chdir p path) → r.1 = -1) ∧ (LiveDirs (file s.fs) → LiveDirs (file r.2.fs)) := by
  cases path with
  | none => exact Guarded.of_sat ⟨fun _ => rfl, id⟩ trivial
  | some path =>
    cases hst : startAt s p path with
    | none =>
      have hlost : SysFile.namex (SysFile.beginOp s) p path false = .error "no current directory" :=
        namex_lost (s := SysFile.beginOp s) hst false
      have herr : SysFile.sysChdir s p (some path) = .error "no current directory" := by
        simp only [SysFile.sysChdir, SysFile.namei, hlost]
        rfl
      rw [herr]
      apply Guarded.of_sat
      · exact (by decide : "no current directory" ≠ noInodes)
      · intro start hs
        rw [hst] at hs
        cases hs
    | some start =>
      have hfits : Fits s (.chdir p (some path)) ↔
          fitsNamex (file s.fs) s.fs.sb.ninodes (pointers s) 0 path false start := by simp [Fits, hst]
      apply Guarded.congr _ hfits
      apply Guarded.bind_sat ((Work.namei_room h.beginOp.work h.beginOp.walkable hst).mono (fun _ he => he.elim)
        fun _ hq => hq)
      rintro ⟨r, t⟩ ⟨hr, hw, hs, hkept⟩
      simp only at hr hw hs hkept
      cases r with
      | none =>
        have hfiles : file t.fs = file s.fs := hw.files
        refine ⟨fun _ => rfl, fun hl => ?_⟩
        rw [← hfiles] at hl
        exact hl
      | some ip =>
        obtain ⟨hne, hk⟩ := hkept ip rfl
        obtain ⟨f, hf⟩ := Option.ne_none_iff_exists'.mp hne
        have hw' : Work t _ _ _ (ip ::ₘ 0) 0 := hw
        obtain ⟨t1, ht1, hw1, htype, hs1⟩ := hw'.ilock_still (Multiset.mem_cons_self ip 0) (Multiset.notMem_zero ip) hf
        simp only [ht1, Outcome.ok_bind, htype]
        apply sat_ite
        · intro _
          obtain ⟨t2, ht2, -, -, hl⟩ := hw1.putFinish_ok (-1 : ℤ)
          rw [ht2]
          exact ⟨fun _ => rfl, hl⟩
        · intro hd
          cases t1.cwd p with
          | none => exact (by decide : "no current directory" ≠ noInodes)
          | some c =>
            obtain ⟨t2, ht2, hw2, -⟩ := hw1.iunlock_still
            simp only [ht2, Outcome.ok_bind]
            apply (hw2.iput_any c _).bind
            intro t3 hl
            refine ⟨fun hn => absurd ?_ hn, hl⟩
            exact ⟨path, start, ip, rfl, hst, hr.symm, f, hf, not_not.mp hd⟩

theorem sysClose_room (h : Sound True none s 0 0) (p : Slot) (fd : ℤ) :
    Sat (SysFile.sysClose s p fd) (· ≠ noInodes) fun r =>
      (¬Servable s (.close p fd) → r.1 = -1) ∧ (LiveDirs (file s.fs) → LiveDirs (file r.2.fs)) := by
  obtain ⟨n, hb⟩ := h.work.balance
  simp only [SysFile.sysClose]
  cases hfd : argfd s.kernel p fd with
  | none => exact ⟨fun _ => rfl, id⟩
  | some r =>
    obtain ⟨fd', f⟩ := r
    have hserve : Servable s (.close p fd) := by
      rw [Servable, hfd]
      exact Option.some_ne_none _
    have hk := h.kernel (k := setSlot s.kernel (p, fd') none) rfl h.idle
    obtain ⟨n', hb'⟩ := hk.work.balance
    apply Sat.bind (Q := fun t => LiveDirs (file s.fs) → LiveDirs (file t.fs))
    · apply Sat.bind (((fileclose_panics s.kernel.ft f).and (fileclose_moved hb.closed f)).mono _ fun _ hq => hq)
      · rintro ⟨_ | ip, ft⟩ ⟨-, hm⟩
        · exact id
        · have hmoved : Moved (setSlot s.kernel (p, fd') none).ft ft (some ip) := hm
          apply ((hk.table hmoved).beginOp.work.iput_any ip _).bind
          intro t hl
          exact hl
      · rintro e he rfl
        revert he
        decide
    · intro t hl
      exact ⟨fun hn => absurd hserve hn, hl⟩

theorem fork_room (h : Sound True none s 0 0) (p : Slot) (kstack copied : Bool) :
    Sat (SysFile.fork s p kstack copied) (· ≠ noInodes) fun t =>
      (¬Servable s (.fork p kstack copied) → t = s) ∧ (LiveDirs (file s.fs) → LiveDirs (file t.fs)) := by
  simp only [SysFile.fork]
  cases hnp : (List.finRange NPROC).find? (fun q => decide (s.kernel.state q = .unused)) with
  | none =>
    rw [OpenFiles.fork, hnp]
    exact ⟨fun _ => rfl, id⟩
  | some np =>
    have hunused := List.find?_some hnp
    have hstate : s.kernel.state np = .unused := of_decide_eq_true hunused
    by_cases hfail : kstack = false ∨ copied = false
    · have hback : OpenFiles.fork s.kernel p kstack copied = .ok s.kernel := by
        have hsame : setState (setState s.kernel np .embryo) np .unused = s.kernel := by
          simp only [setState, Function.update_idem, ← hstate, Function.update_eq_self]
        rw [OpenFiles.fork, hnp]
        simp only [hsame]
        rcases hfail with rfl | rfl
        · rfl
        · simp
      rw [hback, Outcome.ok_bind]
      simp only [if_pos hfail]
      exact ⟨fun _ => rfl, id⟩
    · have hserve : Servable s (.fork p kstack copied) := by
        simp only [not_or, Bool.not_eq_false] at hfail
        exact ⟨hfail.1, hfail.2, np, hstate⟩
      apply Sat.bind ((fork_panics s.kernel p kstack copied).mono (by rintro e rfl; decide) fun _ hq => hq)
      intro k _
      simp only [if_neg hfail]
      cases s.cwd p with
      | none => exact (by decide : "no current directory" ≠ noInodes)
      | some c =>
        have hfile : file (Fs.idup s.fs c) = file s.fs := funext (h.work.inv.setRef _).2
        refine ⟨fun hn => absurd hserve hn, fun hl => ?_⟩
        rw [← hfile] at hl
        exact hl

theorem roomToCreate (h : Sound True none s 0 0) (hl : LiveDirs (file s.fs)) (p : Slot) (path : Path) :
    SysFile.roomToCreate s p path .file = true := by
  rw [SysFile.roomToCreate]
  cases he : SysFile.createLookup s p path with
  | error e => rfl
  | ok r =>
    obtain ⟨_ | ⟨dp, name, _ | ip⟩, t⟩ := r
    · rfl
    · cases hst : startAt s p path with
      | none =>
        rw [SysFile.createLookup, nameiparent, namex_lost hst] at he
        cases he
      | some start =>
        obtain ⟨-, -, hr⟩ := (h.work.createLookup_room h.walkable hst).of_ok he
        obtain ⟨-, hparent⟩ := walk_parent (file s.fs) start (pathElems path)
        cases hwalk : walk (file s.fs) true start (pathElems path) with
        | none =>
          rw [hwalk] at hr
          cases hr.1
        | some q =>
          obtain ⟨dp', name'⟩ := q
          obtain ⟨-, ⟨f, hf, hd⟩, -⟩ := hparent dp' name' hwalk
          rw [hwalk] at hr
          obtain ⟨hr, hw⟩ := hr
          obtain ⟨rfl, -⟩ := Prod.mk.inj (Option.some.inj hr)
          have hft : file t.fs dp = some f := (hw.file_eq dp).trans hf
          simp only [hft, Option.all_some, decide_eq_true_eq]
          exact ⟨hl dp f hf hd, by rintro ⟨⟩⟩
    · rfl

end Sound

theorem roomy_of_live (h : Sound True none s 0 0) (hl : LiveDirs (file s.fs)) {e : Event} (he : e.limited = true) :
    roomy s e = true ∧ orderly s e = true := by
  cases e with
  | «open» p path omode =>
    refine ⟨?_, rfl⟩
    rw [roomy, Option.all_eq_true]
    intro q _
    rw [h.beginOp.roomToCreate hl p q, Bool.or_true]
  | chdir p path => exact ⟨rfl, rfl⟩
  | fork p kstack copied => exact ⟨rfl, rfl⟩
  | close p fd => exact ⟨rfl, rfl⟩
  | _ => cases he

theorem returned {y : Outcome (ℤ × Sys)} (hy : some ((·.2) <$> y) = some (.ok t)) : ∃ r, y = .ok (r, t) := by
  cases y with
  | error e => cases hy
  | ok r =>
    cases hy
    exact ⟨r.1, rfl⟩

theorem limited_step (h : Sound True none s 0 0) (hl : LiveDirs (file s.fs)) {e : Event} (he : e.limited = true)
    (hstep : Steps sysStep s e t) : Sound True none t 0 0 ∧ LiveDirs (file t.fs) := by
  obtain ⟨hr, ho⟩ := roomy_of_live h hl he
  refine ⟨(h.step hr (fun _ => ho) hstep).of_ok rfl, ?_⟩
  simp only [Steps, sysStep] at hstep
  split at hstep
  case h_1 p path omode _ =>
    obtain ⟨r, hy⟩ := returned hstep
    exact ((h.sysOpen_room p path omode).of_ok hy).2.2 hl
  case h_6 p path _ =>
    obtain ⟨r, hy⟩ := returned hstep
    exact ((h.sysChdir_room p path).of_ok hy).2.2 hl
  case h_8 p fd _ =>
    obtain ⟨r, hy⟩ := returned hstep
    exact ((h.sysClose_room p fd).of_ok hy).2 hl
  case h_9 p kstack copied _ => exact ((h.fork_room p kstack copied).of_ok (Option.some.inj hstep)).2 hl
  all_goals first | cases he | cases hstep

theorem protected_iff (h : Sound True none s 0 0) {e : Event} (he : e.limited = true) : Protected s e ↔ Fits s e := by
  cases e with
  | «open» p path omode =>
    exact ((h.sysOpen_room p path omode).mono (fun _ hn => hn) fun _ hq => hq.1).sat_iff fun _ hn => hn
  | chdir p path => exact ((h.sysChdir_room p path).mono (fun _ hn => hn) fun _ hq => hq.1).sat_iff fun _ hn => hn
  | close p fd => exact iff_of_true ((h.sysClose_room p fd).post fun _ hq => hq.1) trivial
  | fork p kstack copied => exact iff_of_true ((h.fork_room p kstack copied).post fun _ hq => hq.1) trivial
  | _ => cases he

theorem roomFor_of_few (h : inUse N P + mine.card < NINODE) (i : ℕ) : roomFor N P mine i :=
  Or.inr (Or.inr ((inUse_add_le N P mine).trans_lt h))

theorem fitsWalk_of_few (h : inUse N P + mine.card + 1 < NINODE) (F : Files) (parent : Bool) (ip : ℕ)
    (elems : List (List UInt8)) : fitsWalk F N P mine parent ip elems := by
  induction elems generalizing ip with
  | nil => trivial
  | cons name elems ih =>
    intro _ _ next _
    exact ⟨roomFor_of_few (by rwa [Multiset.card_cons]) next, ih next⟩

theorem fitsNamex_of_few (h : inUse N P + mine.card + 1 < NINODE) (F : Files) (path : Path) (parent : Bool)
    (start : ℕ) :
    fitsNamex F N P mine path parent start :=
  ⟨fun _ => roomFor_of_few (by omega) ROOTINO, fitsWalk_of_few h F parent start _⟩

theorem fitsLookup_of_few (h : inUse N P + mine.card + 1 < NINODE) (F : Files) (path : Path) (start : ℕ) :
    fitsLookup F N P mine path start :=
  ⟨fitsNamex_of_few h F path true start, fun _ _ _ next _ => roomFor_of_few (by rwa [Multiset.card_cons]) next⟩

theorem fitsCreate_of_few (h : inUse N P + mine.card + 1 < NINODE) (F : Files) (path : Path) (start : ℕ) :
    fitsCreate F N P mine path start := by
  refine ⟨fitsLookup_of_few h F path start, fun dp _ _ _ _ => ?_⟩
  exact (inUse_add_le N P _).trans_lt (by rwa [Multiset.card_cons])

theorem fitsOpen_of_few (h : inUse N P + 1 < NINODE) (F : Files) (path : Path) (omode start : ℕ) :
    fitsOpen F N P path omode start := by
  have h0 : inUse N P + (0 : Multiset ℕ).card + 1 < NINODE := h
  rw [fitsOpen]
  split_ifs
  · exact fitsCreate_of_few h0 F path start
  · exact fitsNamex_of_few h0 F path false start

theorem fits_of_few (h : Sound True none s 0 0) (hfew : (cached s.fs).length + 1 < NINODE) (e : Event) : Fits s e := by
  rw [h.work.cached_eq] at hfew
  have h0 : inUse s.fs.sb.ninodes (pointers s) + (0 : Multiset ℕ).card + 1 < NINODE := hfew
  rw [Fits.eq_def]
  split
  · intro start _
    exact fitsOpen_of_few hfew _ _ _ start
  · intro start _
    exact fitsNamex_of_few h0 _ _ false start
  · trivial

/-- Any processes with open files and current directories on a tree of directories, and any calls open, chdir, fork and
close: `iget` finds an entry all along exactly if at each call the inodes that it gets have room beside those in use. -/
theorem inode_cache_iff {es : List Event} (h : Sound True none s 0 0) (hl : LiveDirs (file s.fs))
    (hes : ∀ e ∈ es, e.limited = true) : Along (Steps sysStep) Protected s es ↔ Along (Steps sysStep) Fits s es := by
  apply along_congr (I := fun s => Sound True none s 0 0 ∧ LiveDirs (file s.fs)) _ _ ⟨h, hl⟩ (along_of_mem hes s)
  · intro s e t hs he ht
    exact limited_step hs.1 hs.2 he ht
  · intro s e hs he
    exact protected_iff hs.1 he

theorem emptyRoot_live {sb : Superblock} : LiveDirs (file (emptyRoot sb)) := by
  intro d f hf _
  rw [emptyRoot_file] at hf
  split_ifs at hf
  cases hf
  exact (by decide : (1 : Int16) ≠ 0)

def fewCalls : List Event :=
  [.open firstUser (some pathX) 0x202, .fork firstUser true true, .chdir firstUser (some [slash]), .close firstUser 0]

theorem inode_cache_few : Along (Steps sysStep) Protected (boot firstUser rootImage) fewCalls := by
  have hs : Sound True none (boot firstUser rootImage) 0 0 := boot_sound (rootImage_tree True)
  have hl : LiveDirs (file (boot firstUser rootImage).fs) := by
    rw [(boot_file firstUser (rootImage_tree True).1).2]
    exact emptyRoot_live
  have hfew : Along (Steps sysStep) (fun s e => (cached s.fs).length + 1 < NINODE ∧ e.limited = true)
      (boot firstUser rootImage) fewCalls := by
    decide +kernel
  apply (inode_cache_iff hs hl (by decide)).mpr
  apply hfew.invariant (I := fun s => Sound True none s 0 0 ∧ LiveDirs (file s.fs)) _ _ ⟨hs, hl⟩
  · intro s e t h hc ht
    exact limited_step h.1 h.2 hc.2 ht
  · intro s e h hc
    exact fits_of_few h.1 hc.1 e

def crowdedImage : State := emptyRoot ⟨200, 160, 64⟩

def userAt (k : Fin 4) : Slot := ⟨k, k.isLt.trans (by decide)⟩

def openNth (n : ℕ) : Event := .open (userAt (Fin.ofNat 4 (n / 16))) (some [slash, UInt8.ofNat (48 + n)]) 0x200

def crowd : List Event :=
  [.fork firstUser true true, .fork firstUser true true, .fork firstUser true true] ++ (List.range 49).map openNth

set_option maxRecDepth 100000 in
theorem crowd_stops : (Transition.exec sysStep (boot firstUser crowdedImage) crowd).map (fun t =>
    stopped (sysStep t (openNth 49))) = some (some noInodes) := by
  decide +kernel

theorem sysOpen_stops {path : Option Path} {e : String} (h : sysStep s (.open p path omode) = some (.error e)) :
    sysOpen s p path omode = .error e := by
  simp only [sysStep, Event.proc] at h
  cases hp : s.kernel.state p with
  | runnable =>
    rw [hp] at h
    exact map_eq_error.mp (Option.some.inj h)
  | _ =>
    rw [hp] at h
    cases h

/-- The fiftieth file has no place in the inode cache. -/
theorem inode_cache_overrun : ¬∀ (init : Slot) (fs : State) (es : List Event), TreeImage True fs → LiveDirs (file fs) →
    (∀ e ∈ es, e.limited = true) → Along (Steps sysStep) Protected (boot init fs) es := by
  intro hall
  obtain ⟨t, ht, hstop⟩ := Option.map_eq_some_iff.mp crowd_stops
  have hes : ∀ e ∈ crowd ++ [openNth 49], e.limited = true := by decide
  have himage : TreeImage True crowdedImage :=
    emptyRoot_tree True (by decide) (by decide) (by decide) (by decide) (by decide)
  have hprot := (hall firstUser crowdedImage _ himage emptyRoot_live hes).after (run_of_exec ht)
  exact hprot.of_error (sysOpen_stops (stopped_eq_some.mp hstop)) rfl

end Xv6.SysFile
