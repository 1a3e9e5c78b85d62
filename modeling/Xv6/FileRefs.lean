import Xv6.OpenFiles

namespace Xv6.OpenFiles

open Contract FileTable PointerCount ProcTable Transition

structure Files (s : Kernel) (x : Fin NFILE → ℤ) : Prop where
  refs : ∀ f, ((s.ft.file f).ref : ℤ) = count s.ofile f + x f
  table : Table s.ft
  quiet : ∀ p, s.state p = .unused ∨ s.state p = .zombie → ∀ fd, s.ofile (p, fd) = none

variable {s : Kernel} {x : Fin NFILE → ℤ} {f : Fin NFILE} {p : Slot}

theorem Files.congr {y : Fin NFILE → ℤ} (h : Files s x) (hxy : ∀ g, x g = y g) : Files s y :=
  ⟨fun g => hxy g ▸ h.refs g, h.table, h.quiet⟩

theorem Files.setSlot {i : Slot × Fin NOFILE} {v : Option (Fin NFILE)} (h : Files s x)
    (hi : v = none ∨ s.state i.1 = .runnable ∨ s.state i.1 = .embryo) :
    Files (setSlot s i v) (fun g => x g + hit (s.ofile i) g - hit v g) := by
  refine ⟨?_, h.table, ?_⟩
  · intro g
    have hc := count_update s.ofile i v g
    have hr := h.refs g
    simp only [OpenFiles.setSlot] at hr ⊢
    omega
  · intro q hq fd
    simp only [OpenFiles.setSlot] at hq ⊢
    by_cases hqi : (q, fd) = i
    · subst hqi
      rw [Function.update_self]
      rcases hi with rfl | hi | hi
      · rfl
      · simp [hi] at hq
      · simp [hi] at hq
    · rw [Function.update_of_ne hqi]
      exact h.quiet q hq fd

theorem Files.setTable {ft : Ftable} {y : Fin NFILE → ℤ} (h : Files s x) (ht : Table ft)
    (hr : ∀ g, ((ft.file g).ref : ℤ) = (s.ft.file g).ref + y g) : Files (setTable s ft) (fun g => x g + y g) := by
  refine ⟨fun g => ?_, ht, h.quiet⟩
  have := h.refs g
  have := hr g
  simp only [OpenFiles.setTable]
  omega

theorem Files.setState {st : ProcState} (h : Files s x)
    (hp : st = .runnable ∨ st = .embryo ∨ ∀ fd, s.ofile (p, fd) = none) : Files (setState s p st) x := by
  refine ⟨h.refs, h.table, ?_⟩
  intro q hq
  by_cases hqp : q = p
  · subst hqp
    simp only [OpenFiles.setState, Function.update_self] at hq
    rcases hp with rfl | rfl | hp
    · simp at hq
    · simp at hq
    · exact hp
  · simp only [OpenFiles.setState, Function.update_of_ne hqp] at hq
    exact h.quiet q hq

theorem filedup_files (h : Files s x) (hf : 0 < (s.ft.file f).ref) :
    ∃ ft, filedup s.ft f = .ok ft ∧ Files (setTable s ft) (fun g => x g + hit (some f) g) := by
  obtain ⟨he, ht⟩ := filedup_spec h.table hf
  refine ⟨_, he, h.setTable ht fun g => ?_⟩
  rw [setFile_file]
  split_ifs with hg
  · simp [hg]
  · simp [hit_of_ne (Ne.symm hg)]

theorem fileclose_files (h : Files s x) (hf : 0 < (s.ft.file f).ref) :
    ∃ r ft, fileclose s.ft f = .ok (r, ft) ∧ Files (setTable s ft) (fun g => x g - hit (some f) g) := by
  obtain ⟨r, ft, he, ht, -, hr⟩ := fileclose_spec h.table hf
  refine ⟨r, ft, he, (h.setTable (y := fun g => - hit (some f) g) ht fun g => ?_).congr fun g => by ring⟩
  rw [hr]
  split_ifs with hg
  · rw [hg, hit_self]
    omega
  · simp [hit_of_ne (Ne.symm hg)]

theorem filealloc_files {ft : Ftable} (h : Files s x) (hf : filealloc s.ft = some (f, ft)) :
    Files (setTable s ft) (fun g => x g + hit (some f) g) ∧ (ft.file f).ref = 1 ∧ (ft.file f).type = .none := by
  obtain ⟨hz, rfl, ht⟩ := filealloc_spec h.table hf
  refine ⟨h.setTable ht fun g => ?_, by simp [setFile], ?_⟩
  · rw [setFile_file]
    split_ifs with hg
    · simp [hg, hz]
    · simp [hit_of_ne (Ne.symm hg)]
  · simpa [setFile] using h.table.closed f hz

theorem fdalloc_files {t : Kernel} {fd : Fin NOFILE} (h : Files s x) (hp : s.state p = .runnable)
    (hf : fdalloc s p f = some (fd, t)) :
    t = setSlot s (p, fd) (some f) ∧ s.ofile (p, fd) = none ∧ Files t (fun g => x g - hit (some f) g) := by
  simp only [fdalloc] at hf
  split at hf
  · next fd' hfd =>
    cases hf
    have hn : s.ofile (p, fd) = none := by simpa using List.find?_some hfd
    refine ⟨rfl, hn, (h.setSlot (Or.inr (Or.inl hp))).congr fun g => ?_⟩
    simp [hn]
  · cases hf

theorem Files.ref_pos {i : Slot × Fin NOFILE} (h : Files s x) (hx : 0 ≤ x f) (hi : s.ofile i = some f) :
    0 < (s.ft.file f).ref := by
  have hr := h.refs f
  have hc := count_pos hi
  omega

theorem argfd_spec {fd : ℤ} {i : Fin NOFILE} (h : argfd s p fd = some (i, f)) : s.ofile (p, i) = some f := by
  simp only [argfd] at h
  split_ifs at h
  obtain ⟨g, hg, he⟩ := Option.map_eq_some_iff.mp h
  cases he
  exact hg

variable {E : String → Prop}

theorem sysDup_files (h : Files s 0) (hp : s.state p = .runnable) (fd : ℤ) :
    Sat (sysDup s p fd) E (fun r => Files r.2 0) := by
  simp only [sysDup]
  cases ha : argfd s p fd with
  | none => exact h
  | some q =>
    obtain ⟨i, f⟩ := q
    have hpos := h.ref_pos le_rfl (argfd_spec ha)
    simp only
    cases hf : fdalloc s p f with
    | none => exact h
    | some q =>
      obtain ⟨j, t⟩ := q
      obtain ⟨rfl, -, ht⟩ := fdalloc_files h hp hf
      obtain ⟨ft, he, hft⟩ := filedup_files ht (f := f) hpos
      simp only [he, Outcome.ok_bind]
      exact hft.congr fun g => by simp

theorem sysClose_files (h : Files s 0) (fd : ℤ) : Sat (sysClose s p fd) E (fun r => Files r.2 0) := by
  simp only [sysClose]
  cases ha : argfd s p fd with
  | none => exact h
  | some q =>
    obtain ⟨i, f⟩ := q
    have hi := argfd_spec ha
    have ht := h.setSlot (i := (p, i)) (v := none) (Or.inl rfl)
    obtain ⟨r, ft, he, hft⟩ := fileclose_files ht (f := f) (h.ref_pos le_rfl hi)
    simp only [he, Outcome.ok_bind]
    exact hft.congr fun g => by simp [hi]

theorem sysOpen_files (h : Files s 0) (hp : s.state p = .runnable) (ip : Option ℕ) (omode : ℕ) :
    Sat (sysOpen s p ip omode) E (fun r => Files r.2 0) := by
  simp only [sysOpen]
  cases ip with
  | none => exact h
  | some ip =>
    simp only
    cases ha : filealloc s.ft with
    | none => exact h
    | some q =>
      obtain ⟨f, ft⟩ := q
      obtain ⟨ht, hone, htype⟩ := filealloc_files h ha
      simp only
      cases hf : fdalloc (setTable s ft) p f with
      | none =>
        obtain ⟨r, ft', he, hft⟩ := fileclose_files ht (f := f) (show 0 < (ft.file f).ref by omega)
        simp only [show fileclose ft f = .ok (r, ft') from he, Outcome.ok_bind]
        exact hft.congr fun g => by simp
      | some q =>
        obtain ⟨fd, t⟩ := q
        obtain ⟨rfl, -, hslot⟩ := fdalloc_files ht hp hf
        have htab : Table (setFile ft f (openedFile (ft.file f) ip omode)) := by
          apply hslot.table.setFile
          · simp [openedFile, OpenFiles.setSlot, OpenFiles.setTable, htype]
          · simp [openedFile]
          · intro hz
            simp [openedFile, hone] at hz
        refine (hslot.setTable (y := 0) htab fun g => ?_).congr fun g => by simp
        rw [setFile_file]
        split_ifs with hg
        · simp [hg, openedFile, OpenFiles.setSlot, OpenFiles.setTable]
        · simp [OpenFiles.setSlot, OpenFiles.setTable]

theorem closeBoth_files {rf wf : Fin NFILE} (hne : rf ≠ wf)
    (h : Files s (fun g => hit (some rf) g + hit (some wf) g)) :
    Sat (closeBoth s rf wf) E (fun r => Files r.2 0) := by
  have hr : 0 < (s.ft.file rf).ref := by
    have := h.refs rf
    simp only [hit_self] at this
    omega
  have hw : 0 < (s.ft.file wf).ref := by
    have := h.refs wf
    simp only [hit_self] at this
    omega
  obtain ⟨r, ft, he, hft⟩ := fileclose_files h hr
  have hw' : 0 < ((setTable s ft).ft.file wf).ref := by
    have := hft.refs wf
    simp only [hit_self, hit_of_ne hne] at this
    omega
  obtain ⟨r', ft', he', hft'⟩ := fileclose_files hft hw'
  simp only [closeBoth, he, Outcome.ok_bind, show fileclose ft wf = .ok (r', ft') from he']
  exact hft'.congr fun g => by simp

theorem sysPipe_files (h : Files s 0) (hp : s.state p = .runnable) (valid : Bool) {page : Option ℕ}
    (hpage : unusedPage s page = true) : Sat (sysPipe s p valid page) E (fun r => Files r.2 0) := by
  simp only [sysPipe]
  split_ifs with hv
  · exact h
  · have hfree : ∀ pg, page = some pg → s.ft.pipe pg = none := by
      rintro pg rfl
      simpa [unusedPage] using hpage
    obtain ⟨r, ft, he, ht, hr⟩ := pipealloc_spec h.table hfree
    simp only [he, Outcome.ok_bind]
    cases r with
    | none => exact (h.setTable (y := 0) ht fun g => by simp [hr g]).congr fun g => by simp
    | some q =>
      obtain ⟨rf, wf⟩ := q
      obtain ⟨hne, hz0, hz1, hr⟩ := hr
      have hft : Files (setTable s ft) (fun g => hit (some rf) g + hit (some wf) g) := by
        refine (h.setTable (y := fun g => hit (some rf) g + hit (some wf) g) ht fun g => ?_).congr fun g => by simp
        rw [hr]
        by_cases hg0 : g = rf
        · subst hg0
          simp [hz0, hit_of_ne hne.symm]
        · by_cases hg1 : g = wf
          · subst hg1
            simp [hz1, hit_of_ne hne]
          · simp [hg0, hg1, hit_of_ne (Ne.symm hg0), hit_of_ne (Ne.symm hg1)]
      simp only
      cases h0 : fdalloc (setTable s ft) p rf with
      | none => exact closeBoth_files hne hft
      | some q0 =>
        obtain ⟨fd0, t0⟩ := q0
        obtain ⟨rfl, hn0, ht0⟩ := fdalloc_files hft hp h0
        simp only
        cases h1 : fdalloc (setSlot (setTable s ft) (p, fd0) (some rf)) p wf with
        | none =>
          apply closeBoth_files hne
          refine (ht0.setSlot (Or.inl rfl)).congr fun g => ?_
          simp only [OpenFiles.setSlot, Function.update_self, hit_none]
          push_cast
          ring
        | some q1 =>
          obtain ⟨fd1, t1⟩ := q1
          obtain ⟨-, -, ht1⟩ := fdalloc_files ht0 hp h1
          exact ht1.congr fun g => by simp

theorem fork_files (h : Files s 0) (kstack copied : Bool) :
    Sat (fork s p kstack copied) E (fun t => Files t 0) := by
  simp only [fork]
  split
  · exact h
  · next np hnp =>
    have hu : s.state np = .unused := by simpa using List.find?_some hnp
    have hnone := h.quiet np (Or.inl hu)
    have hembryo : Files (setState s np .embryo) 0 := h.setState (Or.inr (Or.inl rfl))
    split_ifs
    · exact hembryo.setState (Or.inr (Or.inr hnone))
    · exact hembryo.setState (Or.inr (Or.inr hnone))
    · -- the slots of the child are still empty for the descriptors to come
      refine (sat_foldlM (I := fun l t => Files t 0 ∧ t.state np = .embryo ∧ l.Nodup ∧
          ∀ fd ∈ l, t.ofile (np, fd) = none)
        ?_ ⟨hembryo, by simp [setState], List.nodup_finRange _, fun fd _ => hnone fd⟩).bind ?_
      · rintro fd l t ⟨ht, hst, hl, hslots⟩
        obtain ⟨hfd, hl⟩ := List.nodup_cons.mp hl
        simp only [forkFile]
        cases hf : t.ofile (p, fd) with
        | none => exact ⟨ht, hst, hl, fun j hj => hslots j (List.mem_cons_of_mem fd hj)⟩
        | some f =>
          obtain ⟨ft, he, hft⟩ := filedup_files ht (ht.ref_pos le_rfl hf)
          simp only [he, Outcome.ok_bind]
          refine ⟨(hft.setSlot (i := (np, fd)) (v := some f) (Or.inr (Or.inr hst))).congr fun g => ?_, hst, hl, ?_⟩
          · have hn : (setTable t ft).ofile (np, fd) = none := hslots fd (by simp)
            simp [hn]
          · intro j hj
            have hne : (np, j) ≠ (np, fd) := by
              rintro he
              exact hfd ((Prod.mk.inj he).2 ▸ hj)
            simp only [setSlot, Function.update_of_ne hne]
            exact hslots j (List.mem_cons_of_mem fd hj)
      · rintro t ⟨ht, -⟩
        exact ht.setState (Or.inl rfl)

theorem exit_files (h : Files s 0) :
    Sat (exit s p) (· = "init exiting") (fun t => Files t 0) := by
  simp only [exit]
  split_ifs
  · exact rfl
  · refine (sat_foldlM (I := fun l t => Files t 0 ∧ ∀ fd, fd ∉ l → t.ofile (p, fd) = none)
      ?_ ⟨h, fun fd hfd => absurd (List.mem_finRange fd) hfd⟩).bind ?_
    · rintro fd l t ⟨ht, hslots⟩
      simp only [exitFile]
      cases hf : t.ofile (p, fd) with
      | none =>
        refine ⟨ht, fun j hj => ?_⟩
        by_cases hjf : j = fd
        · rw [hjf]
          exact hf
        · exact hslots j (by simp [hjf, hj])
      | some f =>
        obtain ⟨r, ft, he, hft⟩ := fileclose_files ht (ht.ref_pos le_rfl hf)
        simp only [he, Outcome.ok_bind]
        refine ⟨(hft.setSlot (i := (p, fd)) (v := none) (Or.inl rfl)).congr fun g => ?_, fun j hj => ?_⟩
        · have hn : (setTable t ft).ofile (p, fd) = some f := hf
          simp [hn]
        · by_cases hjf : j = fd
          · simp [setSlot, hjf]
          · have hne : (p, j) ≠ (p, fd) := fun he => hjf (Prod.mk.inj he).2
            simp only [setSlot, Function.update_of_ne hne]
            exact hslots j (by simp [hjf, hj])
    · rintro t ⟨ht, hslots⟩
      exact ht.setState (Or.inr (Or.inr fun fd => hslots fd (by simp)))

theorem sat_snd {x : Outcome (ℤ × Kernel)} {Q : Kernel → Prop} (h : Sat x E (fun r => Q r.2)) :
    Sat ((·.2) <$> x) E Q := by
  cases x with
  | error e => exact h
  | ok r => exact h

theorem fileStep_files {e : Event} {r : Outcome Kernel} (h : Files s 0) (hs : fileStep s e = some r) :
    Sat r (· = "init exiting") (fun t => Files t 0) := by
  simp only [fileStep] at hs
  split at hs
  · next p ip omode hp =>
    cases hs
    exact sat_snd (sysOpen_files h hp ip omode)
  · next p fd hp =>
    cases hs
    exact sat_snd (sysDup_files h hp fd)
  · next p valid page hp =>
    split_ifs at hs with hpage
    cases hs
    exact sat_snd (sysPipe_files h hp valid hpage)
  · next p fd hp =>
    cases hs
    exact sat_snd (sysClose_files h fd)
  · next p kstack copied hp =>
    cases hs
    exact fork_files h kstack copied
  · cases hs
    exact h
  · next p hp =>
    cases hs
    exact exit_files h
  · next p hp =>
    cases hs
    exact h.setState (Or.inr (Or.inr (h.quiet p (Or.inr hp))))
  · cases hs

theorem boot_files (init : Slot) : Files (boot init) 0 := by
  refine ⟨?_, ⟨?_, ?_, ?_, ?_, ?_, ?_⟩, ?_⟩
  · intro f
    simp [boot, count_const_none]
  · exact fun _ _ => rfl
  · intro page w f g hf
    simp [IsEnd, boot] at hf
  · intro page q hq
    simp [boot] at hq
  · intro page q hq
    simp [boot] at hq
  · intro page _ w f hf
    simp [IsEnd, boot] at hf
  · intro page
    rfl
  · exact fun _ _ _ => rfl

theorem run_files {init : Slot} {es : List Event} (hrun : Run (Steps fileStep) (boot init) es s) : Files s 0 := by
  apply hrun.always (I := fun s => Files s 0) _ (boot_files init)
  intro s e t hs hstep
  exact (fileStep_files hs hstep).of_ok rfl

theorem Files.slot_iff (h : Files s 0) {page : ℕ} {w : Bool} (hf : IsEnd s.ft page w f) : ∃ i, s.ofile i = some f := by
  apply exists_of_count_pos
  have hpos : (s.ft.file f).ref ≠ 0 := by
    intro hz
    have ht := hf.1
    rw [h.table.closed f hz] at ht
    cases ht
  have := h.refs f
  simp only [Pi.zero_apply] at this
  omega

theorem open_file_refs {init : Slot} {es : List Event} (hrun : Run (Steps fileStep) (boot init) es s) :
    (∀ f, (s.ft.file f).ref = count s.ofile f) ∧
      (∀ i f, s.ofile i = some f → (s.ft.file f).ref ≠ 0) ∧
      (∀ p, s.state p = .unused → ∀ fd, s.ofile (p, fd) = none) ∧
      (∀ e m, stopped (fileStep s e) = some m → m = "init exiting") ∧
      ∀ page, s.ft.allocated page = s.ft.freed page + (s.ft.pipe page).toList.length ∧
        ((s.ft.pipe page).isSome ↔ ∃ i f w, s.ofile i = some f ∧ IsEnd s.ft page w f) ∧
        ∀ q w, s.ft.pipe page = some q → (q.open w = true ↔ ∃ i f, s.ofile i = some f ∧ IsEnd s.ft page w f) := by
  have h := run_files hrun
  have hopen : ∀ page q, s.ft.pipe page = some q → ∀ w,
      (q.open w = true ↔ ∃ i f, s.ofile i = some f ∧ IsEnd s.ft page w f) := by
    intro page q hq w
    rw [h.table.flags page q hq w]
    constructor
    · rintro ⟨f, hf⟩
      obtain ⟨i, hi⟩ := h.slot_iff hf
      exact ⟨i, f, hi, hf⟩
    · rintro ⟨i, f, -, hf⟩
      exact ⟨f, hf⟩
  refine ⟨?_, ?_, ?_, ?_, fun page => ⟨h.table.pages page, ?_, fun q w hq => hopen page q hq w⟩⟩
  · intro f
    have := h.refs f
    simp only [Pi.zero_apply] at this
    omega
  · intro i f hi
    exact (h.ref_pos le_rfl hi).ne'
  · intro p hp
    exact h.quiet p (Or.inl hp)
  · intro e m hm
    exact (fileStep_files h (stopped_eq_some.mp hm)).of_error rfl
  · cases hq : s.ft.pipe page with
    | none =>
      simp only [Option.isSome_none, Bool.false_eq_true, false_iff]
      rintro ⟨i, f, w, -, hf⟩
      exact h.table.gone page hq w f hf
    | some q =>
      simp only [Option.isSome_some, true_iff]
      obtain ⟨w, hw⟩ := h.table.alive page q hq
      obtain ⟨i, f, hi, hf⟩ := (hopen page q hq w).mp hw
      exact ⟨i, f, w, hi, hf⟩

def firstProc : Slot := ⟨0, NPROC_pos⟩

def secondProc : Slot := ⟨1, one_lt_NPROC⟩

def sharedPipe : List Event :=
  [.pipe firstProc true (some 4096), .fork firstProc true true, .close firstProc 0, .dup secondProc 0,
    .close secondProc 1, .close firstProc 1, .exit secondProc]

theorem open_file_refs_pipe : ∃ s : Kernel, Run (Steps fileStep) (boot firstProc) sharedPipe s ∧
    s.ft.freed 4096 = 1 ∧ s.state secondProc = .zombie ∧
      ¬ ∃ i f w, s.ofile i = some f ∧ IsEnd s.ft 4096 w f := by
  have h : (exec fileStep (boot firstProc) sharedPipe).map
      (fun s => (s.ft.freed 4096, s.state secondProc, s.ft.pipe 4096)) = some (1, .zombie, none) := by decide +kernel
  obtain ⟨s, he, hs⟩ := Option.map_eq_some_iff.mp h
  obtain ⟨hf, hz, hn⟩ : s.ft.freed 4096 = 1 ∧ s.state secondProc = .zombie ∧ s.ft.pipe 4096 = none := by simpa using hs
  have hrun := run_of_exec he
  obtain ⟨-, hiff, -⟩ := (open_file_refs hrun).2.2.2.2 4096
  refine ⟨s, hrun, hf, hz, fun hex => ?_⟩
  have := hiff.mpr hex
  simp [hn] at this

end Xv6.OpenFiles
