import Xv6.FileRefs
import Xv6.ShellCommand
import Xv6.ShellRun

/-!
The order of redirections. `parseredirs` puts each redirection around those before it and `runcmd` opens the outermost
one first, so that the files are opened from the last to the first and the first one stays.
-/

namespace Xv6.Shell

open Contract FileTable OpenFiles PointerCount ProcTable Transition

def Refers (s : Kernel) (p : Slot) (fd : Fin NOFILE) (ip : ℕ) : Prop :=
  ∃ f, s.ofile (p, fd) = some f ∧ (s.ft.file f).type = .inode ∧ (s.ft.file f).ip = ip

def stdin : Fin NOFILE := ⟨0, by decide⟩
def stdout : Fin NOFILE := ⟨1, by decide⟩

def descriptor : Op → Fin NOFILE
  | .less => stdin
  | .greater | .append => stdout

structure Ready (s : Kernel) (p : Slot) : Prop where
  files : Files s 0
  runs : s.state p = .runnable
  input : s.ofile (p, stdin) ≠ none
  output : s.ofile (p, stdout) ≠ none

variable {s t : Kernel} {p : Slot} {f g : Fin NFILE} {fd : Fin NOFILE} {o : Op}

theorem pipeclose_file {ft ft' : Ftable} {page : ℕ} {w : Bool} (h : pipeclose ft page w = .ok ft') :
    ft'.file = ft.file := by
  simp only [pipeclose] at h
  split at h
  · cases h
  · split_ifs at h <;> cases h <;> rfl

theorem fileclose_file {ft ft' : Ftable} {r : Option ℕ} (h : fileclose ft f = .ok (r, ft')) :
    (∀ g, g ≠ f → ft'.file g = ft.file g) ∧
      (1 < (ft.file f).ref → (ft'.file f).type = (ft.file f).type ∧ (ft'.file f).ip = (ft.file f).ip) := by
  simp only [fileclose] at h
  split_ifs at h with h1 h2
  · cases h
    exact ⟨fun g hg => by rw [setFile_file, if_neg hg], fun _ => by simp [setFile_file]⟩
  · have hf : ft'.file = (setFile ft f { ft.file f with ref := 0, type := .none }).file := by
      split at h
      · obtain ⟨ft1, hp, he⟩ := Outcome.bind_eq_ok.mp h
        cases he
        exact pipeclose_file hp
      · cases h
        rfl
      · cases h
        rfl
    exact ⟨fun g hg => by rw [hf, setFile_file, if_neg hg], fun h1 => by omega⟩

theorem descriptor_val (o : Op) : (o.fd : ℤ) = ((descriptor o).val : ℤ) := by cases o <;> rfl

theorem argfd_open (h : s.ofile (p, fd) = some f) : argfd s p (fd.val : ℤ) = some (fd, f) := by
  have hlt := fd.isLt
  rw [argfd, dif_pos (by omega)]
  simp [h]

theorem sysClose_open (h : Files s 0) (hf : s.ofile (p, fd) = some f) :
    ∃ ft, sysClose s p (fd.val : ℤ) = .ok (0, setTable (setSlot s (p, fd) none) ft) ∧
      ∀ i g, i ≠ (p, fd) → s.ofile i = some g →
        (ft.file g).type = (s.ft.file g).type ∧ (ft.file g).ip = (s.ft.file g).ip := by
  obtain ⟨r, ft, he, -, -⟩ := fileclose_spec h.table (h.ref_pos le_rfl hf)
  obtain ⟨hother, hmore⟩ := fileclose_file he
  refine ⟨ft, ?_, fun i g hi hg => ?_⟩
  · have he' : fileclose (setSlot s (p, fd) none).ft f = .ok (r, ft) := he
    simp [sysClose, argfd_open hf, he']
  · by_cases hgf : g = f
    · subst hgf
      apply hmore
      have hcount := count_update s.ofile (p, fd) none g
      have hpos : 0 < count (Function.update s.ofile (p, fd) none) g :=
        count_pos (i := i) (by rw [Function.update_of_ne hi, hg])
      have href := h.refs g
      rw [hf, hit_self, hit_none] at hcount
      simp only [Pi.zero_apply] at href
      omega
    · rw [hother g hgf]
      exact ⟨rfl, rfl⟩

theorem fdalloc_descriptor (o : Op) (hin : o ≠ .less → s.ofile (p, stdin) ≠ none)
    (hnone : s.ofile (p, descriptor o) = none) :
    fdalloc s p f = some (descriptor o, setSlot s (p, descriptor o) (some f)) := by
  obtain ⟨l, hl⟩ : ∃ l, List.finRange NOFILE = stdin :: stdout :: l := ⟨_, rfl⟩
  have hfind : (List.finRange NOFILE).find? (fun fd => s.ofile (p, fd) = none) = some (descriptor o) := by
    rw [hl]
    cases o with
    | less => exact List.find?_cons_of_pos (decide_eq_true hnone)
    | greater | append =>
      rw [List.find?_cons_of_neg (by simpa using hin (by simp))]
      exact List.find?_cons_of_pos (decide_eq_true hnone)
  simp only [fdalloc, hfind]

theorem sysOpen_descriptor (h : Files s 0) (hp : s.state p = .runnable) (o : Op)
    (hin : o ≠ .less → s.ofile (p, stdin) ≠ none) (hnone : s.ofile (p, descriptor o) = none) (ip : Option ℕ)
    (mode : ℕ) :
    (∃ t, sysOpen s p ip mode = .ok (-1, t)) ∨
      ∃ t n, sysOpen s p ip mode = .ok (o.fd, t) ∧ ip = some n ∧ Files t 0 ∧ t.state = s.state ∧
        Refers t p (descriptor o) n ∧ ∀ i, i ≠ (p, descriptor o) → t.ofile i = s.ofile i ∧
          ∀ g, s.ofile i = some g → (t.ft.file g).type = (s.ft.file g).type ∧ (t.ft.file g).ip = (s.ft.file g).ip := by
  have hfiles := sysOpen_files (E := fun _ => False) h hp ip mode
  cases ip with
  | none => exact .inl ⟨s, rfl⟩
  | some n =>
    cases ha : filealloc s.ft with
    | none => exact .inl ⟨s, by simp [sysOpen, ha]⟩
    | some q =>
      obtain ⟨f, ft⟩ := q
      right
      obtain ⟨hz, hft, -⟩ := filealloc_spec h.table ha
      have hfd := fdalloc_descriptor (s := setTable s ft) (f := f) (p := p) o hin hnone
      set t := setTable (setSlot (setTable s ft) (p, descriptor o) (some f))
        (setFile ft f (openedFile (ft.file f) n mode)) with ht
      have he : sysOpen s p (some n) mode = .ok (o.fd, t) := by
        simp only [sysOpen, ha, hfd]
        rw [descriptor_val]
        rfl
      refine ⟨t, n, he, rfl, hfiles.of_ok he, rfl, ⟨f, Function.update_self .., ?_, ?_⟩,
          fun i hi => ⟨?_, fun g hg => ?_⟩⟩
      · simp [ht, OpenFiles.setTable, setFile_file, openedFile]
      · simp [ht, OpenFiles.setTable, setFile_file, openedFile]
      · exact Function.update_of_ne hi _ _
      · -- the new file had no reference
        have hgf : g ≠ f := by
          rintro rfl
          exact absurd hz (h.ref_pos le_rfl hg).ne'
        simp [ht, hft, OpenFiles.setTable, setFile_file, hgf]

structure Reopened (s t : Kernel) (p : Slot) (fd : Fin NOFILE) (ip : Option ℕ) : Prop where
  ready : Ready t p
  refers : ∃ n, ip = some n ∧ Refers t p fd n
  others : ∀ j, j ≠ fd → t.ofile (p, j) = s.ofile (p, j) ∧ ∀ n, Refers s p j n → Refers t p j n

theorem reopen_spec (h : Ready s p) (o : Op) (ip : Option ℕ) (mode : ℕ) :
    ∃ s1 r t, sysClose s p o.fd = .ok (0, s1) ∧ sysOpen s1 p ip mode = .ok (r, t) ∧
      (r < 0 ∨ ¬ r < 0 ∧ Reopened s t p (descriptor o) ip) := by
  obtain ⟨f, hf⟩ : ∃ f, s.ofile (p, descriptor o) = some f := by
    apply Option.ne_none_iff_exists'.mp
    cases o with
    | less => exact h.input
    | greater | append => exact h.output
  obtain ⟨ft, hclose, hkeep⟩ := sysClose_open h.files hf
  have hfiles := (sysClose_files (E := fun _ => False) h.files (descriptor o).val).of_ok hclose
  set s1 := setTable (setSlot s (p, descriptor o) none) ft with hs1
  have hof : ∀ i, i ≠ (p, descriptor o) → s1.ofile i = s.ofile i := fun i hi => Function.update_of_ne hi _ _
  have hin : o ≠ .less → s1.ofile (p, stdin) ≠ none := by
    intro ho
    rw [hof _ (by cases o <;> simp_all [descriptor, stdin, stdout])]
    exact h.input
  rw [← descriptor_val] at hclose
  rcases sysOpen_descriptor hfiles h.runs o hin (Function.update_self ..) ip mode
      with ⟨t, ht⟩ | ⟨t, n, ht, hip, htf, hst, href, hoth⟩
  · exact ⟨s1, -1, t, hclose, ht, .inl (by decide)⟩
  · refine ⟨s1, o.fd, t, hclose, ht, .inr ⟨by omega, ?_⟩⟩
    have hopen : ∀ j, j ≠ descriptor o → t.ofile (p, j) = s.ofile (p, j) := by
      intro j hj
      have hi : (p, j) ≠ (p, descriptor o) := fun e => hj (Prod.mk.inj e).2
      rw [(hoth _ hi).1, hof _ hi]
    have hstd : ∀ j, s.ofile (p, j) ≠ none → t.ofile (p, j) ≠ none := by
      intro j hj
      by_cases hjo : j = descriptor o
      · obtain ⟨g, hg, -⟩ := href
        simp [hjo, hg]
      · rwa [hopen j hjo]
    refine ⟨⟨htf, by rw [hst]; exact h.runs, hstd _ h.input, hstd _ h.output⟩, ⟨n, hip, href⟩,
        fun j hj => ⟨hopen j hj, ?_⟩⟩
    rintro m ⟨g, hg, htype, hgip⟩
    have hi : (p, j) ≠ (p, descriptor o) := fun e => hj (Prod.mk.inj e).2
    obtain ⟨k1, k2⟩ := hkeep _ g hi hg
    obtain ⟨l1, l2⟩ := (hoth _ hi).2 g (by rw [hof _ hi, hg])
    exact ⟨g, by rw [hopen j hj, hg], l1.trans (k1.trans htype), l2.trans (k2.trans hgip)⟩

abbrev Redirection := Op × List UInt8

def firstOf (fd : Fin NOFILE) (rs : List Redirection) : Option Redirection := rs.find? fun r => descriptor r.1 = fd
def lastOf (fd : Fin NOFILE) (rs : List Redirection) : Option Redirection := firstOf fd rs.reverse

def inode (lookup : List UInt8 → ℕ → Option ℕ) (r : Redirection) : Option ℕ := lookup r.2 r.1.mode

variable {lookup : List UInt8 → ℕ → Option ℕ} {ws : List (List UInt8)} {rs : List Redirection}

def Unwound (lookup : List UInt8 → ℕ → Option ℕ) (p : Slot) (s : Kernel) (ws : List (List UInt8))
    (rs : List Redirection) (final : Final) (log : List (List UInt8 × Bool)) : Prop :=
  log.map Prod.fst = (rs.map Prod.snd).reverse ∧
    ∃ t, final = .executes ws t ∧ ∀ fd,
      (∀ r, firstOf fd rs = some r → ∃ n, inode lookup r = some n ∧ Refers t p fd n) ∧
        (firstOf fd rs = none → t.ofile (p, fd) = s.ofile (p, fd) ∧ ∀ n, Refers s p fd n → Refers t p fd n)

theorem redirect_concat (tr : Tree) (rs : List Redirection) (r : Redirection) :
    tr.redirect (rs ++ [r]) = .redir (tr.redirect rs) r.2 r.1.mode r.1.fd := by
  simp [Tree.redirect]

theorem firstOf_concat (fd : Fin NOFILE) (rs : List Redirection) (r : Redirection) :
    firstOf fd (rs ++ [r]) = (firstOf fd rs).or (if descriptor r.1 = fd then some r else none) := by
  rw [firstOf, List.find?_append, firstOf]
  by_cases h : descriptor r.1 = fd <;> simp [h]

theorem run_redirect (lookup : List UInt8 → ℕ → Option ℕ) (rs : List Redirection) (h : Ready s p) (hw : ws ≠ [])
    (log : List (List UInt8 × Bool)) :
    ∃ final log', run lookup p (runcmd ((Tree.exec ws).redirect rs)) s log = .ok (final, log ++ log') ∧
      ((∀ e ∈ log', e.2 = true) → Unwound lookup p s ws rs final log') := by
  induction rs using List.reverseRecOn generalizing s log with
  | nil =>
    obtain ⟨w, ws, rfl⟩ := List.exists_cons_of_ne_nil hw
    exact ⟨.executes (w :: ws) s, [], by rw [List.append_nil]; rfl, fun _ => ⟨rfl, s, rfl, fun fd =>
      ⟨fun r hr => absurd hr (by simp [firstOf]), fun _ => ⟨rfl, fun n => id⟩⟩⟩⟩
  | append_singleton rs r ih =>
    obtain ⟨s1, x, t, hclose, hopen, hx⟩ := reopen_spec h r.1 (inode lookup r) r.1.mode
    rw [redirect_concat]
    simp only [runcmd, run, hclose, Outcome.ok_bind, inode] at hopen ⊢
    simp only [hopen, Outcome.ok_bind]
    rcases hx with hx | ⟨hx, ht⟩
    · rw [if_pos hx]
      exact ⟨_, [(r.2, false)], rfl, fun hall => absurd (hall _ List.mem_cons_self) (by simp)⟩
    · obtain ⟨final, log', hrun, hunw⟩ := ih ht.ready (log ++ [(r.2, true)])
      rw [if_neg hx, hrun]
      refine ⟨final, (r.2, true) :: log', by rw [List.append_assoc]; rfl, fun hall => ?_⟩
      obtain ⟨hlog, u, hfin, hfd⟩ := hunw fun e he => hall e (List.mem_cons_of_mem _ he)
      refine ⟨by simp [hlog], u, hfin, fun fd => ?_⟩
      rw [firstOf_concat]
      obtain ⟨hfirst, hrest⟩ := hfd fd
      cases hf : firstOf fd rs with
      | some r' =>
        refine ⟨fun q hq => hfirst q ?_, fun hq => absurd hq (by simp)⟩
        rw [hf]
        exact hq
      | none =>
        obtain ⟨hof, hkeep⟩ := hrest hf
        by_cases hd : descriptor r.1 = fd
        · subst hd
          refine ⟨fun q hq => ?_, fun hq => absurd hq (by simp)⟩
          simp only [if_true, Option.or, Option.some.injEq] at hq
          subst hq
          obtain ⟨n, hn, hr⟩ := ht.refers
          exact ⟨n, hn, hkeep n hr⟩
        · obtain ⟨hof', hkeep'⟩ := ht.others fd (Ne.symm hd)
          refine ⟨fun q hq => absurd hq (by simp [hd]), fun _ => ⟨hof.trans hof', fun n hn => hkeep n (hkeep' n hn)⟩⟩

def LeftToRight (lookup : List UInt8 → ℕ → Option ℕ) (p : Slot) (ws : List (List UInt8)) (rs : List Redirection)
    (final : Final) (log : List (List UInt8 × Bool)) : Prop :=
  log.map Prod.fst = rs.map Prod.snd ∧
    ∃ t, final = .executes ws t ∧ ∀ fd r, lastOf fd rs = some r → ∃ n, inode lookup r = some n ∧ Refers t p fd n

theorem firstOf_isSome (fd : Fin NOFILE) (rs : List Redirection) : (firstOf fd rs).isSome = (lastOf fd rs).isSome := by
  rw [Bool.eq_iff_iff]
  simp [firstOf, lastOf, List.find?_isSome]

theorem refers_unique {n m : ℕ} (h : Refers s p fd n) (h' : Refers s p fd m) : n = m := by
  obtain ⟨f, hf, -, rfl⟩ := h
  obtain ⟨g, hg, -, rfl⟩ := h'
  cases hf.symm.trans hg
  rfl

theorem Unwound.leftToRight_iff {final : Final} {log : List (List UInt8 × Bool)}
    (h : Unwound lookup p s ws rs final log) :
    LeftToRight lookup p ws rs final log ↔ (rs.map Prod.snd).reverse = rs.map Prod.snd ∧
      ∀ fd, (firstOf fd rs).map (inode lookup) = (lastOf fd rs).map (inode lookup) := by
  obtain ⟨hlog, t, rfl, hfd⟩ := h
  rw [LeftToRight, hlog]
  refine and_congr_right fun _ => ?_
  constructor
  · rintro ⟨t', he, hlast⟩ fd
    cases he
    have hsome := firstOf_isSome fd rs
    cases hl : lastOf fd rs with
    | none =>
      rw [hl] at hsome
      rw [Option.isNone_iff_eq_none.mp (Option.isSome_eq_false_iff.mp hsome)]
    | some r =>
      rw [hl] at hsome
      obtain ⟨r', hr'⟩ := Option.isSome_iff_exists.mp hsome
      obtain ⟨n, hn, hr⟩ := hlast fd r hl
      obtain ⟨m, hm, hr''⟩ := (hfd fd).1 r' hr'
      rw [hr', Option.map_some, Option.map_some, hn, hm, refers_unique hr hr'']
  · intro hsame
    refine ⟨t, rfl, fun fd r hr => ?_⟩
    have hfd' := hsame fd
    rw [hr, Option.map_some] at hfd'
    obtain ⟨r', hr', he⟩ := Option.map_eq_some_iff.mp hfd'
    rw [← he]
    exact (hfd fd).1 r' hr'

structure Simple (line : List UInt8) (ws : List (List UInt8)) (rs : List Redirection) : Prop where
  nul : 0 ∉ line
  derived : ∃ ts us rs1 rs2, tokens line = ts ++ us ∧ Redirs ts rs1 ∧ Args us ws rs2 ∧ rs = rs1 ++ rs2
  words : ws ≠ []
  fits : ws.length ≤ MAXARGS - 1

theorem Simple.parsecmd {line : List UInt8} {n : ℕ} (h : Simple line ws rs) (hn : 4 * line.length + 4 ≤ n) :
    ∃ cmd buf, parsecmd n line = .ok (cmd, buf) ∧ cmd.tree buf = (Tree.exec ws).redirect rs := by
  obtain ⟨ts, us, rs1, rs2, htok, hts, hus, rfl⟩ := h.derived
  have hd : Derives .line (tokens line) ((Tree.exec ws).redirect (rs1 ++ rs2)) := by
    have := Derives.line 0 (.pipe (.simple hts hus h.fits))
    rwa [List.replicate_zero, List.append_nil, ← htok] at this
  obtain ⟨cmd, ps, hp, -, htok, hden⟩ := hd.parses List.suffix_rfl (List.append_nil _).symm (by simp [Follow]) hn
  obtain ⟨buf, hbuf, htree⟩ := parsecmd_of_parseline hp htok hden h.nul
  exact ⟨cmd, buf, hbuf, htree⟩

structure Standard (s : Kernel) (p : Slot) : Prop where
  reached : ∃ init es, Run (Steps fileStep) (boot init) es s
  runs : s.state p = .runnable
  opened : ∀ fd : Fin NOFILE, fd.val ≤ 2 → s.ofile (p, fd) ≠ none

theorem Standard.ready (h : Standard s p) : Ready s p := by
  obtain ⟨init, es, hrun⟩ := h.reached
  exact ⟨run_files hrun, h.runs, h.opened _ (by decide), h.opened _ (by decide)⟩

/-- Redirections are unwound, so that they apply from left to right exactly when the files are the same read backwards
and the first redirection of each descriptor is to the same inode as its last. -/
theorem redirections_unwind {line : List UInt8} {n : ℕ} (lookup : List UInt8 → ℕ → Option ℕ) (h : Simple line ws rs)
    (hn : 4 * line.length + 4 ≤ n) (hs : Standard s p) :
    ∃ cmd buf final log, Shell.parsecmd n line = .ok (cmd, buf) ∧
      run lookup p (runcmd (cmd.tree buf)) s [] = .ok (final, log) ∧
      ((∀ e ∈ log, e.2 = true) → Unwound lookup p s ws rs final log ∧
        (LeftToRight lookup p ws rs final log ↔ (rs.map Prod.snd).reverse = rs.map Prod.snd ∧
          ∀ fd, (firstOf fd rs).map (inode lookup) = (lastOf fd rs).map (inode lookup))) := by
  obtain ⟨cmd, buf, hp, htree⟩ := h.parsecmd hn
  obtain ⟨final, log, hrun, hunw⟩ := run_redirect lookup rs hs.ready h.words []
  refine ⟨cmd, buf, final, log, hp, ?_, fun hall => ⟨hunw hall, (hunw hall).leftToRight_iff⟩⟩
  rw [htree, hrun]
  rfl

def consoles : List OpenFiles.Event := List.replicate 3 (.open firstProc (some 1) O_RDWR)

def letterInode (file : List UInt8) (_ : ℕ) : Option ℕ := file.head?.map UInt8.toNat

def twoFiles : List Redirection := [(.greater, bytes "b"), (.greater, bytes "c")]

theorem simple_two_files : Simple (bytes "a>b>c") [bytes "a"] twoFiles := by
  refine ⟨by decide, ⟨[], _, [], _, ?_, .nil, .cons _ (.cons _ _ (.cons _ _ .nil)) .nil, rfl⟩, by simp, by decide⟩
  decide

theorem standard_consoles : ∃ s, Standard s firstProc ∧ ∃ final,
    run letterInode firstProc (runcmd ((Tree.exec [bytes "a"]).redirect twoFiles)) s [] =
      .ok (final, [(bytes "c", true), (bytes "b", true)]) := by
  have h : (exec fileStep (boot firstProc) consoles).map (fun s => decide (s.state firstProc = .runnable ∧
      (∀ fd : Fin NOFILE, fd.val ≤ 2 → s.ofile (firstProc, fd) ≠ none) ∧
      (run letterInode firstProc (runcmd ((Tree.exec [bytes "a"]).redirect twoFiles)) s []).toOption.map Prod.snd =
        some [(bytes "c", true), (bytes "b", true)])) = some true := by
    decide +kernel
  obtain ⟨s, he, hs⟩ := Option.map_eq_some_iff.mp h
  obtain ⟨hst, hfd, hrun⟩ := of_decide_eq_true hs
  obtain ⟨⟨final, log⟩, hok, hlog⟩ := Option.map_eq_some_iff.mp hrun
  refine ⟨s, ⟨⟨firstProc, consoles, run_of_exec he⟩, hst, hfd⟩, final, ?_⟩
  cases hr : run letterInode firstProc (runcmd ((Tree.exec [bytes "a"]).redirect twoFiles)) s [] with
  | error e =>
    rw [hr] at hok
    cases hok
  | ok x =>
    rw [hr] at hok
    cases hok
    cases hlog
    rfl

theorem redirections_unwind_two_files : ∃ s cmd buf final log, Standard s firstProc ∧
    parsecmd 24 (bytes "a>b>c") = .ok (cmd, buf) ∧
    run letterInode firstProc (runcmd (cmd.tree buf)) s [] = .ok (final, log) ∧ (∀ e ∈ log, e.2 = true) ∧
    Unwound letterInode firstProc s [bytes "a"] twoFiles final log := by
  obtain ⟨s, hs, final', hrun'⟩ := standard_consoles
  obtain ⟨cmd', buf', hp', htree⟩ := simple_two_files.parsecmd (n := 24) (by decide)
  obtain ⟨cmd, buf, final, log, hp, hrun, hall⟩ :=
    redirections_unwind (n := 24) letterInode simple_two_files (by decide) hs
  cases hp'.symm.trans hp
  rw [htree] at hrun
  cases hrun'.symm.trans hrun
  exact ⟨s, cmd', buf', final', [(bytes "c", true), (bytes "b", true)], hs, hp, by rw [htree, hrun], by simp,
    (hall (by simp)).1⟩

/-- The line `a>b>c` opens `c` first. -/
theorem redirections_not_left_to_right :
    ¬ ∀ (lookup : List UInt8 → ℕ → Option ℕ) (line : List UInt8) (n : ℕ) (ws : List (List UInt8))
    (rs : List Redirection)
      (s : Kernel) (p : Slot), Simple line ws rs → 4 * line.length + 4 ≤ n → Standard s p →
      ∀ cmd buf final log, parsecmd n line = .ok (cmd, buf) →
        run lookup p (runcmd (cmd.tree buf)) s [] = .ok (final, log) → (∀ e ∈ log, e.2 = true) →
        LeftToRight lookup p ws rs final log := by
  intro h
  obtain ⟨s, hs, final, hrun⟩ := standard_consoles
  obtain ⟨cmd, buf, hp, htree⟩ := simple_two_files.parsecmd (n := 24) (by decide)
  have := h letterInode _ 24 _ _ s firstProc simple_two_files (by decide) hs cmd buf final _ hp (by rw [htree, hrun])
    (by simp)
  exact absurd this.1 (by decide)

end Xv6.Shell
