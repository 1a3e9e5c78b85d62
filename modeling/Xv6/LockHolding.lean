import Xv6.SleepWakeup

namespace Xv6.SleepWakeup

open Transition
open Function (update update_self update_of_ne)

variable {P K : Type} {lk l : Lock} {s t : Sys P K} {k : K} {p q : P} {x : Pc}

def Pc.holds (lk l : Lock) (x : Pc) : Prop := x.holdsLk = true ∧ l = lk ∨ x.holdsPtable = true ∧ l = .ptable

@[simp] def Pc.fits (lk : Lock) : Pc → Prop
  | .sleepAcquire | .sleepRelease | .wakeRelease | .wakeAcquire | .wakeup1 .before | .wakeupRelease .before =>
    lk ≠ .ptable
  | .producerAcquire .inside | .makeTrue .inside | .wakeup1 .inside => lk = .ptable
  | .wakeupAcquire .inside | .wakeupRelease .inside => False
  | .parked x | .resumed x => x.fits lk ∧ x.holdsLk = false ∧ x.holdsPtable = false ∧ x.switchedOut = false
  | _ => True

def cpuHolds (lk : Lock) (s : Sys P K) (k : K) (l : Lock) : Prop :=
  match s.proc k with
  | some p => (s.pc p).holds lk l
  | none => l = .ptable ∧ s.scanning k = true

structure Held (lk : Lock) (s : Sys P K) : Prop where
  inj : ∀ k k' p, s.proc k = some p → s.proc k' = some p → k = k'
  out : ∀ p, (s.pc p).switchedOut = true ↔ ∀ k, s.proc k ≠ some p
  fits : ∀ p, (s.pc p).fits lk
  locks : ∀ k l, s.locked l = some k ↔ cpuHolds lk s k l

theorem Held.locked_of_holds (h : Held lk s) (hk : s.proc k = some p) (hl : (s.pc p).holds lk l) : s.locked l =
    some k := by
  rw [h.locks, cpuHolds, hk]
  exact hl

theorem Pc.on_of_holds (h : x.holds lk l) : x.switchedOut = false := by
  cases x <;> first | rfl | simp [Pc.holds] at h

theorem Held.on_cpu (h : Held lk s) (hp : (s.pc p).switchedOut = false) : ∃ k, s.proc k = some p := by
  by_contra hn
  have := (h.out p).mpr (not_exists.mp hn)
  rw [hp] at this
  cases this

theorem Held.exclusive (h : Held lk s) (hp : (s.pc p).holds lk l) (hq : (s.pc q).holds lk l) : p = q := by
  obtain ⟨k, hk⟩ := h.on_cpu (Pc.on_of_holds hp)
  obtain ⟨k', hk'⟩ := h.on_cpu (Pc.on_of_holds hq)
  have h1 := h.locked_of_holds hk hp
  rw [h.locked_of_holds hk' hq, Option.some.injEq] at h1
  rw [h1, hk, Option.some.injEq] at hk'
  exact hk'

variable [DecidableEq P] [DecidableEq K]

variable {u : Sys P K}

theorem Held.move (h : Held lk s) (hk : s.proc k = some p) (hproc : u.proc = s.proc)
    (hscan : u.scanning = s.scanning) (hpc : u.pc = s.pc) (hout : x.switchedOut = false) (hfits : x.fits lk)
    (haway : ∀ l k', k' ≠ k → (u.locked l = some k' ↔ s.locked l = some k'))
    (hhere : ∀ l, u.locked l = some k ↔ x.holds lk l) : Held lk (goto u p x) := by
  refine ⟨?_, ?_, ?_, ?_⟩
  · rw [show (goto u p x).proc = s.proc from hproc]
    exact h.inj
  · intro q
    simp only [goto, hproc, hpc]
    by_cases hq : q = p
    · subst hq
      rw [update_self, hout]
      exact ⟨by rintro ⟨⟩, fun hn => absurd hk (hn k)⟩
    · rw [update_of_ne hq]
      exact h.out q
  · intro q
    simp only [goto, hpc]
    by_cases hq : q = p
    · rw [hq, update_self]
      exact hfits
    · rw [update_of_ne hq]
      exact h.fits q
  · intro k' l
    simp only [goto, cpuHolds, hproc, hscan, hpc]
    by_cases hk' : k' = k
    · subst hk'
      rw [hhere, hk]
      simp only [update_self]
    · rw [haway l k' hk', h.locks, cpuHolds]
      cases hq : s.proc k' with
      | none => exact Iff.rfl
      | some q =>
        have hne : q ≠ p := by
          rintro rfl
          exact hk' (h.inj k' k q hq hk)
        simp only [update_of_ne hne]

theorem Held.step (h : Held lk s) (hk : s.proc k = some p) (hproc : u.proc = s.proc)
    (hscan : u.scanning = s.scanning) (hpc : u.pc = s.pc) (hlocked : u.locked = s.locked)
    (hout : x.switchedOut = false) (hfits : x.fits lk) (hx : ∀ l, x.holds lk l ↔ (s.pc p).holds lk l) :
    Held lk (goto u p x) := by
  apply h.move hk hproc hscan hpc hout hfits
  · intro l k' _
    rw [hlocked]
  · intro l
    rw [hlocked, hx, h.locks, cpuHolds, hk]

theorem Held.acquire (h : Held lk s) (hk : s.proc k = some p) (ha : acquire s k l = some (.ok u))
    (hout : x.switchedOut = false) (hfits : x.fits lk) (hx : ∀ l', x.holds lk l' ↔ (s.pc p).holds lk l' ∨ l' = l) :
    Held lk (goto u p x) := by
  rw [SleepWakeup.acquire] at ha
  split at ha
  · next hl =>
    cases ha
    apply h.move (u := setLock s l (some k)) hk rfl rfl rfl hout hfits
    · intro l' k' hk'
      by_cases he : l' = l
      · subst he
        simp only [setLock, update_self, hl, Option.some.injEq, reduceCtorEq, iff_false]
        exact fun hkk => hk' hkk.symm
      · simp only [setLock, update_of_ne he]
    · intro l'
      rw [hx]
      by_cases he : l' = l
      · subst he
        simp [setLock]
      · simp only [setLock, update_of_ne he, he, or_false]
        rw [h.locks, cpuHolds, hk]
  · split_ifs at ha
    cases ha

theorem Held.release (h : Held lk s) (hk : s.proc k = some p) (ha : release s k l = .ok u)
    (hout : x.switchedOut = false) (hfits : x.fits lk) (hx : ∀ l', x.holds lk l' ↔ (s.pc p).holds lk l' ∧ l' ≠ l) :
    Held lk (goto u p x) := by
  rw [SleepWakeup.release] at ha
  split_ifs at ha with hl
  cases ha
  apply h.move (u := setLock s l none) hk rfl rfl rfl hout hfits
  · intro l' k' hk'
    by_cases he : l' = l
    · subst he
      simp only [setLock, update_self, hl, Option.some.injEq, reduceCtorEq, false_iff]
      exact fun hkk => hk' hkk.symm
    · simp only [setLock, update_of_ne he]
  · intro l'
    rw [hx]
    by_cases he : l' = l
    · subst he
      simp [setLock]
    · simp only [setLock, update_of_ne he, he, ne_eq, not_false_eq_true, and_true]
      rw [h.locks, cpuHolds, hk]

theorem Held.swtch (h : Held lk s) (hk : s.proc k = some p) (hproc : u.proc = s.proc)
    (hscan : u.scanning = s.scanning) (hpc : u.pc = s.pc) (hout : x.switchedOut = true) (hfits : x.fits lk)
    (haway : ∀ l k', k' ≠ k → (u.locked l = some k' ↔ s.locked l = some k'))
    (hhere : ∀ l, u.locked l = some k ↔ l = .ptable) : Held lk (swtch u k p x) := by
  have hsome : ∀ k' q, update s.proc k none k' = some q ↔ k' ≠ k ∧ s.proc k' = some q := by
    intro k' q
    by_cases hk' : k' = k
    · simp [hk']
    · simp [hk']
  refine ⟨?_, ?_, ?_, ?_⟩
  · intro k1 k2 q h1 h2
    simp only [SleepWakeup.swtch, SleepWakeup.goto, hproc, hsome] at h1 h2
    exact h.inj k1 k2 q h1.2 h2.2
  · intro q
    simp only [SleepWakeup.swtch, SleepWakeup.goto, hproc, hpc, ne_eq, hsome, not_and]
    by_cases hq : q = p
    · subst hq
      rw [update_self, hout]
      exact ⟨fun _ k' hne hk' => hne (h.inj k' k q hk' hk), fun _ => rfl⟩
    · rw [update_of_ne hq, h.out q]
      constructor
      · exact fun hn k' _ => hn k'
      · intro hn k' hk'
        refine hn k' ?_ hk'
        rintro rfl
        rw [hk, Option.some.injEq] at hk'
        exact hq hk'.symm
  · intro q
    simp only [SleepWakeup.swtch, SleepWakeup.goto, hpc]
    by_cases hq : q = p
    · rw [hq, update_self]
      exact hfits
    · rw [update_of_ne hq]
      exact h.fits q
  · intro k' l
    simp only [SleepWakeup.swtch, SleepWakeup.goto, cpuHolds, hproc, hscan, hpc]
    by_cases hk' : k' = k
    · subst hk'
      simp only [update_self, and_true]
      exact hhere l
    · simp only [update_of_ne hk']
      rw [haway l k' hk', h.locks, cpuHolds]
      cases hq : s.proc k' with
      | none => exact Iff.rfl
      | some q =>
        have hne : q ≠ p := by
          rintro rfl
          exact hk' (h.inj k' k q hq hk)
        simp only [update_of_ne hne]

omit [DecidableEq K] in
theorem thenGoto_ok {r : Outcome (Sys P K)} (h : thenGoto p x r = .ok t) : ∃ u, r = .ok u ∧ t = goto u p x := by
  cases r with
  | error e => cases h
  | ok u =>
    cases h
    exact ⟨u, rfl, rfl⟩

theorem acquire_goto {l : Lock} (h : (acquire s k l).map (thenGoto p x) = some (.ok t)) :
    ∃ u, acquire s k l = some (.ok u) ∧ t = goto u p x := by
  obtain ⟨r, hr, he⟩ := Option.map_eq_some_iff.mp h
  obtain ⟨u, rfl, rfl⟩ := thenGoto_ok he
  exact ⟨u, hr, rfl⟩

omit [DecidableEq P] in
theorem Held.wakeup_apart (h : Held lk s) (hk : s.proc k = some p) (hp : s.pc p = .wakeupAcquire .before)
    (ha : SleepWakeup.acquire s k .ptable = some (.ok u)) : lk ≠ .ptable := by
  rintro rfl
  have hl : s.locked .ptable = some k := h.locked_of_holds hk (by rw [hp]; exact Or.inl ⟨rfl, rfl⟩)
  rw [SleepWakeup.acquire, hl] at ha
  simp at ha

theorem procStep_held {b : Bool} (h : Held lk s) (hk : s.proc k = some p) (hs : procStep lk s k p b = some (.ok t)) :
    Held lk t := by
  have hfits := h.fits p
  rw [procStep] at hs
  split at hs <;> rename_i hp <;> rw [hp] at hfits
  · obtain ⟨u, hu, rfl⟩ := acquire_goto hs
    exact h.acquire hk hu rfl trivial fun l' => by simp [hp, Pc.holds]
  · cases hs
    split_ifs
    · exact h.step hk rfl rfl rfl rfl rfl trivial fun l' => by simp [hp, Pc.holds]
    · rw [sleepStart]
      split_ifs with hlk
      · exact h.step hk rfl rfl rfl rfl rfl trivial fun l' => by simp [hp, hlk, Pc.holds]
      · exact h.step hk rfl rfl rfl rfl rfl hlk fun l' => by simp [hp, Pc.holds]
  · obtain ⟨u, hu, rfl⟩ := acquire_goto hs
    exact h.acquire hk hu rfl hfits fun l' => by simp [hp, Pc.holds]
  · obtain ⟨u, hu, rfl⟩ := thenGoto_ok (Option.some.inj hs)
    refine h.release hk hu rfl trivial fun l' => ?_
    cases l' <;> cases lk <;> simp_all [Pc.holds]
  · cases hs
    exact h.step hk rfl rfl rfl rfl rfl trivial fun l' => by simp [hp, Pc.holds]
  · cases hs
    exact h.step hk rfl rfl rfl rfl rfl trivial fun l' => by simp [hp, Pc.holds]
  · have hlocks : ∀ l, s.locked l = some k ↔ l = .ptable := by
      intro l
      rw [h.locks, cpuHolds, hk]
      simp [hp, Pc.holds]
    simp only [sched] at hs
    split_ifs at hs <;> cases hs
    exact h.swtch (x := .asleep) hk rfl rfl rfl rfl trivial (fun _ _ _ => Iff.rfl) hlocks
  · cases hs
    rw [sleepEnd]
    split_ifs with hlk
    · exact h.step hk rfl rfl rfl rfl rfl trivial fun l' => by simp [hp, hlk, Pc.holds]
    · exact h.step hk rfl rfl rfl rfl rfl hlk fun l' => by simp [hp, Pc.holds]
  · obtain ⟨u, hu, rfl⟩ := thenGoto_ok (Option.some.inj hs)
    refine h.release hk hu rfl hfits fun l' => ?_
    cases l' <;> simp [hp, Pc.holds]
  · obtain ⟨u, hu, rfl⟩ := acquire_goto hs
    exact h.acquire hk hu rfl trivial fun l' => by simp [hp, Pc.holds]
  · cases hs
    exact h.step hk rfl rfl rfl rfl rfl trivial fun l' => by simp [hp, Pc.holds]
  · obtain ⟨u, hu, rfl⟩ := thenGoto_ok (Option.some.inj hs)
    exact h.release hk hu rfl trivial fun l' => by simp [hp, Pc.holds]
  · next m =>
    obtain ⟨u, hu, rfl⟩ := acquire_goto hs
    refine h.acquire hk hu rfl ?_ fun l' => by simp [hp, Pc.holds]
    cases m <;> exact hfits
  · next m =>
    cases hs
    cases m <;> exact h.step hk rfl rfl rfl rfl rfl hfits fun l' => by simp [hp, Pc.holds]
  · next m =>
    obtain ⟨u, hu, rfl⟩ := acquire_goto hs
    cases m with
    | before =>
      refine h.acquire hk hu rfl (h.wakeup_apart hk hp hu) fun l' => by simp [hp, Pc.holds]
    | after => exact h.acquire hk hu rfl trivial fun l' => by simp [hp, Pc.holds]
    | inside => exact hfits.elim
  · next m =>
    cases hs
    cases m with
    | before => exact h.step hk rfl rfl rfl rfl rfl hfits fun l' => by simp [hp, Pc.holds]
    | after | inside => exact h.step hk rfl rfl rfl rfl rfl trivial fun l' => by simp [hp, Pc.holds]
  · next m =>
    obtain ⟨u, hu, rfl⟩ := thenGoto_ok (Option.some.inj hs)
    cases m with
    | before =>
      refine h.release hk hu rfl trivial fun l' => ?_
      cases l' <;> cases lk <;> simp_all [Pc.holds]
    | after => exact h.release hk hu rfl trivial fun l' => by simp [hp, Pc.holds]
    | inside => exact hfits.elim
  · next m =>
    obtain ⟨u, hu, rfl⟩ := thenGoto_ok (Option.some.inj hs)
    cases m <;> exact h.release hk hu rfl trivial fun l' => by simp [hp, Pc.holds]
  · next x =>
    obtain ⟨u, hu, rfl⟩ := thenGoto_ok (Option.some.inj hs)
    obtain ⟨hx, h1, h2, h3⟩ := hfits
    refine h.release hk hu h3 hx fun l' => ?_
    rw [hp]
    simp only [Pc.holds, h1, h2]
    simp
  all_goals cases hs

theorem start_held (h : Held lk s) (hx : x.switchedOut = false) (hfits : x.fits lk)
    (hholds : ∀ l, ¬ x.holds lk l) (hs : start s k x = some (.ok t)) : Held lk t := by
  rw [start] at hs
  split at hs
  next p hk =>
    split_ifs at hs with hp
    cases hs
    refine h.step hk rfl rfl rfl rfl hx hfits fun l => ⟨fun hh => absurd hh (hholds l), fun hh => ?_⟩
    simp [hp, Pc.holds] at hh
  next => cases hs

theorem preempt_held (h : Held lk s) (hk : s.proc k = some p) (hs : preempt s k p = some (.ok t)) : Held lk t := by
  rw [preempt] at hs
  split_ifs at hs with hfree
  obtain ⟨r, hr, he⟩ := Option.map_eq_some_iff.mp hs
  rw [acquire] at hr
  split at hr
  next hl =>
    cases hr
    cases he
    refine h.swtch hk rfl rfl rfl rfl ⟨h.fits p, hfree⟩ ?_ ?_
    · intro l k' hk'
      by_cases he : l = .ptable
      · subst he
        simp only [setState, setLock, update_self, hl, Option.some.injEq, reduceCtorEq, iff_false]
        exact fun hkk => hk' hkk.symm
      · simp only [setState, setLock, update_of_ne he]
    · intro l
      by_cases he : l = .ptable
      · simp [he, setState, setLock]
      · simp only [setState, setLock, update_of_ne he, he, iff_false]
        rw [h.locks, cpuHolds, hk]
        simp only [Pc.holds, hfree.1, hfree.2.1]
        simp
  next =>
    split_ifs at hr
    cases hr
    cases he

theorem switchIn_spec {y : Pc} (h : y.switchIn = some x) (hf : y.fits lk) :
    y.switchedOut = true ∧ x.switchedOut = false ∧ x.fits lk ∧ (∀ l, x.holds lk l ↔ l = .ptable) := by
  cases y <;> cases h
  · exact ⟨rfl, rfl, trivial, fun l => by simp [Pc.holds]⟩
  · exact ⟨rfl, rfl, hf, fun l => by simp [Pc.holds]⟩

theorem dispatch_held (h : Held lk s) (hs : dispatch s k p = some (.ok t)) : Held lk t := by
  rw [dispatch] at hs
  split_ifs at hs with hidle
  obtain ⟨hnone, hscan, -⟩ := hidle
  obtain ⟨x, hx, he⟩ := Option.map_eq_some_iff.mp hs
  cases he
  obtain ⟨hout, hin, hfits, hholds⟩ := switchIn_spec hx (h.fits p)
  have hoff := (h.out p).mp hout
  have hproc : ∀ k' q, update s.proc k (some p) k' = some q ↔ k' = k ∧ q = p ∨ s.proc k' = some q := by
    intro k' q
    by_cases hk' : k' = k
    · simp [hk', hnone, eq_comm]
    · simp [hk']
  refine ⟨?_, ?_, ?_, ?_⟩
  · intro k1 k2 q h1 h2
    simp only [goto, setState, hproc] at h1 h2
    rcases h1 with ⟨rfl, rfl⟩ | h1
    · rcases h2 with ⟨rfl, -⟩ | h2
      · rfl
      · exact absurd h2 (hoff k2)
    · rcases h2 with ⟨rfl, rfl⟩ | h2
      · exact absurd h1 (hoff k1)
      · exact h.inj k1 k2 q h1 h2
  · intro q
    simp only [goto, setState, ne_eq, hproc, not_or]
    by_cases hq : q = p
    · subst hq
      rw [update_self, hin]
      exact ⟨by rintro ⟨⟩, fun hn => absurd ⟨rfl, rfl⟩ (hn k).1⟩
    · rw [update_of_ne hq, h.out q]
      exact ⟨fun hn k' => ⟨fun he => hq he.2, hn k'⟩, fun hn k' => (hn k').2⟩
  · intro q
    simp only [goto, setState]
    by_cases hq : q = p
    · rw [hq, update_self]
      exact hfits
    · rw [update_of_ne hq]
      exact h.fits q
  · intro k' l
    simp only [goto, setState, cpuHolds]
    rw [h.locks, cpuHolds]
    by_cases hk' : k' = k
    · subst hk'
      simp only [update_self, hnone, hscan, and_true]
      exact (hholds l).symm
    · simp only [update_of_ne hk']
      cases hq : s.proc k' with
      | none => exact Iff.rfl
      | some q =>
        have hne : q ≠ p := by
          rintro rfl
          exact hoff k' hq
        simp only [update_of_ne hne]

omit [DecidableEq P] in
theorem Held.scheduler {b : Bool} {o : Option K} (h : Held lk s) (hk : s.proc k = none)
    (haway : ∀ k', k' ≠ k → (o = some k' ↔ s.locked .ptable = some k')) (hhere : o = some k ↔ b = true) :
    Held lk { setLock s .ptable o with scanning := update s.scanning k b } := by
  refine ⟨h.inj, h.out, h.fits, fun k' l => ?_⟩
  simp only [setLock, cpuHolds]
  by_cases hk' : k' = k
  · subst hk'
    simp only [hk, update_self]
    by_cases hl : l = .ptable
    · subst hl
      simp only [update_self, true_and]
      exact hhere
    · simp only [update_of_ne hl, hl, false_and]
      rw [h.locks, cpuHolds, hk]
      simp only [hl, false_and]
  · simp only [update_of_ne hk']
    rw [← cpuHolds, ← h.locks]
    by_cases hl : l = .ptable
    · subst hl
      simp only [update_self]
      exact haway k' hk'
    · simp only [update_of_ne hl]

omit [DecidableEq P] in
theorem scan_held (h : Held lk s) (hs : scan s k = some (.ok t)) : Held lk t := by
  rw [scan] at hs
  split_ifs at hs with hidle
  obtain ⟨r, hr, he⟩ := Option.map_eq_some_iff.mp hs
  rw [acquire] at hr
  split at hr
  next hl =>
    cases hr
    cases he
    refine h.scheduler hidle.1 (fun k' hk' => ?_) ⟨fun _ => rfl, fun _ => rfl⟩
    rw [hl, Option.some.injEq]
    exact ⟨fun he => absurd he.symm hk', by rintro ⟨⟩⟩
  next =>
    split_ifs at hr
    cases hr
    cases he

omit [DecidableEq P] in
theorem endScan_held (h : Held lk s) (hs : endScan s k = some (.ok t)) : Held lk t := by
  rw [endScan] at hs
  split_ifs at hs with hidle
  rw [release] at hs
  split_ifs at hs with hl
  · cases hs
    refine h.scheduler hidle.1 (fun k' hk' => ?_) ⟨by rintro ⟨⟩, by rintro ⟨⟩⟩
    rw [hl, Option.some.injEq]
    exact ⟨by rintro ⟨⟩, fun he => absurd he.symm hk'⟩
  · cases hs

theorem step_held {e : Event P K} (h : Held lk s) (hs : step lk s e = some (.ok t)) : Held lk t := by
  cases e with
  | consume k => exact start_held (x := .consumerAcquire) h rfl trivial (fun l => by simp [Pc.holds]) hs
  | produce k m =>
    simp only [step] at hs
    split_ifs at hs with hm
    refine start_held h rfl ?_ (fun l => by simp [Pc.holds]) hs
    cases m with
    | before | after => trivial
    | inside => simpa using hm
  | run k b =>
    simp only [step] at hs
    split at hs
    next p hk => exact procStep_held h hk hs
    next => cases hs
  | preempt k =>
    simp only [step] at hs
    split at hs
    next p hk => exact preempt_held h hk hs
    next => cases hs
  | scan k => exact scan_held h hs
  | dispatch k p => exact dispatch_held h hs
  | endScan k => exact endScan_held h hs

omit [DecidableEq P] [DecidableEq K] in
theorem boot_held (lk : Lock) (cond : Bool) : Held lk (boot cond : Sys P K) := by
  refine ⟨fun k l p hk => ?_, fun p => ?_, fun p => ?_, fun k l => ?_⟩
  · cases hk
  · simp [boot]
  · simp [boot]
  · simp [boot, cpuHolds]

end Xv6.SleepWakeup
