import Xv6.LockHolding

namespace Xv6.SleepWakeup

open Transition
open Function (update_self update_of_ne)

variable {P K : Type} {lk l : Lock} {s t : Sys P K} {k : K} {p q : P} {x : Pc}

@[simp] def Pc.committed : Pc → Bool
  | .sleepAcquire | .sleepRelease | .sleepChan | .sleepState | .sched => true
  | _ => false

@[simp] def Pc.pending : Pc → Bool
  | .wakeupAcquire _ | .wakeup1 _ | .producerRelease .after => true
  | .parked x | .resumed x => x.pending
  | _ => false

structure Quiet (s : Sys P K) : Prop where
  sleeping : ∀ p, s.state p = .sleeping → s.chan p = true ∧ (s.pc p = .sched ∨ s.pc p = .asleep)
  armed : ∀ p, s.pc p = .sleepState → s.chan p = true
  tested : ∀ p, s.pc p = .sleepAcquire ∨ s.pc p = .sleepRelease → s.cond = false
  awaited : ∀ p, (s.pc p).committed = true ∨ s.pc p = .asleep ∧ s.state p = .sleeping →
    s.cond = false ∨ ∃ q, (s.pc q).pending = true

section

variable [DecidableEq P]

theorem Quiet.move {u : Sys P K} (h : Quiet s) (hpc : u.pc = s.pc) (hstate : ∀ r, r ≠ p → u.state r = s.state r)
    (hchan : ∀ r, r ≠ p → u.chan r = s.chan r) (hcond : u.cond = true → s.cond = true)
    (hsleep : u.state p = .sleeping → u.chan p = true ∧ (x = .sched ∨ x = .asleep))
    (harmed : x = .sleepState → u.chan p = true)
    (htested : x = .sleepAcquire ∨ x = .sleepRelease → u.cond = false)
    (hawait : x.committed = true ∨ x = .asleep ∧ u.state p = .sleeping →
      u.cond = false ∨ (s.pc p).committed = true ∨ s.pc p = .asleep ∧ s.state p = .sleeping)
    (hpend : (s.pc p).pending = true → x.pending = true) : Quiet (goto u p x) := by
  have hself : (goto u p x).pc p = x := update_self ..
  have hother : ∀ r, r ≠ p → (goto u p x).pc r = s.pc r := by
    intro r hr
    simp only [goto, hpc, update_of_ne hr]
  have hfalse : s.cond = false → u.cond = false := by
    intro hs
    rw [Bool.eq_false_iff] at hs ⊢
    exact fun hu => hs (hcond hu)
  have hawaited : s.cond = false ∨ (∃ q, (s.pc q).pending = true) →
      u.cond = false ∨ ∃ q, ((goto u p x).pc q).pending = true := by
    rintro (hs | ⟨q, hq⟩)
    · exact Or.inl (hfalse hs)
    · refine Or.inr ⟨q, ?_⟩
      by_cases he : q = p
      · rw [he, hself]
        exact hpend (he ▸ hq)
      · rw [hother q he]
        exact hq
  refine ⟨fun r hr => ?_, fun r hr => ?_, fun r hr => ?_, fun r hr => ?_⟩ <;> by_cases he : r = p
  · subst he
    rw [hself]
    exact hsleep hr
  · rw [hother r he]
    simp only [goto, hstate r he] at hr
    simp only [goto, hchan r he]
    exact h.sleeping r hr
  · subst he
    rw [hself] at hr
    exact harmed hr
  · rw [hother r he] at hr
    simp only [goto, hchan r he]
    exact h.armed r hr
  · subst he
    rw [hself] at hr
    exact htested hr
  · rw [hother r he] at hr
    exact hfalse (h.tested r hr)
  · subst he
    rw [hself] at hr
    rcases hawait hr with hc | hc
    · exact Or.inl hc
    · exact hawaited (h.awaited r hc)
  · rw [hother r he] at hr
    simp only [goto, hstate r he] at hr
    exact hawaited (h.awaited r hr)

theorem Quiet.step {u : Sys P K} (h : Quiet s) (hpc : u.pc = s.pc) (hstate : u.state = s.state)
    (hchan : ∀ r, r ≠ p → u.chan r = s.chan r) (hcond : u.cond = true → s.cond = true)
    (hawake : s.pc p ≠ .sched ∧ s.pc p ≠ .asleep) (harmed : x = .sleepState → u.chan p = true)
    (htested : x = .sleepAcquire ∨ x = .sleepRelease → u.cond = false) (hx : x ≠ .asleep)
    (hawait : x.committed = true → u.cond = false ∨ (s.pc p).committed = true)
    (hpend : (s.pc p).pending = true → x.pending = true) : Quiet (goto u p x) := by
  apply h.move hpc (fun r _ => by rw [hstate]) hchan hcond _ harmed htested _ hpend
  · intro hs
    rw [hstate] at hs
    rcases (h.sleeping p hs).2 with he | he
    · exact absurd he hawake.1
    · exact absurd he hawake.2
  · rintro (hc | hc)
    · exact (hawait hc).imp_right Or.inl
    · exact absurd hc.1 hx

theorem Quiet.pass {u : Sys P K} (h : Quiet s) (hpc : u.pc = s.pc) (hstate : u.state = s.state)
    (hchan : ∀ r, r ≠ p → u.chan r = s.chan r) (hcond : u.cond = true → s.cond = true)
    (hawake : s.pc p ≠ .sched ∧ s.pc p ≠ .asleep) (hx : x.committed = false ∧ x ≠ .asleep)
    (hpend : (s.pc p).pending = true → x.pending = true) : Quiet (goto u p x) := by
  apply h.step hpc hstate hchan hcond hawake _ _ hx.2 _ hpend
  · rintro rfl
    cases hx.1
  · rintro (rfl | rfl) <;> cases hx.1
  · intro hc
    rw [hx.1] at hc
    cases hc

end

section

variable [DecidableEq K]

theorem acquire_frame {u : Sys P K} (h : acquire s k l = some (.ok u)) : u = setLock s l (some k) := by
  rw [acquire] at h
  split at h
  · cases h
    rfl
  · split_ifs at h
    cases h

theorem release_frame {u : Sys P K} (h : release s k l = .ok u) : u = setLock s l none := by
  rw [release] at h
  split_ifs at h
  cases h
  rfl

end

variable [DecidableEq P]

theorem makeTrue_quiet {m : Mode} (h : Quiet s) (hh : Held lk s) (hp : s.pc p = .makeTrue m) :
    Quiet (goto { s with cond := true } p (afterTrue m)) := by
  have hpend : (afterTrue m).pending = true := by cases m <;> rfl
  have hself : (goto { s with cond := true } p (afterTrue m)).pc p = afterTrue m := update_self ..
  have hother : ∀ r, r ≠ p → (goto { s with cond := true } p (afterTrue m)).pc r = s.pc r := by
    intro r hr
    simp only [goto, update_of_ne hr]
  have hne : ∀ y : Pc, y.pending = false → afterTrue m ≠ y := by
    rintro y hy rfl
    rw [hpend] at hy
    cases hy
  have hholds : (s.pc p).holds lk lk := by
    rw [hp]
    exact Or.inl ⟨rfl, rfl⟩
  refine ⟨fun r hr => ?_, fun r hr => ?_, fun r hr => ?_, fun _ _ => Or.inr ⟨p, by rw [hself]; exact hpend⟩⟩
  · have hs := h.sleeping r hr
    have : r ≠ p := by
      rintro rfl
      rw [hp] at hs
      rcases hs.2 with he | he <;> cases he
    rw [hother r this]
    exact hs
  · have : r ≠ p := by
      rintro rfl
      rw [hself] at hr
      exact hne _ rfl hr
    rw [hother r this] at hr
    exact h.armed r hr
  · have hrp : r ≠ p := by
      rintro rfl
      rw [hself] at hr
      rcases hr with hr | hr
      · exact hne _ rfl hr
      · exact hne _ rfl hr
    rw [hother r hrp] at hr
    refine absurd (hh.exclusive ?_ hholds) hrp
    rcases hr with hr | hr <;> rw [hr] <;> exact Or.inl ⟨rfl, rfl⟩

theorem wakeup1_quiet {m : Mode} (h : Quiet s) (hh : Held lk s) (hp : s.pc p = .wakeup1 m) :
    Quiet (goto (wakeup1 s) p (afterWakeup1 m)) := by
  have hholds : (s.pc p).holds lk .ptable := by
    have hfits := hh.fits p
    rw [hp] at hfits ⊢
    cases m with
    | before | after => exact Or.inr ⟨rfl, rfl⟩
    | inside => exact Or.inl ⟨rfl, hfits.symm⟩
  have hnone : ∀ r, (wakeup1 s).state r ≠ .sleeping := by
    intro r hr
    simp only [wakeup1] at hr
    split_ifs at hr with hs
    exact hs ⟨hr, (h.sleeping r hr).1⟩
  have hself : (goto (wakeup1 s) p (afterWakeup1 m)).pc p = afterWakeup1 m := update_self ..
  have hplain : (afterWakeup1 m).committed = false ∧ afterWakeup1 m ≠ .sleepState := by cases m <;> simp
  have hother : ∀ r, r ≠ p → (goto (wakeup1 s) p (afterWakeup1 m)).pc r = s.pc r := by
    intro r hr
    simp only [goto, wakeup1, update_of_ne hr]
  have hback : ∀ r y, y.committed = true → (goto (wakeup1 s) p (afterWakeup1 m)).pc r = y → s.pc r = y ∧ r ≠ p := by
    intro r y hy hr
    have hrp : r ≠ p := by
      rintro rfl
      rw [hself] at hr
      rw [hr, hy] at hplain
      cases hplain.1
    rw [hother r hrp] at hr
    exact ⟨hr, hrp⟩
  refine ⟨fun r hr => absurd hr (hnone r), fun r hr => ?_, fun r hr => ?_, fun r hr => ?_⟩
  · exact h.armed r (hback r _ rfl hr).1
  · rcases hr with hr | hr
    · exact h.tested r (Or.inl (hback r _ rfl hr).1)
    · exact h.tested r (Or.inr (hback r _ rfl hr).1)
  · rcases hr with hr | hr
    · obtain ⟨hr', hrp⟩ := hback r _ hr rfl
      left
      by_cases hpt : (s.pc r).holdsPtable = true
      · exact absurd (hh.exclusive (Or.inr ⟨hpt, rfl⟩) hholds) hrp
      · apply h.tested r
        rw [← hr'] at hr
        cases hx : s.pc r <;> simp [hx] at hr hpt ⊢
    · exact absurd hr.2 (hnone r)

variable [DecidableEq K]

theorem acquire_goto_eq (hs : (acquire s k l).map (thenGoto p x) = some (.ok t)) :
    t = goto (setLock s l (some k)) p x := by
  obtain ⟨u, hu, rfl⟩ := acquire_goto hs
  rw [acquire_frame hu]

theorem release_goto_eq (hs : some (thenGoto p x (release s k l)) = some (.ok t)) :
    t = goto (setLock s l none) p x := by
  obtain ⟨u, hu, rfl⟩ := thenGoto_ok (Option.some.inj hs)
  rw [release_frame hu]

theorem procStep_quiet {b : Bool} (h : Quiet s) (hh : Held lk s) (hs : procStep lk s k p b =
    some (.ok t)) : Quiet t := by
  rw [procStep] at hs
  split at hs <;> rename_i hp
  · cases acquire_goto_eq hs
    exact h.pass rfl rfl (fun _ _ => rfl) id (by simp [hp]) (by simp) (by simp [hp])
  · cases hs
    split_ifs with hc
    · exact h.pass rfl rfl (fun _ _ => rfl) id (by simp [hp]) (by simp) (by simp [hp])
    · have hfalse : s.cond = false := by simpa using hc
      rw [sleepStart]
      split_ifs
      all_goals
        refine h.step rfl rfl (fun _ _ => rfl) id ?_ ?_ (fun _ => hfalse) ?_ (fun _ => Or.inl hfalse) ?_ <;> simp [hp]
  · cases acquire_goto_eq hs
    exact h.step rfl rfl (fun _ _ => rfl) id (by simp [hp]) (by simp) (fun _ => h.tested p (Or.inl hp)) (by simp)
      (fun _ => Or.inr (by simp [hp])) (by simp [hp])
  · cases release_goto_eq hs
    exact h.step rfl rfl (fun _ _ => rfl) id (by simp [hp]) (by simp) (by simp) (by simp)
      (fun _ => Or.inr (by simp [hp])) (by simp [hp])
  · cases hs
    exact h.step rfl rfl (fun r hr => update_of_ne hr ..) id (by simp [hp])
      (fun _ => update_self ..) (by simp) (by simp) (fun _ => Or.inr (by simp [hp])) (by simp [hp])
  · cases hs
    exact h.move rfl (fun r hr => update_of_ne hr ..) (fun _ _ => rfl) id
      (fun _ => ⟨h.armed p hp, Or.inl rfl⟩) (by simp) (by simp) (fun _ => Or.inr (Or.inl (by simp [hp]))) (by simp [hp])
  · simp only [sched] at hs
    split_ifs at hs <;> cases hs
    exact h.move (x := .asleep) rfl (fun _ _ => rfl) (fun _ _ => rfl) id
      (fun hs => ⟨(h.sleeping p hs).1, Or.inr rfl⟩) (by simp) (by simp) (fun _ => Or.inr (Or.inl (by simp [hp])))
      (by simp [hp])
  · cases hs
    rw [sleepEnd]
    split_ifs
    all_goals exact h.pass rfl rfl (fun r hr => update_of_ne hr ..) id (by simp [hp]) (by simp) (by simp [hp])
  · cases release_goto_eq hs
    exact h.pass rfl rfl (fun _ _ => rfl) id (by simp [hp]) (by simp) (by simp [hp])
  · cases acquire_goto_eq hs
    exact h.pass rfl rfl (fun _ _ => rfl) id (by simp [hp]) (by simp) (by simp [hp])
  · cases hs
    exact h.pass rfl rfl (fun _ _ => rfl) (fun hc => (Bool.and_eq_true _ _ ▸ hc).1) (by simp [hp]) (by simp)
        (by simp [hp])
  · cases release_goto_eq hs
    exact h.pass rfl rfl (fun _ _ => rfl) id (by simp [hp]) (by simp) (by simp [hp])
  · cases acquire_goto_eq hs
    exact h.pass rfl rfl (fun _ _ => rfl) id (by simp [hp]) (by simp) (by simp [hp])
  · cases hs
    exact makeTrue_quiet h hh hp
  · cases acquire_goto_eq hs
    exact h.pass rfl rfl (fun _ _ => rfl) id (by simp [hp]) (by simp) (by simp [hp])
  · cases hs
    exact wakeup1_quiet h hh hp
  · next m =>
    cases release_goto_eq hs
    cases m <;> exact h.pass rfl rfl (fun _ _ => rfl) id (by simp [hp]) (by simp) (by simp [hp])
  · next m =>
    cases release_goto_eq hs
    cases m <;> exact h.pass rfl rfl (fun _ _ => rfl) id (by simp [hp]) (by simp) (by simp [hp])
  · next x =>
    cases release_goto_eq hs
    have hfits := hh.fits p
    rw [hp] at hfits
    obtain ⟨-, h1, h2, h3⟩ := hfits
    refine h.pass rfl rfl (fun _ _ => rfl) id (by simp [hp]) ?_ (by simp [hp])
    cases x <;> simp at h1 h2 h3 ⊢
  all_goals cases hs

theorem step_quiet {e : Event P K} (h : Quiet s) (hh : Held lk s) (hs : step lk s e = some (.ok t)) : Quiet t := by
  cases e with
  | consume k =>
    simp only [step, start] at hs
    split at hs
    next p hk =>
      split_ifs at hs with hp
      cases hs
      exact h.pass rfl rfl (fun _ _ => rfl) id (by simp [hp]) (by simp) (by simp [hp])
    next => cases hs
  | produce k m =>
    simp only [step, start] at hs
    split_ifs at hs
    split at hs
    next p hk =>
      split_ifs at hs with hp
      cases hs
      exact h.pass rfl rfl (fun _ _ => rfl) id (by simp [hp]) (by simp) (by simp [hp])
    next => cases hs
  | run k b =>
    simp only [step] at hs
    split at hs
    next p hk => exact procStep_quiet h hh hs
    next => cases hs
  | preempt k =>
    simp only [step, preempt] at hs
    split at hs
    next p hk =>
      split_ifs at hs
      obtain ⟨r, hr, he⟩ := Option.map_eq_some_iff.mp hs
      cases r with
      | error e => cases he
      | ok u =>
        cases he
        cases acquire_frame hr
        refine h.move (x := .parked (s.pc p)) rfl (fun r hr => update_of_ne hr ..) (fun _ _ => rfl) id ?_ (by simp)
          (by simp) (by simp) id
        intro hs
        simp [setState] at hs
    next => cases hs
  | scan k =>
    simp only [step, scan] at hs
    split_ifs at hs
    obtain ⟨r, hr, he⟩ := Option.map_eq_some_iff.mp hs
    cases r with
    | error e => cases he
    | ok u =>
      cases he
      cases acquire_frame hr
      exact ⟨h.sleeping, h.armed, h.tested, h.awaited⟩
  | dispatch k p =>
    simp only [step, dispatch] at hs
    split_ifs at hs
    obtain ⟨x, hx, he⟩ := Option.map_eq_some_iff.mp hs
    cases he
    have hin : x.committed = false ∧ x ≠ .asleep ∧ ((s.pc p).pending = true → x.pending = true) ∧ x ≠ .sleepState := by
      cases hy : s.pc p <;> rw [hy] at hx <;> cases hx <;> simp
    refine h.move rfl (fun r hr => update_of_ne hr ..) (fun _ _ => rfl) id ?_ (fun hx => absurd hx hin.2.2.2) ?_ ?_
      hin.2.2.1
    · intro hs
      simp [setState] at hs
    · rintro (rfl | rfl) <;> cases hin.1
    · rintro (hc | hc)
      · rw [hin.1] at hc
        cases hc
      · exact absurd hc.1 hin.2.1
  | endScan k =>
    simp only [step, endScan] at hs
    split_ifs at hs
    rw [release] at hs
    split_ifs at hs <;> cases hs
    exact ⟨h.sleeping, h.armed, h.tested, h.awaited⟩

omit [DecidableEq P] [DecidableEq K] in
theorem boot_quiet (cond : Bool) : Quiet (boot cond : Sys P K) := by
  constructor
  all_goals intro p hp; simp [boot] at hp

/-- While a consumer sleeps and the condition holds, a producer that made it true has still to wake it; and where
`sleep` returns to, `lk` is held, and `ptable.lock` only if it is `lk`. -/
theorem sleep_wakeup (lk : Lock) (cond : Bool) (es : List (Event P K)) (s : Sys P K)
    (h : Run (Steps (step lk)) (boot cond) es s) :
    (∀ p, s.state p = .sleeping → s.cond = true → ∃ q, (s.pc q).pending = true) ∧
    ∀ k p, s.proc k = some p → s.pc p = .test →
      s.locked lk = some k ∧ (s.locked .ptable = some k ↔ lk = .ptable) := by
  have hinv : Held lk s ∧ Quiet s := h.always (I := fun s => Held lk s ∧ Quiet s)
    (fun _ _ _ hi hs => ⟨step_held hi.1 hs, step_quiet hi.2 hi.1 hs⟩) ⟨boot_held lk cond, boot_quiet cond⟩
  obtain ⟨hheld, hquiet⟩ := hinv
  constructor
  · intro p hp hc
    have hsleep : (s.pc p).committed = true ∨ s.pc p = .asleep ∧ s.state p = .sleeping := by
      rcases (hquiet.sleeping p hp).2 with he | he
      · exact Or.inl (by rw [he]; rfl)
      · exact Or.inr ⟨he, hp⟩
    rcases hquiet.awaited p hsleep with hf | hq
    · rw [hc] at hf
      cases hf
    · exact hq
  · intro k p hk hp
    refine ⟨hheld.locked_of_holds hk (by rw [hp]; exact Or.inl ⟨rfl, rfl⟩), ?_⟩
    rw [hheld.locks, cpuHolds, hk]
    simp [hp, Pc.holds, eq_comm]

def oneAsleep (sleeps : ℕ) : List (Event Bool Bool) :=
  [.scan true, .dispatch true true, .run true true, .consume true] ++ List.replicate sleeps (.run true true) ++
    [.endScan true, .scan false, .dispatch false false, .run false true]

/-- The producer has made the condition true and is about to call `wakeup`. -/
theorem sleep_wakeup_pending : ∃ s : Sys Bool Bool, Run (Steps (step .other)) (boot false)
      (oneAsleep 7 ++ [.produce false .after, .run false true, .run false true, .run false true]) s ∧
    s.state true = .sleeping ∧ s.cond = true ∧ ∃ q, (s.pc q).pending = true := by
  have h : (exec (step .other) (boot false : Sys Bool Bool)
      (oneAsleep 7 ++ [.produce false .after, .run false true, .run false true, .run false true])).map
      (fun s => (s.state true, s.cond)) = some (.sleeping, true) := by
    decide +kernel
  obtain ⟨s, he, hs⟩ := Option.map_eq_some_iff.mp h
  obtain ⟨hstate, hcond⟩ := Prod.mk.inj hs
  exact ⟨s, run_of_exec he, hstate, hcond, (sleep_wakeup _ _ _ s (run_of_exec he)).1 true hstate hcond⟩

/-- With `lk` the same as `ptable.lock`, `sleep` returns with `ptable.lock` held. -/
theorem sleep_returns_with_ptable : ∃ (es : List (Event Bool Bool)) (s t : Sys Bool Bool) (k p : Bool),
    Run (Steps (step .ptable)) (boot false) es s ∧ s.proc k = some p ∧ s.pc p = .tidy ∧
      Steps (step .ptable) s (.run k true) t ∧ t.pc p = .test ∧ t.locked .ptable = some k := by
  let es : List (Event Bool Bool) := oneAsleep 5 ++ [Event.produce false .after] ++
    List.replicate 6 (Event.run false true) ++ [Event.scan true, Event.dispatch true true]
  have h : (exec (step .ptable) (boot false) es).map (fun s => (s.proc true, s.pc true,
      (exec (step .ptable) s [.run true true]).map fun t => (t.pc true, t.locked .ptable))) =
      some (some true, .tidy, some (.test, some true)) := by
    decide +kernel
  obtain ⟨s, he, hs⟩ := Option.map_eq_some_iff.mp h
  simp only [Prod.mk.injEq] at hs
  obtain ⟨hproc, hpc, hnext⟩ := hs
  obtain ⟨t, ht, hback⟩ := Option.map_eq_some_iff.mp hnext
  obtain ⟨htest, hlock⟩ := Prod.mk.inj hback
  rcases run_of_exec ht with _ | ⟨hstep, hnil⟩
  cases hnil
  exact ⟨es, s, t, true, true, run_of_exec he, hproc, hpc, hstep, htest, hlock⟩

end Xv6.SleepWakeup
