import Xv6.ProcSteps

namespace Xv6.Scheduler

open ProcTable (ProcState Slot)
open Transition SoleHolder
open Function (update update_self update_of_ne update_eq_self)

variable {K : Type} {s t u : Sys K} {k k' : K} {p q c np : Slot} {x : Pc} {y : Place}

variable [DecidableEq K]

theorem jump_place_self : (jump u k y).place k = y := update_self ..

theorem Inv.wakes_jump (h : Inv s) {o : Option K} (hw : Wakes s u) (hp : (s.place k).proc = none)
    (hlock : Handover k s.lock o (s.place k).locked y.locked) (hy : ∀ p, y ≠ .inProc p)
    (hat : u.cproc k = none → At (jump u k y) k y) : Inv (jump { u with lock := o } k y) := by
  have hcproc : s.cproc k = none := by
    rcases (h.cpu k).cproc with hc | ⟨hc, -⟩
    · exact hc.trans hp
    · exact hc
  have hholds : ∀ {v : Sys K}, (∀ p, v.place k ≠ .inProc p) → holds v k = (v.place k).locked := by
    intro v hv
    cases hk : v.place k with
    | inProc p => exact absurd hk (hv p)
    | _ => simp [holds, hk]
  have hl : Local s (jump { u with lock := o } k y) k := by
    refine ⟨fun k' hne => ?_, fun k' _ => congrFun hw.cproc k', fun q _ => congrFun hw.pc q, fun q _ => hw.mild q,
      fun _ c hc => hw.keeps (by rintro ⟨⟩) hc, fun _ c hc => (hw.vacant c).symm.trans hc,
      fun q _ => congrFun hw.forking q, fun q np _ hf => hw.keeps (by rintro ⟨⟩) ((h.fine q).forks np hf)⟩
    exact (update_of_ne hne _ _).trans (congrFun hw.place k')
  have hcp : u.cproc k = none := (congrFun hw.cproc k).trans hcproc
  apply h.of_local hl
  · rw [hholds (fun p hs => by simp [hs] at hp), hholds (fun p => by rw [jump_place_self]; exact hy p), jump_place_self]
    exact hlock
  · rw [jump_place_self]
    have := hat hcp
    cases y <;> exact this
  · intro p he
    cases hcp.symm.trans he
  · intro p he
    cases hp.symm.trans he

theorem Inv.setProc_ok (h : Inv s) (hk : s.place k = .setProc p) :
    Inv (jump { s with cproc := update s.cproc k (some p) } k (.setRunning p)) := by
  have hat := h.cpu k
  rw [hk] at hat
  have hlock := h.lock_of_locked (k := k) (by rw [hk]; rfl)
  have hl : Local s (jump { s with cproc := update s.cproc k (some p) } k (.setRunning p)) k := by
    apply Local.of_proc h (by rw [hk]; rfl) hlock
    · exact fun k' hne => update_of_ne hne _ _
    · exact fun k' hne => update_of_ne hne _ _
    · exact fun q _ => rfl
    · exact fun q _ => rfl
    · rfl
    · exact Or.inr rfl
  have hcproc : update s.cproc k (some p) k = some p := update_self ..
  apply h.of_local hl
  · rw [holds_of_locked (by rw [hk]; rfl), holds_of_locked (by rw [jump_place_self]; rfl)]
    exact .keep _ _
  · rw [jump_place_self]
    exact ⟨hcproc, hat.2⟩
  · intro q hq
    rw [hk]
    exact hcproc.symm.trans hq
  · intro q hq
    rw [hk] at hq
    cases hq
    have hout := h.out_of_proc (p := p) (k := k) (by rw [hk]; rfl) (by simp [hk])
    refine ⟨fun _ => hcproc, fun ho => ?_, fun _ => hout, (h.fine p).congr rfl rfl rfl, fun np => Or.inl⟩
    cases hout.symm.trans ho

theorem Inv.setRunning_ok (h : Inv s) (hk : s.place k = .setRunning p) :
    Inv (jump (setState s p .running) k (.switchIn p)) := by
  have hat := h.cpu k
  rw [hk] at hat
  have hlock := h.lock_of_locked (k := k) (by rw [hk]; rfl)
  have hstate : ∀ q, q ≠ p → state (jump (setState s p .running) k (.switchIn p)) q = state s q := by
    intro q hq
    change state (setProc s p _) q = _
    rw [state_setProc, if_neg hq]
  have hrun : state (jump (setState s p .running) k (.switchIn p)) p = .running := by
    change state (setProc s p _) p = _
    rw [state_setProc, if_pos rfl]
  have hout : (s.pc p).isOut = true := h.out_of_proc (k := k) (by rw [hk]; rfl) (by simp [hk])
  have hl : Local s (jump (setState s p .running) k (.switchIn p)) k := by
    apply Local.of_proc h (by rw [hk]; rfl) hlock
    · exact fun k' hne => update_of_ne hne _ _
    · exact fun k' _ => rfl
    · exact fun q _ => rfl
    · exact hstate
    · rfl
    · left
      rw [hat.2]
      rintro ⟨⟩
  apply h.of_local hl
  · rw [holds_of_locked (by rw [hk]; rfl), holds_of_locked (by rw [jump_place_self]; rfl)]
    exact .keep _ _
  · rw [jump_place_self]
    exact ⟨hat.1, hrun⟩
  · exact fun q hq => h.proc_of_cproc hq
  · intro q hq
    rw [hk] at hq
    cases hq
    refine ⟨fun _ => hat.1, fun ho => ?_, fun _ => hout, ?_, fun np => Or.inl⟩
    · cases hout.symm.trans ho
    · apply Fine.of_plain
      · change (s.pc p).plain = true
        cases hx : s.pc p <;> simp_all
      · intro np hf
        have he := (h.fine p).forks np hf
        rw [hstate np ?_, he]
        rintro rfl
        cases hat.2.symm.trans he

theorem Inv.switchIn_ok (h : Inv s) {r : Resume} (hk : s.place k = .switchIn p) :
    Inv (jump (goto s p r.pc) k (.inProc p)) := by
  have hat := h.cpu k
  rw [hk] at hat
  have hlock := h.lock_of_locked (k := k) (by rw [hk]; rfl)
  have hpc : (jump (goto s p r.pc) k (.inProc p)).pc p = r.pc := update_self ..
  have hl : Local s (jump (goto s p r.pc) k (.inProc p)) k := by
    apply Local.of_proc h (by rw [hk]; rfl) hlock
    · exact fun k' hne => update_of_ne hne _ _
    · exact fun k' _ => rfl
    · exact fun q hq => update_of_ne hq _ _
    · exact fun q _ => rfl
    · rfl
    · exact Or.inr rfl
  apply h.of_local hl
  · rw [holds_of_locked (by rw [hk]; rfl), holds_inProc jump_place_self, hpc, show r.pc.locked =
        true by cases r <;> rfl]
    exact .keep _ _
  · rw [jump_place_self]
    refine ⟨hat.1, by rw [hpc]; cases r <;> rfl, ?_⟩
    rw [hpc, show r.pc.atSched = false by cases r <;> rfl]
    exact ⟨fun _ => rfl, fun _ => hat.2⟩
  · exact fun q hq => h.proc_of_cproc hq
  · intro q hq
    rw [hk] at hq
    cases hq
    refine ⟨fun _ => hat.1, fun _ => jump_place_self, fun hv => ?_,
      Fine.of_plain (by rw [hpc]; cases r <;> rfl) (h.fine p).forks, fun np => Or.inl⟩
    change vacant (state s p) = true at hv
    rw [hat.2] at hv
    cases hv

theorem Inv.back_ok (h : Inv s) {i : ℕ} (hk : s.place k = .back p) :
    Inv (jump { s with cproc := update s.cproc k none } k (.scan i)) := by
  have hat := h.cpu k
  rw [hk] at hat
  have hlock := h.lock_of_locked (k := k) (by rw [hk]; rfl)
  have hl : Local s (jump { s with cproc := update s.cproc k none } k (.scan i)) k := by
    apply Local.of_proc h (by rw [hk]; rfl) hlock
    · exact fun k' hne => update_of_ne hne _ _
    · exact fun k' hne => update_of_ne hne _ _
    · exact fun q _ => rfl
    · exact fun q _ => rfl
    · rfl
    · exact Or.inr rfl
  have hcproc : update s.cproc k none k = none := update_self ..
  apply h.of_local hl
  · rw [holds_of_locked (by rw [hk]; rfl), holds_of_locked (by rw [jump_place_self]; rfl)]
    exact .keep _ _
  · rw [jump_place_self]
    exact hcproc
  · intro q hq
    cases hcproc.symm.trans hq
  · intro q hq
    rw [hk] at hq
    cases hq
    have hout := h.out_of_proc (p := p) (k := k) (by rw [hk]; rfl) (by simp [hk])
    refine ⟨fun hr => absurd hr hat.2, fun ho => ?_, fun _ => hout, (h.fine p).congr rfl rfl rfl, fun np => Or.inl⟩
    cases hout.symm.trans ho

theorem schedStep_inv (h : Inv s) (hs : schedStep s k = some (.ok t)) : Inv t := by
  cases hk : s.place k with
  | idle =>
    simp only [schedStep, hk] at hs
    obtain ⟨hlock, rfl⟩ := acquire_map hs
    apply h.wakes_jump (Wakes.refl s) (by rw [hk]; rfl) _ (by simp) id
    rw [hlock, hk]
    exact .take _
  | intr chan =>
    simp only [schedStep, hk, Option.some.injEq, Except.ok.injEq] at hs
    subst hs
    apply h.wakes_jump (wakeup1_wakes s chan) (by rw [hk]; rfl) _ (by simp) id
    rw [hk]
    exact .keep _ _
  | intrRelease =>
    simp only [schedStep, hk, Option.some.injEq] at hs
    obtain ⟨hlock, rfl⟩ := release_map hs
    apply h.wakes_jump (Wakes.refl s) (by rw [hk]; rfl) _ (by simp) id
    rw [hlock]
    exact .drop _
  | scan i =>
    simp only [schedStep, hk] at hs
    split_ifs at hs with hi hrun
    · cases hs
      have hat : s.cproc k = none → At (jump s k (.setProc ⟨i, hi⟩)) k (.setProc ⟨i, hi⟩) := fun hc => ⟨hc, hrun⟩
      apply h.wakes_jump (Wakes.refl s) (by rw [hk]; rfl) _ (by simp) hat
      rw [hk]
      exact .keep _ _
    · cases hs
      apply h.wakes_jump (Wakes.refl s) (by rw [hk]; rfl) _ (by simp) id
      rw [hk]
      exact .keep _ _
    · obtain ⟨hlock, rfl⟩ := release_map (Option.some.inj hs)
      apply h.wakes_jump (Wakes.refl s) (by rw [hk]; rfl) _ (by simp) id
      rw [hlock]
      exact .drop _
  | setProc p =>
    simp only [schedStep, hk, Option.some.injEq, Except.ok.injEq] at hs
    subst hs
    exact h.setProc_ok hk
  | setRunning p =>
    simp only [schedStep, hk, Option.some.injEq, Except.ok.injEq] at hs
    subst hs
    exact h.setRunning_ok hk
  | switchIn p =>
    simp only [schedStep, hk] at hs
    split at hs
    · cases hs
      exact h.switchIn_ok hk
    · cases hs
  | inProc p => simp [schedStep, hk] at hs
  | back p =>
    simp only [schedStep, hk, Option.some.injEq, Except.ok.injEq] at hs
    subst hs
    exact h.back_ok hk

omit [DecidableEq K] in
theorem current_some (h : current s k = some p) : s.place k = .inProc p := by
  unfold current at h
  split at h
  · next hk =>
    cases h
    exact hk
  · cases h

omit [DecidableEq K] in
theorem startCall_ok {c : Call} (h : startCall s p c = some (.ok t)) :
    s.pc p = .user ∧ (∀ np, c ≠ .forkRun np) ∧ t = goto s p (.acquire c) := by
  have hp : s.pc p = .user := by
    by_contra hp
    simp [startCall, hp] at h
  simp only [startCall, hp, ne_eq, not_true_eq_false, if_false] at h
  cases c with
  | yield | wakeup =>
    cases h
    exact ⟨hp, by simp, rfl⟩
  | forkRun np => cases h
  | exit =>
    simp only [true_and] at h
    split_ifs at h
    · cases h
    · cases h
      exact ⟨hp, by simp, rfl⟩
  | _ =>
    simp only [reduceCtorEq, false_and, if_false] at h
    split_ifs at h
    cases h
    exact ⟨hp, by simp, rfl⟩

omit [DecidableEq K] in
theorem Inv.startCall_ok (h : Inv s) {c : Call} (hk : s.place k = .inProc p) (hp : s.pc p = .user)
    (hc : ∀ np, c ≠ .forkRun np) : Inv (goto s p (.acquire c)) := by
  apply h.wakes_goto (o := s.lock) hk (Wakes.refl s)
  · rw [hp]
    exact .keep _ _
  · rfl
  · rw [hp]
    rfl
  · simp
  · simp
  · intro np hs
    cases c with
    | forkRun c => exact absurd rfl (hc c)
    | _ => cases hs

omit [DecidableEq K] in
theorem Inv.goto_out (h : Inv s) {r : Resume} (hq : (s.pc q).isOut = true) : Inv (goto s q (.out r)) := by
  have hne : ∀ p, p ≠ q → (goto s q (.out r)).pc p = s.pc p := fun p hp => update_of_ne hp _ _
  have hin : ∀ k p, s.place k = .inProc p → (goto s q (.out r)).pc p = s.pc p := by
    intro k p hk
    have hat := h.cpu k
    rw [hk] at hat
    apply hne
    rintro rfl
    cases hq.symm.trans hat.2.1
  refine ⟨h.sole.congr fun k => ?_, fun k => ?_, h.once, h.run, fun p hp => ?_, fun p hv => ?_, fun p => ?_, h.apart⟩
  · cases hk : s.place k with
    | inProc p => rw [holds_inProc (s := s) hk, holds_inProc (s := goto s q (.out r)) hk, hin k p hk]
    | _ =>
      have hk' : (goto s q (.out r)).place k = s.place k := rfl
      simp [holds, hk, hk']
  · have hat := h.cpu k
    cases hk : s.place k with
    | inProc p =>
      have hk' : (goto s q (.out r)).place k = .inProc p := hk
      rw [hk] at hat
      rw [hk']
      simp only [At, hin k p hk]
      exact hat
    | _ =>
      rw [hk] at hat
      exact hk ▸ hat
  · apply h.on p
    by_cases hpq : p = q
    · rw [hpq, goto_pc_self] at hp
      cases hp
    · rwa [hne p hpq] at hp
  · by_cases hpq : p = q
    · rw [hpq, goto_pc_self]
      rfl
    · rw [hne p hpq]
      exact h.out p hv
  · by_cases hpq : p = q
    · exact Fine.of_plain (by rw [hpq, goto_pc_self]; rfl) (h.fine p).forks
    · exact (h.fine p).congr (hne p hpq) rfl rfl

omit [DecidableEq K] in
theorem Inv.forkCopy_ok (h : Inv s) (hk : s.place k = .inProc p) (hp : s.pc p = .user) (hf : s.forking p = some np)
    (ok : Bool) : Inv (forkCopy s p np ok) := by
  have hnp : np ≠ p := h.forks_ne hk (by rw [hp]; rfl) hf
  cases ok with
  | true =>
    have hout : (s.pc np).isOut = true := h.out np (by rw [(h.fine p).forks np hf]; rfl)
    have hset : Wakes (goto s np (.out .release)) (setProc (goto s np (.out .release)) np
        { s.proc np with kstack := true, pgdir := true, parent := some p }) := setProc_wakes rfl
    have hpc : (goto s np (.out .release)).pc p = .user := (update_of_ne (Ne.symm hnp) _ _).trans hp
    have hinv : Inv (goto s np (.out .release)) := h.goto_out hout
    apply hinv.wakes_goto (k := k) (o := s.lock) hk hset
    · rw [hpc]
      exact .keep _ _
    · rfl
    · rw [hpc]
      rfl
    · simp
    · simp
    · intro c hc
      cases hc
      exact hf
  | false =>
    have hgive := h.giveUp_goto (x := { s.proc np with kstack := false, state := .unused }) (y := .user) hk hf
      (by rw [hp]; rfl) (by rw [hp]) rfl rfl rfl (Or.inr rfl)
    have hsame : update s.pc p .user = s.pc := by rw [← hp, update_eq_self]
    simpa only [forkCopy, goto, setProc, hsame, Bool.false_eq_true, if_false] using hgive

theorem cpuStep_inv {e : Event K} (h : Inv s) (hs : cpuStep s e = some (.ok t)) : Inv t := by
  cases e with
  | sched k => exact schedStep_inv h hs
  | intr k chan =>
    simp only [cpuStep, Option.ite_none_right_eq_some] at hs
    obtain ⟨hk, hs⟩ := hs
    obtain ⟨hlock, rfl⟩ := acquire_map hs
    apply h.wakes_jump (Wakes.refl s) (by rw [hk]; rfl) _ (by simp) id
    rw [hlock]
    exact .take _
  | call k c =>
    obtain ⟨p, hk, hs⟩ := Option.bind_eq_some_iff.mp hs
    obtain ⟨hp, hc, rfl⟩ := startCall_ok hs
    exact h.startCall_ok (current_some hk) hp hc
  | run k =>
    obtain ⟨p, hk, hs⟩ := Option.bind_eq_some_iff.mp hs
    exact procStep_inv h (current_some hk) hs
  | forkCopy k ok =>
    obtain ⟨p, hk, hs⟩ := Option.bind_eq_some_iff.mp hs
    split at hs
    · next np hp hf =>
      cases hs
      exact h.forkCopy_ok (current_some hk) hp hf ok
    · cases hs

omit [DecidableEq K] in
theorem boot_inv : Inv (boot : Sys K) where
  sole _ := by simp [boot, holds]
  cpu _ := rfl
  once _ _ _ he := by cases he
  run p hr := by
    have hne : ∀ p, state (boot : Sys K) p ≠ .running := by
      intro p
      by_cases hp : p = ⟨0, NPROC_pos⟩
      · simp [state, boot, hp]
      · simp [state, boot, hp, empty]
    exact absurd hr (hne p)
  on p ho := by cases ho
  out _ _ := rfl
  fine p := Fine.of_plain rfl fun np he => by cases he
  apart p q np he := by cases he

theorem run_inv {es : List (Event K)} (h : Run (Steps cpuStep) boot es s) : Inv s :=
  h.always (fun _ _ _ hi hs => cpuStep_inv hi hs) boot_inv

omit [DecidableEq K] in
theorem Wakes.sleeping (h : Wakes s u) (hne : Scheduler.state s q ≠ .runnable) (hu : Scheduler.state u q = .runnable) :
    Scheduler.state s q = .sleeping := by
  rcases h.state q with he | ⟨hs, -⟩
  · exact absurd (he.symm.trans hu) hne
  · exact hs

omit [DecidableEq K] in
theorem runnable_of_setProc {x : Proc} (hne : state s q ≠ .runnable) (hx : state (setProc s c x) q = .runnable) :
    q = c ∧ x.state = .runnable := by
  rw [state_setProc] at hx
  split_ifs at hx with hq
  · exact ⟨hq, hx⟩
  · exact absurd hx hne

theorem procStep_runnable (hs : procStep s k p = some (.ok t)) (hne : state s q ≠ .runnable)
    (ht : state t q = .runnable) :
    state s q = .sleeping ∨ (q = p ∧ ∃ r, s.pc p = .setState .runnable r) ∨ s.pc p = .setRunnable q := by
  cases hp : s.pc p with
  | user => simp [procStep, hp] at hs
  | out r => simp [procStep, hp] at hs
  | zombieExit => simp [procStep, hp] at hs
  | acquire c =>
    simp only [procStep, hp] at hs
    obtain ⟨-, rfl⟩ := acquire_map hs
    exact absurd ht hne
  | setState st r =>
    simp only [procStep, hp, Option.some.injEq, Except.ok.injEq] at hs
    subst hs
    obtain ⟨hq, hst⟩ := runnable_of_setProc hne ht
    change st = .runnable at hst
    exact Or.inr (Or.inl ⟨hq, r, by rw [hst]⟩)
  | sched r =>
    simp only [procStep, hp, Option.some.injEq, sched] at hs
    split_ifs at hs
    cases hs
    exact absurd ht hne
  | waitScan =>
    simp only [procStep, hp, Option.some.injEq, Except.ok.injEq] at hs
    subst hs
    exact absurd ht hne
  | exitWake =>
    simp only [procStep, hp, Option.some.injEq, Except.ok.injEq] at hs
    subst hs
    exact Or.inl ((exitWake_wakes s p).sleeping hne ht)
  | exitReparent =>
    simp only [procStep, hp, Option.some.injEq, Except.ok.injEq] at hs
    subst hs
    rw [goto_state] at ht
    exact Or.inl ((foldl_reparent_wakes p (List.finRange NPROC) s).sleeping hne ht)
  | wakeup1 chan =>
    simp only [procStep, hp, Option.some.injEq, Except.ok.injEq] at hs
    subst hs
    exact Or.inl ((wakeup1_wakes s chan).sleeping hne ht)
  | kill1 pid =>
    simp only [procStep, hp, Option.some.injEq, Except.ok.injEq] at hs
    subst hs
    exact Or.inl ((kill_wakes s pid).sleeping hne ht)
  | setRunnable np =>
    simp only [procStep, hp, Option.some.injEq, Except.ok.injEq] at hs
    subst hs
    obtain ⟨hq, -⟩ := runnable_of_setProc (c := np) hne ht
    exact Or.inr (Or.inr (by rw [hq]))
  | alloc =>
    simp only [procStep, hp, Option.some.injEq, Except.ok.injEq] at hs
    subst hs
    change state (alloc s p) q = _ at ht
    unfold alloc at ht
    split at ht
    · next np _ =>
      obtain ⟨-, hx⟩ := runnable_of_setProc (c := np) hne ht
      cases hx
    · exact absurd ht hne
  | release =>
    simp only [procStep, hp, Option.some.injEq] at hs
    obtain ⟨-, rfl⟩ := release_map hs
    exact absurd ht hne
  | freeSlot c =>
    simp only [procStep, hp, Option.some.injEq, Except.ok.injEq] at hs
    subst hs
    obtain ⟨-, hx⟩ := runnable_of_setProc hne ht
    cases hx
  | _ =>
    simp only [procStep, hp, Option.some.injEq, Except.ok.injEq] at hs
    subst hs
    obtain ⟨hq, hx⟩ := runnable_of_setProc hne ht
    rw [hq] at hne
    exact absurd hx hne

theorem schedStep_runnable (hs : schedStep s k = some (.ok t)) (hne : state s q ≠ .runnable)
    (ht : state t q = .runnable) : state s q = .sleeping := by
  cases hk : s.place k with
  | idle =>
    simp only [schedStep, hk] at hs
    obtain ⟨-, rfl⟩ := acquire_map hs
    exact absurd ht hne
  | intr chan =>
    simp only [schedStep, hk, Option.some.injEq, Except.ok.injEq] at hs
    subst hs
    exact (wakeup1_wakes s chan).sleeping hne ht
  | intrRelease =>
    simp only [schedStep, hk, Option.some.injEq] at hs
    obtain ⟨-, rfl⟩ := release_map hs
    exact absurd ht hne
  | scan i =>
    simp only [schedStep, hk] at hs
    split_ifs at hs
    · cases hs
      exact absurd ht hne
    · cases hs
      exact absurd ht hne
    · obtain ⟨-, rfl⟩ := release_map (Option.some.inj hs)
      exact absurd ht hne
  | setRunning p =>
    simp only [schedStep, hk, Option.some.injEq, Except.ok.injEq] at hs
    subst hs
    obtain ⟨-, hx⟩ := runnable_of_setProc hne ht
    cases hx
  | switchIn p =>
    simp only [schedStep, hk] at hs
    split at hs
    · cases hs
      exact absurd ht hne
    · cases hs
  | inProc p => simp [schedStep, hk] at hs
  | _ =>
    simp only [schedStep, hk, Option.some.injEq, Except.ok.injEq] at hs
    subst hs
    exact absurd ht hne

omit [DecidableEq K] in
theorem forkCopy_runnable {ok : Bool} (hne : state s q ≠ .runnable) (ht : state (forkCopy s p np ok) q = .runnable) :
    state s q = .sleeping := by
  cases ok with
  | true =>
    obtain ⟨hq, hx⟩ := runnable_of_setProc (c := np) hne ht
    rw [hq] at hne
    exact absurd hx hne
  | false =>
    obtain ⟨-, hx⟩ := runnable_of_setProc (c := np) hne ht
    cases hx

theorem cpuStep_runnable {e : Event K} (hs : cpuStep s e = some (.ok t)) (hne : state s q ≠ .runnable)
    (ht : state t q = .runnable) : state s q = .sleeping ∨ ∃ k p, e = .run k ∧ s.place k = .inProc p ∧
      ((q = p ∧ ∃ r, s.pc p = .setState .runnable r) ∨ s.pc p = .setRunnable q) := by
  cases e with
  | sched k => exact Or.inl (schedStep_runnable hs hne ht)
  | intr k chan =>
    simp only [cpuStep, Option.ite_none_right_eq_some] at hs
    obtain ⟨-, rfl⟩ := acquire_map hs.2
    exact absurd ht hne
  | call k c =>
    obtain ⟨p, -, hs⟩ := Option.bind_eq_some_iff.mp hs
    obtain ⟨-, -, rfl⟩ := startCall_ok hs
    exact absurd ht hne
  | run k =>
    obtain ⟨p, hk, hs⟩ := Option.bind_eq_some_iff.mp hs
    rcases procStep_runnable hs hne ht with hsl | hown
    · exact Or.inl hsl
    · exact Or.inr ⟨k, p, rfl, current_some hk, hown⟩
  | forkCopy k ok =>
    obtain ⟨p, -, hs⟩ := Option.bind_eq_some_iff.mp hs
    split at hs
    · cases hs
      exact Or.inl (forkCopy_runnable hne ht)
    · cases hs

omit [DecidableEq K] in
theorem Inv.running_iff (h : Inv s) (hlock : s.lock = none) : state s p = .running ↔ ∃! k, s.cproc k = some p := by
  constructor
  · intro hr
    obtain ⟨k, hk⟩ := h.run p hr
    exact ⟨k, hk, fun k' hk' => h.once k' k p hk' hk⟩
  · rintro ⟨k, hk, -⟩
    have hsole := h.sole
    rw [hlock] at hsole
    exact (h.runs_of_unlocked (h.proc_of_cproc hk) (hsole.of_none k)).2.2

omit [DecidableEq K] in
theorem Inv.frees_cproc (h : Inv s) (hp : (s.pc p).frees = some c) : s.cproc k ≠ some c := by
  intro hc
  have hzombie := (h.fine p).frees c hp
  obtain ⟨hout, hlocked, hsched⟩ := Pc.of_frees hp
  obtain ⟨k', hk'⟩ := h.on p hout
  have hat := h.cpu k'
  rw [hk'] at hat
  by_cases hne : k = k'
  · -- the process that frees is RUNNING itself
    subst hne
    cases hat.1.symm.trans hc
    cases (hat.2.2.mpr hsched).symm.trans hzombie
  · have hl : holds s k' = true := (holds_inProc hk').trans hlocked
    cases (h.runs_of_unlocked (h.proc_of_cproc hc) (h.unlocked_of_ne hl hne)).2.2.symm.trans hzombie

/-- One CPU per process, over every run of any number of CPUs. -/
theorem one_cpu_per_process {es : List (Event K)} (hrun : Run (Steps cpuStep) boot es s) :
    (s.lock = none → ∀ p, state s p = .running ↔ ∃! k, s.cproc k = some p) ∧
      (∀ k k' p, s.cproc k = some p → s.cproc k' = some p → k = k') ∧
      (∀ e t q, cpuStep s e = some (.ok t) → state s q ≠ .runnable → state t q = .runnable →
        state s q = .sleeping ∨ ∃ k p, e = .run k ∧ s.place k = .inProc p ∧
          ((q = p ∧ ∃ r, s.pc p = .setState .runnable r) ∨ s.pc p = .setRunnable q)) ∧
      ∀ p c k, s.pc p = .freeStack c ∨ s.pc p = .freeVm c → s.cproc k ≠ some c := by
  have h := run_inv hrun
  refine ⟨fun hlock p => h.running_iff hlock, h.once, fun e t q hs hne ht => cpuStep_runnable hs hne ht,
    fun p c k hp => ?_⟩
  apply h.frees_cproc (p := p)
  rcases hp with hp | hp
  · rw [hp]
    rfl
  · rw [hp]
    rfl

/-- The first process forks on one CPU, and its child runs on the other. -/
theorem one_cpu_per_process_pair : ∃ (es : List (Event Bool)) (s : Sys Bool), Run (Steps cpuStep) boot es s ∧
    s.lock = none ∧ state s ⟨1, one_lt_NPROC⟩ = .running ∧ ∃! k, s.cproc k = some ⟨1, one_lt_NPROC⟩ := by
  have h : (exec cpuStep boot (List.replicate 5 (Event.sched false) ++ [Event.run false, Event.call false .allocproc,
      Event.run false, Event.run false, Event.run false, Event.forkCopy false true, Event.run false, Event.run false,
      Event.run false] ++ List.replicate 6 (Event.sched true) ++ [Event.run true])).map
      (fun s => decide (s.lock = none ∧ state s ⟨1, one_lt_NPROC⟩ = .running)) = some true := by decide +kernel
  obtain ⟨s, hs, hd⟩ := Option.map_eq_some_iff.mp h
  obtain ⟨hlock, hr⟩ := of_decide_eq_true hd
  have hrun := run_of_exec hs
  exact ⟨_, s, hrun, hlock, hr, ((one_cpu_per_process hrun).1 hlock _).mp hr⟩

end Xv6.Scheduler
