import Xv6.CpuInvariant

namespace Xv6.Scheduler

open ProcTable (ProcState Slot)
open Transition SoleHolder
open Function (update update_self update_of_ne)

variable {K : Type} {s t u : Sys K} {k k' : K} {p q c np : Slot} {x : Pc} {y : Place}

theorem Inv.forks_ne (h : Inv s) (hk : s.place k = .inProc p) (hp : (s.pc p).atSched = false)
    (hf : s.forking q = some np) : np ≠ p := by
  rintro rfl
  have hat := h.cpu k
  rw [hk] at hat
  cases (hat.2.2.mpr hp).symm.trans ((h.fine q).forks np hf)

theorem Inv.setState_goto (h : Inv s) {st : ProcState} {r : Resume} (hk : s.place k = .inProc p)
    (hp : s.pc p = .setState st r) : Inv (goto (setState s p st) p (.sched r)) := by
  have hf := h.fine p
  have hsame : ∀ q, q ≠ p → state (setState s p st) q = state s q := fun q hq => by
    rw [setState, state_setProc, if_neg hq]
  have hforks : ∀ q np, s.forking q = some np → state (setState s p st) np = .embryo := fun q np hq => by
    rw [hsame np (h.forks_ne hk (by rw [hp]; rfl) hq)]
    exact (h.fine q).forks np hq
  have hlock : s.lock = some k := (h.sole k).mp (by rw [holds_inProc hk, hp]; rfl)
  apply h.goto_of hk
  · refine ⟨rfl, rfl, rfl, fun q hq => ?_, fun hne => absurd hlock hne, fun hne => absurd hlock hne, fun q _ => rfl,
      fun q np _ => hforks q np, fun np => Or.inl⟩
    rw [hsame q hq]
    exact ⟨id, Iff.rfl⟩
  · rw [hp]
    exact .keep _ _
  · rfl
  · rw [setState, state_setProc, if_pos rfl]
    simpa using (hf.dozes st r hp).1
  · rw [setState, state_setProc, if_pos rfl]
    exact (hf.dozes st r hp).2
  · exact Fine.of_plain (by rw [goto_pc_self]; rfl) (hforks p)

theorem Inv.freeSlot_goto (h : Inv s) {x : Proc} (hk : s.place k = .inProc p) (hp : s.pc p = .freeSlot c)
    (hx : x.state = .unused) : Inv (goto (setProc s c x) p .release) := by
  have hzombie := (h.fine p).frees c (by rw [hp]; rfl)
  have hat := h.cpu k
  rw [hk] at hat
  have hlock : s.lock = some k := (h.sole k).mp (by rw [holds_inProc hk, hp]; rfl)
  have hforks : ∀ q np, s.forking q = some np → state (setProc s c x) np = .embryo := fun q np hq => by
    have he := (h.fine q).forks np hq
    rw [state_setProc, if_neg ?_]
    · exact he
    · rintro rfl
      cases hzombie.symm.trans he
  have hrun : state s p = .running := hat.2.2.mpr (by rw [hp]; rfl)
  have hpc : p ≠ c := by
    rintro rfl
    cases hzombie.symm.trans hrun
  apply h.goto_running hk
  · refine ⟨rfl, rfl, rfl, fun q hq => ?_, fun hne => absurd hlock hne, fun hne => absurd hlock hne, fun q _ => rfl,
      fun q np _ => hforks q np, fun np => Or.inl⟩
    rw [state_setProc]
    split_ifs with hqc
    · rw [hqc, hzombie, hx]
      exact ⟨by rintro ⟨⟩, by simp⟩
    · exact ⟨id, Iff.rfl⟩
  · rw [hp]
    exact .keep _ _
  · rfl
  · rfl
  · rw [state_setProc, if_neg hpc, hrun]
  · exact Fine.of_plain (by rw [goto_pc_self]; rfl) (hforks p)

theorem findSlot_some {f : Proc → Bool} (h : findSlot s f = some q) : f (s.proc q) = true := by
  simpa using List.find?_some h

theorem Inv.alloc_goto (h : Inv s) (hk : s.place k = .inProc p) (hp : s.pc p = .alloc) :
    Inv (goto (alloc s p) p .release) := by
  have hat := h.cpu k
  rw [hk] at hat
  have hrun : state s p = .running := hat.2.2.mpr (by rw [hp]; rfl)
  have hlock : s.lock = some k := (h.sole k).mp (by rw [holds_inProc hk, hp]; rfl)
  unfold alloc
  split
  · next np hfind =>
    have hunused : state s np = .unused := by simpa [state] using findSlot_some hfind
    have hforks : ∀ q c, s.forking q = some c → c ≠ np := by
      rintro q c hq rfl
      cases hunused.symm.trans ((h.fine q).forks c hq)
    have hstate : ∀ q, state (setProc s np { s.proc np with state := .embryo, pid := s.nextpid }) q =
        if q = np then .embryo else state s q := fun q => state_setProc q
    apply h.goto_running hk
    · refine ⟨rfl, rfl, rfl, fun q hq => ?_, fun hne => absurd hlock hne, fun hne => absurd hlock hne,
        fun q hq => update_of_ne hq _ _, fun q c _ hf => ?_, fun c hf => ?_⟩
      · change Mild _ (state (setProc s np _) q)
        rw [hstate]
        split_ifs with hqn
        · rw [hqn, hunused]
          exact ⟨by rintro ⟨⟩, by simp⟩
        · exact ⟨id, Iff.rfl⟩
      · change state (setProc s np _) c = _
        rw [hstate, if_neg (hforks q c hf)]
        exact (h.fine q).forks c hf
      · cases (update_self p (some np) s.forking).symm.trans hf
        exact Or.inr hunused
    · rw [hp]
      exact .keep _ _
    · rfl
    · rfl
    · change state (setProc s np _) p = _
      rw [hstate, if_neg ?_]
      · exact hrun
      · rintro rfl
        cases hunused.symm.trans hrun
    · apply Fine.of_plain (by rw [goto_pc_self]; rfl)
      intro c hf
      change update s.forking p (some np) p = some c at hf
      rw [update_self] at hf
      cases hf
      change state (setProc s np _) np = _
      rw [hstate, if_pos rfl]
  · exact h.wakes_locked hk hp (Wakes.refl s) rfl rfl (by simp)

theorem Inv.giveUp_goto (h : Inv s) {x : Proc} {y : Pc} (hk : s.place k = .inProc p) (hp : s.forking p = some np)
    (hsched : (s.pc p).atSched = false) (hlocked : y.locked = (s.pc p).locked) (hout : y.isOut = false)
    (hat : y.atSched = false) (hplain : y.plain = true) (hx : x.state = .runnable ∨ x.state = .unused) :
    Inv (goto { setProc s np x with forking := update s.forking p none } p y) := by
  have hcpu := h.cpu k
  rw [hk] at hcpu
  have hrun : state s p = .running := hcpu.2.2.mpr hsched
  have hembryo := (h.fine p).forks np hp
  have hstate : ∀ q, state (setProc s np x) q = if q = np then x.state else state s q := fun q => state_setProc q
  apply h.goto_running hk
  · refine ⟨rfl, rfl, rfl, fun q hq => ?_, fun _ c hc => ?_, fun _ c hc => ?_,
      fun q hq => update_of_ne hq _ _, fun q c hq hf => ?_, fun c hf => ?_⟩
    · change Mild _ (state (setProc s np x) q)
      rw [hstate]
      split_ifs with hqn
      · rw [hqn, hembryo]
        rcases hx with hx | hx
        · rw [hx]
          exact ⟨by rintro ⟨⟩, by simp⟩
        · rw [hx]
          exact ⟨by rintro ⟨⟩, by simp⟩
      · exact ⟨id, Iff.rfl⟩
    · change state (setProc s np x) c = _
      rw [hstate, if_neg ?_]
      · exact hc
      · rintro rfl
        cases hembryo.symm.trans hc
    · change vacant (state (setProc s np x) c) = _ at hc
      rw [hstate] at hc
      split_ifs at hc with hcn
      · rw [hcn, hembryo]
        rfl
      · exact hc
    · change state (setProc s np x) c = _
      rw [hstate, if_neg ?_]
      · exact (h.fine q).forks c hf
      · rintro rfl
        exact hq (h.apart q p c hf hp)
    · cases (update_self p none s.forking).symm.trans hf
  · rw [hlocked]
    exact .keep _ _
  · exact hout
  · exact hat
  · change state (setProc s np x) p = _
    rw [hstate, if_neg ?_]
    · exact hrun
    · rintro rfl
      cases hembryo.symm.trans hrun
  · apply Fine.of_plain (by rw [goto_pc_self]; exact hplain)
    intro c hf
    change update s.forking p none p = some c at hf
    rw [update_self] at hf
    cases hf

theorem waitScan_cases (s : Sys K) (p : Slot) : (∃ c, waitScan s p = .freeStack c ∧ state s c = .zombie) ∨
    waitScan s p = .release ∨ waitScan s p = .setChan (.proc p) .again := by
  unfold waitScan
  split
  · next c hfind =>
    have hc := findSlot_some hfind
    simp only [Bool.decide_and, Bool.and_eq_true, decide_eq_true_eq] at hc
    exact Or.inl ⟨c, rfl, hc.2⟩
  · split_ifs
    · exact Or.inr (Or.inl rfl)
    · exact Or.inr (Or.inr rfl)

theorem Inv.waitScan_goto (h : Inv s) (hk : s.place k = .inProc p) (hp : s.pc p = .waitScan) :
    Inv (goto s p (waitScan s p)) := by
  rcases waitScan_cases s p with ⟨c, hw, hc⟩ | hw | hw
  · rw [hw]
    exact h.wakes_locked hk hp (Wakes.refl s) rfl rfl (by simpa using hc)
  · rw [hw]
    exact h.wakes_locked hk hp (Wakes.refl s) rfl rfl (by simp)
  · rw [hw]
    exact h.wakes_locked hk hp (Wakes.refl s) rfl rfl (by simp)

theorem Local.of_proc (h : Inv s) (hk : (s.place k).proc = some p) (hlock : s.lock = some k)
    (hplace : ∀ k', k' ≠ k → t.place k' = s.place k') (hcproc : ∀ k', k' ≠ k → t.cproc k' = s.cproc k')
    (hpc : ∀ q, q ≠ p → t.pc q = s.pc q) (hstate : ∀ q, q ≠ p → state t q = state s q)
    (hforking : t.forking = s.forking) (hp : state s p ≠ .embryo ∨ state t p = state s p) : Local s t k := by
  have hne : ∀ q, (s.place k).proc ≠ some q → q ≠ p := by
    rintro q hq rfl
    exact hq hk
  refine ⟨hplace, hcproc, fun q hq => hpc q (hne q hq), fun q hq => ?_, fun hn => absurd hlock hn,
    fun hn => absurd hlock hn, fun q _ => congrFun hforking q, fun q np _ hf => ?_⟩
  · rw [hstate q (hne q hq)]
    exact ⟨id, Iff.rfl⟩
  · have he := (h.fine q).forks np hf
    by_cases hnp : np = p
    · subst hnp
      rcases hp with hp | hp
      · exact absurd he hp
      · rw [hp, he]
    · rw [hstate np hnp, he]

theorem Inv.lock_of_locked (h : Inv s) (hk : (s.place k).locked = true) : s.lock = some k :=
  (h.sole k).mp (holds_of_locked hk)

variable [DecidableEq K]

theorem Inv.sched_ok (h : Inv s) {r : Resume} (hk : s.place k = .inProc p) (hp : s.pc p = .sched r)
    (hs : sched s k p r = .ok t) : Inv t := by
  have hat := h.cpu k
  rw [hk] at hat
  unfold sched at hs
  split_ifs at hs with hlock hrun
  cases hs
  have hlock : s.lock = some k := not_not.mp hlock
  have hl : Local s (jump (goto s p (.out r)) k (.back p)) k := by
    apply Local.of_proc h (by rw [hk]; rfl) hlock
    · exact fun k' hne => update_of_ne hne _ _
    · exact fun k' _ => rfl
    · exact fun q hq => update_of_ne hq _ _
    · exact fun q _ => rfl
    · rfl
    · exact Or.inr rfl
  have hplace : (jump (goto s p (.out r)) k (.back p)).place k = .back p := update_self ..
  have hpc : (jump (goto s p (.out r)) k (.back p)).pc p = .out r := update_self ..
  apply h.of_local hl
  · rw [holds_inProc hk, hp, holds_of_locked (by rw [hplace]; rfl)]
    exact .keep _ _
  · rw [hplace]
    exact ⟨hat.1, hrun⟩
  · exact fun q hq => h.proc_of_cproc hq
  · intro q hq
    rw [hk] at hq
    cases hq
    exact ⟨fun hr => absurd hr hrun, by simp [hpc], by simp [hpc], Fine.of_plain (by rw [hpc]; rfl) (h.fine p).forks,
      fun np => Or.inl⟩

theorem acquire_map {f : Sys K → Sys K} (h : (acquire s k).map (Except.map f) = some (.ok t)) :
    s.lock = none ∧ t = f { s with lock := some k } := by
  unfold acquire at h
  split at h
  · next hlock =>
    cases h
    exact ⟨hlock, rfl⟩
  · split_ifs at h
    · cases h
    · cases h

theorem release_map {f : Sys K → Sys K} (h : (release s k).map f = .ok t) :
    s.lock = some k ∧ t = f { s with lock := none } := by
  unfold release at h
  split_ifs at h with hlock
  · cases h
    exact ⟨hlock, rfl⟩
  · cases h

omit [DecidableEq K] in
theorem Inv.acquire_ok (h : Inv s) {c : Call} (hk : s.place k = .inProc p) (hp : s.pc p = .acquire c)
    (hlock : s.lock = none) : Inv (goto { s with lock := some k } p c.body) := by
  have hf := h.fine p
  apply h.wakes_goto hk (Wakes.refl s)
  · rw [hlock, show c.body.locked = true by cases c <;> rfl]
    exact .take _
  · cases c <;> rfl
  · rw [hp]
    cases c <;> rfl
  · intro st r he
    cases c <;> cases he
    exact ⟨by rintro ⟨⟩, rfl⟩
  · intro q hq
    cases c <;> cases hq
  · intro np hs
    apply hf.starts np
    rw [hp]
    cases c <;> cases hs
    rfl

theorem procStep_inv (h : Inv s) (hk : s.place k = .inProc p) (hs : procStep s k p = some (.ok t)) : Inv t := by
  have hf := h.fine p
  cases hp : s.pc p with
  | user => simp [procStep, hp] at hs
  | out r => simp [procStep, hp] at hs
  | zombieExit => simp [procStep, hp] at hs
  | acquire c =>
    simp only [procStep, hp] at hs
    obtain ⟨hlock, rfl⟩ := acquire_map hs
    exact h.acquire_ok hk hp hlock
  | setChan chan r =>
    simp only [procStep, hp, Option.some.injEq, Except.ok.injEq] at hs
    subst hs
    exact h.wakes_locked hk hp (setProc_wakes rfl) rfl rfl (by simp)
  | setState st r =>
    simp only [procStep, hp, Option.some.injEq, Except.ok.injEq] at hs
    subst hs
    exact h.setState_goto hk hp
  | sched r =>
    simp only [procStep, hp, Option.some.injEq] at hs
    exact h.sched_ok hk hp hs
  | tidy again =>
    simp only [procStep, hp, Option.some.injEq, Except.ok.injEq] at hs
    subst hs
    cases again with
    | false | true =>
      exact h.wakes_locked hk hp (setProc_wakes rfl) rfl rfl (by simp)
  | exitWake =>
    simp only [procStep, hp, Option.some.injEq, Except.ok.injEq] at hs
    subst hs
    exact h.wakes_locked hk hp (exitWake_wakes s p) rfl rfl (by simp)
  | exitReparent =>
    simp only [procStep, hp, Option.some.injEq, Except.ok.injEq] at hs
    subst hs
    have hw := foldl_reparent_wakes p (List.finRange NPROC) s
    exact h.wakes_locked hk hp hw rfl rfl (by simp)
  | waitScan =>
    simp only [procStep, hp, Option.some.injEq, Except.ok.injEq] at hs
    subst hs
    exact h.waitScan_goto hk hp
  | freeStack c | freeVm c =>
    simp only [procStep, hp, Option.some.injEq, Except.ok.injEq] at hs
    subst hs
    have hc := hf.frees c (by rw [hp]; rfl)
    exact h.wakes_locked hk hp (setProc_wakes rfl) rfl rfl (by simpa using hc)
  | freeSlot c =>
    simp only [procStep, hp, Option.some.injEq, Except.ok.injEq] at hs
    subst hs
    exact h.freeSlot_goto hk hp rfl
  | wakeup1 chan =>
    simp only [procStep, hp, Option.some.injEq, Except.ok.injEq] at hs
    subst hs
    exact h.wakes_locked hk hp (wakeup1_wakes s chan) rfl rfl (by simp)
  | kill1 pid =>
    simp only [procStep, hp, Option.some.injEq, Except.ok.injEq] at hs
    subst hs
    exact h.wakes_locked hk hp (kill_wakes s pid) rfl rfl (by simp)
  | alloc =>
    simp only [procStep, hp, Option.some.injEq, Except.ok.injEq] at hs
    subst hs
    exact h.alloc_goto hk hp
  | setRunnable np =>
    simp only [procStep, hp, Option.some.injEq, Except.ok.injEq] at hs
    subst hs
    exact h.giveUp_goto hk (hf.starts np (by rw [hp]; rfl)) (by rw [hp]; rfl) (by rw [hp]; rfl) rfl rfl rfl (Or.inl rfl)
  | release =>
    simp only [procStep, hp, Option.some.injEq] at hs
    obtain ⟨hlock, rfl⟩ := release_map hs
    apply h.wakes_goto hk (Wakes.refl s)
    · rw [hlock]
      exact .drop _
    · rfl
    · rw [hp]
      rfl
    · simp
    · simp
    · simp

end Xv6.Scheduler
