import Xv6.Scheduler
import Xv6.SoleHolder

namespace Xv6.Scheduler

open ProcTable (ProcState Slot)
open Transition SoleHolder

@[simp] def vacant : ProcState → Bool
  | .unused | .embryo => true
  | _ => false

@[simp] def Pc.locked : Pc → Bool
  | .user | .acquire _ | .out _ => false
  | _ => true

@[simp] def Pc.isOut : Pc → Bool
  | .out _ => true
  | _ => false

@[simp] def Pc.atSched : Pc → Bool
  | .sched _ => true
  | _ => false

@[simp] def Pc.frees : Pc → Option Slot
  | .freeStack c | .freeVm c | .freeSlot c => some c
  | _ => none

@[simp] def Pc.starts : Pc → Option Slot
  | .acquire (.forkRun np) | .setRunnable np => some np
  | _ => none

@[simp] def Pc.plain : Pc → Bool
  | .setState _ _ | .freeStack _ | .freeVm _ | .freeSlot _ | .acquire (.forkRun _) | .setRunnable _ => false
  | _ => true

@[simp] def Pc.works : Pc → Bool
  | .user | .acquire _ | .out _ | .sched _ | .setRunnable _ => false
  | .setState st _ => st ≠ .running ∧ vacant st = false
  | _ => true

@[simp] def Place.locked : Place → Bool
  | .idle | .inProc _ => false
  | _ => true

@[simp] def Place.proc : Place → Option Slot
  | .setProc p | .setRunning p | .switchIn p | .inProc p | .back p => some p
  | _ => none

variable {K : Type} {s t u : Sys K} {k k' : K} {p q c np : Slot} {x : Pc} {y : Place}

theorem Pc.of_frees (h : x.frees = some c) : x.isOut = false ∧ x.locked = true ∧ x.atSched = false := by
  cases x with
  | freeStack _ | freeVm _ | freeSlot _ => exact ⟨rfl, rfl, rfl⟩
  | _ => cases h

theorem Pc.of_works (h : x.works = true) : x.isOut = false ∧ x.locked = true ∧ x.atSched = false := by
  cases x with
  | user | acquire _ | out _ | sched _ | setRunnable _ => cases h
  | _ => exact ⟨rfl, rfl, rfl⟩

def holds (s : Sys K) (k : K) : Bool :=
  match s.place k with
  | .inProc p => (s.pc p).locked
  | y => y.locked

def state (s : Sys K) (p : Slot) : ProcState := (s.proc p).state

def At (s : Sys K) (k : K) : Place → Prop
  | .setProc p => s.cproc k = none ∧ state s p = .runnable
  | .setRunning p => s.cproc k = some p ∧ state s p = .runnable
  | .switchIn p => s.cproc k = some p ∧ state s p = .running
  | .inProc p => s.cproc k = some p ∧ (s.pc p).isOut = false ∧ (state s p = .running ↔ (s.pc p).atSched = false)
  | .back p => s.cproc k = some p ∧ state s p ≠ .running
  | _ => s.cproc k = none

theorem At.cproc (h : At s k y) : s.cproc k = y.proc ∨ s.cproc k = none ∧ ∃ p, y = .setProc p := by
  cases y with
  | setProc p => exact Or.inr ⟨h.1, p, rfl⟩
  | setRunning p | switchIn p | inProc p | back p => exact Or.inl h.1
  | _ => exact Or.inl h

structure Fine (s : Sys K) (p : Slot) : Prop where
  dozes : ∀ st r, s.pc p = .setState st r → st ≠ .running ∧ vacant st = false
  frees : ∀ c, (s.pc p).frees = some c → state s c = .zombie
  starts : ∀ np, (s.pc p).starts = some np → s.forking p = some np
  forks : ∀ np, s.forking p = some np → state s np = .embryo

structure Inv (s : Sys K) : Prop where
  sole : Sole (holds s) s.lock
  cpu : ∀ k, At s k (s.place k)
  once : ∀ k k' p, s.cproc k = some p → s.cproc k' = some p → k = k'
  run : ∀ p, state s p = .running → ∃ k, s.cproc k = some p
  on : ∀ p, (s.pc p).isOut = false → ∃ k, s.place k = .inProc p
  out : ∀ p, vacant (state s p) = true → (s.pc p).isOut = true
  fine : ∀ p, Fine s p
  apart : ∀ p q np, s.forking p = some np → s.forking q = some np → p = q

structure Mild (x y : ProcState) : Prop where
  runnable : x = .runnable → y = .runnable
  running : x = .running ↔ y = .running

structure Local (s t : Sys K) (k : K) : Prop where
  place : ∀ k', k' ≠ k → t.place k' = s.place k'
  cproc : ∀ k', k' ≠ k → t.cproc k' = s.cproc k'
  pc : ∀ q, (s.place k).proc ≠ some q → t.pc q = s.pc q
  mild : ∀ q, (s.place k).proc ≠ some q → Mild (state s q) (state t q)
  zombie : s.lock ≠ some k → ∀ c, state s c = .zombie → state t c = .zombie
  vacant : s.lock ≠ some k → ∀ c, vacant (state t c) = true → vacant (state s c) = true
  forking : ∀ q, (s.place k).proc ≠ some q → t.forking q = s.forking q
  embryo : ∀ q np, (s.place k).proc ≠ some q → s.forking q = some np → state t np = .embryo

structure Own (s t : Sys K) (k : K) (p : Slot) : Prop where
  run : state t p = .running → t.cproc k = some p
  on : (t.pc p).isOut = false → t.place k = .inProc p
  out : vacant (state t p) = true → (t.pc p).isOut = true
  fine : Fine t p
  forking : ∀ np, t.forking p = some np → s.forking p = some np ∨ state s np = .unused

theorem holds_of_locked (h : (s.place k).locked = true) : holds s k = true := by
  unfold holds
  split
  · next he => simp [he] at h
  · exact h

theorem holds_inProc (h : s.place k = .inProc p) : holds s k = (s.pc p).locked := by
  simp [holds, h]

theorem Inv.proc_of_cproc (h : Inv s) (hk : s.cproc k = some p) : (s.place k).proc = some p := by
  rcases (h.cpu k).cproc with hc | ⟨hc, -⟩
  · exact hc.symm.trans hk
  · cases hc.symm.trans hk

theorem Inv.runs_of_unlocked (h : Inv s) (hk : (s.place k).proc = some p) (hl : holds s k = false) :
    s.place k = .inProc p ∧ s.cproc k = some p ∧ state s p = .running := by
  have hat := h.cpu k
  cases hp : s.place k with
  | inProc q =>
    simp only [hp, Place.proc, Option.some.injEq] at hk
    subst hk
    rw [holds_inProc hp] at hl
    simp only [hp, At] at hat
    refine ⟨rfl, hat.1, hat.2.2.mpr ?_⟩
    cases hx : s.pc q <;> simp_all
  | _ => simp_all [holds]

theorem Inv.unlocked_of_ne (h : Inv s) (hk : holds s k = true) (hne : k' ≠ k) : holds s k' = false := by
  rw [← Bool.not_eq_true]
  intro hk'
  exact hne (h.sole.eq hk' hk)

theorem Inv.alone (h : Inv s) (hk : (s.place k).proc = some p) (hk' : (s.place k').proc = some p) : k = k' := by
  -- a CPU that has yet to set `c->proc` has the lock and has found `p` RUNNABLE
  have hset : ∀ k k', (s.place k').proc = some p → s.place k = .setProc p → k = k' := by
    intro k k' hk' hp
    by_contra hne
    have hl : holds s k = true := holds_of_locked (by rw [hp]; rfl)
    obtain ⟨-, -, hr⟩ := h.runs_of_unlocked hk' (h.unlocked_of_ne hl (Ne.symm hne))
    have hat := h.cpu k
    rw [hp] at hat
    cases hr.symm.trans hat.2
  have hcproc : ∀ k, (s.place k).proc = some p → s.place k = .setProc p ∨ s.cproc k = some p := by
    intro k hk
    rcases (h.cpu k).cproc with hc | ⟨-, q, hq⟩
    · exact Or.inr (hc.trans hk)
    · rw [hq] at hk ⊢
      cases hk
      exact Or.inl rfl
  rcases hcproc k hk with hp | hc
  · exact hset k k' hk' hp
  · rcases hcproc k' hk' with hp | hc'
    · exact (hset k' k hk hp).symm
    · exact h.once k k' p hc hc'

theorem Inv.out_of_proc (h : Inv s) (hk : (s.place k).proc = some p) (hne : s.place k ≠ .inProc p) :
    (s.pc p).isOut = true := by
  rw [← Bool.not_eq_false]
  intro ho
  obtain ⟨k', hk'⟩ := h.on p ho
  have heq : k = k' := h.alone hk (by rw [hk']; rfl)
  rw [heq] at hne
  exact hne hk'

theorem Inv.not_mine (h : Inv s) (hne : k' ≠ k) (hk' : (s.place k').proc = some q) : (s.place k).proc ≠ some q :=
  fun hk => hne (h.alone hk' hk)

theorem Local.holds_eq (hl : Local s t k) (h : Inv s) (hne : k' ≠ k) : holds t k' = holds s k' := by
  unfold holds
  rw [hl.place k' hne]
  cases hp : s.place k' with
  | inProc q => simp [hl.pc q (h.not_mine hne (by rw [hp]; rfl))]
  | _ => rfl

theorem Local.sole (hl : Local s t k) (h : Inv s) (hh : Handover k s.lock t.lock (holds s k) (holds t k)) :
    Sole (holds t) t.lock :=
  h.sole.handover hh fun _ hne => hl.holds_eq h hne

theorem At.of_local (hl : Local s t k) (hne : k' ≠ k) (hq : ∀ q, y.proc = some q → (s.place k).proc ≠ some q)
    (h : At s k' y) : At t k' y := by
  have hc := hl.cproc k' hne
  cases y with
  | setProc q | setRunning q =>
    have hm := hl.mild q (hq q rfl)
    exact ⟨hc.trans h.1, hm.runnable h.2⟩
  | switchIn q =>
    have hm := hl.mild q (hq q rfl)
    exact ⟨hc.trans h.1, hm.running.mp h.2⟩
  | inProc q =>
    have hm := hl.mild q (hq q rfl)
    simp only [At, hc, hl.pc q (hq q rfl), ← hm.running]
    exact h
  | back q =>
    have hm := hl.mild q (hq q rfl)
    exact ⟨hc.trans h.1, fun hr => h.2 (hm.running.mpr hr)⟩
  | _ => exact hc.trans h

theorem Inv.frees_locked (h : Inv s) (hq : (s.place k).proc ≠ some q) (hc : (s.pc q).frees = some c) :
    s.lock ≠ some k := by
  obtain ⟨hout, hlocked, -⟩ := Pc.of_frees hc
  obtain ⟨k', hk'⟩ := h.on q hout
  have hl : holds s k' = true := (holds_inProc hk').trans hlocked
  rw [(h.sole k').mp hl]
  rintro ⟨⟩
  rw [hk'] at hq
  exact hq rfl

theorem Fine.of_local (hl : Local s t k) (h : Inv s) (hq : (s.place k).proc ≠ some q) : Fine t q := by
  have hpc := hl.pc q hq
  have hf := h.fine q
  refine ⟨fun st r he => ?_, fun c he => ?_, fun np he => ?_, fun np he => ?_⟩
  · rw [hpc] at he
    exact hf.dozes st r he
  · rw [hpc] at he
    exact hl.zombie (h.frees_locked hq he) c (hf.frees c he)
  · rw [hpc] at he
    rw [hl.forking q hq]
    exact hf.starts np he
  · rw [hl.forking q hq] at he
    exact hl.embryo q np hq he

theorem Inv.of_local (h : Inv s) (hl : Local s t k) (hlock : Handover k s.lock t.lock (holds s k) (holds t k))
    (hcpu : At t k (t.place k))
    (hcproc : ∀ p, t.cproc k = some p → (s.place k).proc = some p)
    (hown : ∀ p, (s.place k).proc = some p → Own s t k p) : Inv t := by
  have honce : ∀ k' p, t.cproc k = some p → t.cproc k' = some p → k = k' := by
    intro k' p hp hp'
    by_contra hne
    rw [hl.cproc k' (Ne.symm hne)] at hp'
    exact h.not_mine (Ne.symm hne) (h.proc_of_cproc hp') (hcproc p hp)
  refine ⟨hl.sole h hlock, fun k' => ?_, fun k1 k2 p h1 h2 => ?_, fun p hr => ?_, fun p ho => ?_, fun p hv => ?_,
    fun p => ?_, ?_⟩
  · by_cases hne : k' = k
    · rw [hne]
      exact hcpu
    · rw [hl.place k' hne]
      exact (h.cpu k').of_local hl hne fun q hq => h.not_mine hne hq
  · by_cases hk1 : k1 = k
    · rw [hk1] at h1 ⊢
      exact honce k2 p h1 h2
    · by_cases hk2 : k2 = k
      · rw [hk2] at h2 ⊢
        exact (honce k1 p h2 h1).symm
      · rw [hl.cproc k1 hk1] at h1
        rw [hl.cproc k2 hk2] at h2
        exact h.once k1 k2 p h1 h2
  · by_cases hp : (s.place k).proc = some p
    · exact ⟨k, (hown p hp).run hr⟩
    · obtain ⟨k', hk'⟩ := h.run p ((hl.mild p hp).running.mpr hr)
      refine ⟨k', ?_⟩
      rw [hl.cproc k' ?_]
      · exact hk'
      · rintro rfl
        exact hp (h.proc_of_cproc hk')
  · by_cases hp : (s.place k).proc = some p
    · exact ⟨k, (hown p hp).on ho⟩
    · rw [hl.pc p hp] at ho
      obtain ⟨k', hk'⟩ := h.on p ho
      refine ⟨k', ?_⟩
      rw [hl.place k' ?_]
      · exact hk'
      · rintro rfl
        rw [hk'] at hp
        exact hp rfl
  · by_cases hp : (s.place k).proc = some p
    · exact (hown p hp).out hv
    · rw [hl.pc p hp, ← Bool.not_eq_false]
      intro ho
      obtain ⟨k', hk'⟩ := h.on p ho
      have hne : k' ≠ k := by
        rintro rfl
        rw [hk'] at hp
        exact hp rfl
      by_cases hlocked : s.lock = some k
      · -- nobody but `k` has the lock, and the CPU of `p` is running it
        have hfree := h.unlocked_of_ne ((h.sole k).mpr hlocked) hne
        obtain ⟨-, -, hr⟩ := h.runs_of_unlocked (p := p) (by rw [hk']; rfl) hfree
        rw [(hl.mild p hp).running.mp hr] at hv
        cases hv
      · cases ho.symm.trans (h.out p (hl.vacant hlocked p hv))
  · by_cases hp : (s.place k).proc = some p
    · exact (hown p hp).fine
    · exact Fine.of_local hl h hp
  · -- a child that is new to its maker was nobody's
    have hnew : ∀ p q np, (s.place k).proc = some p → (s.place k).proc ≠ some q → t.forking p = some np →
        t.forking q = some np → p = q := by
      intro p q np hp hq hfp hfq
      rw [hl.forking q hq] at hfq
      rcases (hown p hp).forking np hfp with hf | hu
      · exact h.apart p q np hf hfq
      · cases hu.symm.trans ((h.fine q).forks np hfq)
    intro p q np hfp hfq
    by_cases hp : (s.place k).proc = some p
    · by_cases hq : (s.place k).proc = some q
      · exact Option.some.inj (hp.symm.trans hq)
      · exact hnew p q np hp hq hfp hfq
    · by_cases hq : (s.place k).proc = some q
      · exact (hnew q p np hq hp hfq hfp).symm
      · rw [hl.forking p hp] at hfp
        rw [hl.forking q hq] at hfq
        exact h.apart p q np hfp hfq

structure Wakes (s u : Sys K) : Prop where
  lock : u.lock = s.lock
  place : u.place = s.place
  cproc : u.cproc = s.cproc
  pc : u.pc = s.pc
  forking : u.forking = s.forking
  state : ∀ q, state u q = state s q ∨ state s q = .sleeping ∧ state u q = .runnable

theorem Wakes.refl (s : Sys K) : Wakes s s := ⟨rfl, rfl, rfl, rfl, rfl, fun _ => Or.inl rfl⟩

theorem Wakes.trans (h : Wakes s t) (h' : Wakes t u) : Wakes s u := by
  refine ⟨h'.lock.trans h.lock, h'.place.trans h.place, h'.cproc.trans h.cproc, h'.pc.trans h.pc,
    h'.forking.trans h.forking, fun q => ?_⟩
  rcases h.state q with hs | ⟨hs, ht⟩
  · rw [← hs]
    exact h'.state q
  · rcases h'.state q with hu | ⟨ht', -⟩
    · exact Or.inr ⟨hs, hu.trans ht⟩
    · cases ht.symm.trans ht'

theorem Wakes.keeps {st : ProcState} (h : Wakes s u) (hst : st ≠ .sleeping) (hq : Scheduler.state s q = st) :
    Scheduler.state u q = st := by
  rcases h.state q with hu | ⟨hs, -⟩
  · rw [hu, hq]
  · exact absurd (hq.symm.trans hs) hst

theorem Wakes.mild (h : Wakes s u) (q : Slot) : Mild (Scheduler.state s q) (Scheduler.state u q) := by
  rcases h.state q with hu | ⟨hs, hu⟩
  · rw [hu]
    exact ⟨id, Iff.rfl⟩
  · rw [hs, hu]
    exact ⟨by rintro ⟨⟩, by simp⟩

theorem Wakes.vacant (h : Wakes s u) (q : Slot) : vacant (Scheduler.state u q) = vacant (Scheduler.state s q) := by
  rcases h.state q with hu | ⟨hs, hu⟩
  · rw [hu]
  · rw [hs, hu]
    rfl

theorem state_setProc {x : Proc} (q : Slot) : state (setProc s p x) q = if q = p then x.state else state s q := by
  simp only [state, setProc, Function.update_apply]
  split <;> rfl

theorem setProc_wakes {x : Proc} (h : x.state = state s p) : Wakes s (setProc s p x) := by
  refine ⟨rfl, rfl, rfl, rfl, rfl, fun q => Or.inl ?_⟩
  rw [state_setProc]
  split_ifs with hq
  · rw [h, hq]
  · rfl

theorem wakeup1_wakes (s : Sys K) (chan : Chan) : Wakes s (wakeup1 s chan) := by
  refine ⟨rfl, rfl, rfl, rfl, rfl, fun q => ?_⟩
  simp only [state, wakeup1]
  split_ifs with hq
  · exact Or.inr ⟨hq.1, rfl⟩
  · exact Or.inl rfl

theorem kill_wakes (s : Sys K) (pid : Int32) : Wakes s (kill s pid) := by
  unfold kill
  split
  · next q _ =>
    refine ⟨rfl, rfl, rfl, rfl, rfl, fun r => ?_⟩
    rw [state_setProc]
    split_ifs with hr hs
    · exact Or.inr ⟨hr ▸ hs, rfl⟩
    · exact Or.inl (by rw [hr]; rfl)
    · exact Or.inl rfl
  · exact Wakes.refl s

theorem exitWake_wakes (s : Sys K) (p : Slot) : Wakes s (exitWake s p) := by
  unfold exitWake
  split
  · exact wakeup1_wakes s _
  · exact Wakes.refl s

theorem reparent_wakes (p : Slot) (s : Sys K) (q : Slot) : Wakes s (reparent p s q) := by
  have hset : Wakes s (setProc s q { s.proc q with parent := some s.initproc }) := setProc_wakes rfl
  unfold reparent
  split_ifs
  · exact hset.trans (wakeup1_wakes _ _)
  · exact hset
  · exact Wakes.refl s

theorem foldl_reparent_wakes (p : Slot) (l : List Slot) (s : Sys K) : Wakes s (l.foldl (reparent p) s) := by
  induction l generalizing s with
  | nil => exact Wakes.refl s
  | cons q l ih => exact (reparent_wakes p s q).trans (ih _)

structure Touches (s u : Sys K) (k : K) (p : Slot) : Prop where
  place : u.place = s.place
  cproc : u.cproc = s.cproc
  pc : u.pc = s.pc
  mild : ∀ q, q ≠ p → Mild (state s q) (state u q)
  zombie : s.lock ≠ some k → ∀ c, state s c = .zombie → state u c = .zombie
  vacant : s.lock ≠ some k → ∀ c, vacant (state u c) = true → vacant (state s c) = true
  forking : ∀ q, q ≠ p → u.forking q = s.forking q
  embryo : ∀ q np, q ≠ p → s.forking q = some np → state u np = .embryo
  new : ∀ np, u.forking p = some np → s.forking p = some np ∨ state s np = .unused

theorem Wakes.touches {o : Option K} (hw : Wakes s u) (h : Inv s) : Touches s { u with lock := o } k p where
  place := hw.place
  cproc := hw.cproc
  pc := hw.pc
  mild q _ := hw.mild q
  zombie _ _ hc := hw.keeps (by rintro ⟨⟩) hc
  vacant _ c hc := (hw.vacant c).symm.trans hc
  forking q _ := congrFun hw.forking q
  embryo q np _ hf := hw.keeps (by rintro ⟨⟩) ((h.fine q).forks np hf)
  new np hf := Or.inl (hw.forking ▸ hf)

theorem goto_state : state (goto u p x) = state u := rfl

theorem goto_pc_self : (goto u p x).pc p = x := Function.update_self ..

theorem Fine.congr (h : Fine s p) (hpc : t.pc p = s.pc p) (hproc : t.proc = s.proc) (hforking : t.forking = s.forking) :
    Fine t p := by
  have hstate : state t = state s := by
    funext q
    rw [state, state, hproc]
  refine ⟨?_, ?_, ?_, ?_⟩
  · rw [hpc]
    exact h.dozes
  · rw [hpc, hstate]
    exact h.frees
  · rw [hpc, hforking]
    exact h.starts
  · rw [hforking, hstate]
    exact h.forks

theorem Fine.of_pc (hx : t.pc p = x) (hdozes : ∀ st r, x = .setState st r → st ≠ .running ∧ vacant st = false)
    (hfrees : ∀ c, x.frees = some c → state t c = .zombie) (hstarts : ∀ np, x.starts = some np → t.forking p = some np)
    (hforks : ∀ np, t.forking p = some np → state t np = .embryo) : Fine t p := by
  subst hx
  exact ⟨hdozes, hfrees, hstarts, hforks⟩

theorem Fine.of_plain (hx : (t.pc p).plain = true) (hforks : ∀ np, t.forking p = some np → state t np = .embryo) :
    Fine t p := by
  apply Fine.of_pc rfl
  · intro st r he
    rw [he] at hx
    cases hx
  · intro c he
    cases hp : t.pc p <;> simp_all
  · intro np he
    cases hp : t.pc p with
    | acquire c => cases c <;> simp_all
    | _ => simp_all
  · exact hforks

theorem Touches.local (ht : Touches s u k p) (hk : s.place k = .inProc p) : Local s (goto u p x) k := by
  have hne : ∀ q, (s.place k).proc ≠ some q → q ≠ p := by
    rintro q hq rfl
    rw [hk] at hq
    exact hq rfl
  refine ⟨fun k' _ => congrFun ht.place k', fun k' _ => congrFun ht.cproc k', fun q hq => ?_,
    fun q hq => ht.mild q (hne q hq), ht.zombie, ht.vacant, fun q hq => ht.forking q (hne q hq),
        fun q np hq => ht.embryo q np (hne q hq)⟩
  rw [← ht.pc]
  exact Function.update_of_ne (hne q hq) _ _

theorem Inv.goto_of (h : Inv s) (hk : s.place k = .inProc p) (ht : Touches s u k p)
    (hlock : Handover k s.lock u.lock (s.pc p).locked x.locked) (hout : x.isOut = false)
    (hrun : state u p = .running ↔ x.atSched = false) (hvacant : vacant (state u p) = false)
    (hfine : Fine (goto u p x) p) : Inv (goto u p x) := by
  have hat := h.cpu k
  rw [hk] at hat
  have hplace : (goto u p x).place k = .inProc p := (congrFun ht.place k).trans hk
  have hcproc : (goto u p x).cproc k = some p := (congrFun ht.cproc k).trans hat.1
  apply h.of_local (ht.local hk)
  · rw [holds_inProc hk, holds_inProc hplace, goto_pc_self]
    exact hlock
  · rw [hplace]
    exact ⟨hcproc, by rw [goto_pc_self]; exact hout, by rw [goto_pc_self]; exact hrun⟩
  · intro q hq
    rw [hk, ← hq, hcproc]
    rfl
  · intro q hq
    rw [hk] at hq
    cases hq
    refine ⟨fun _ => hcproc, fun _ => hplace, fun hv => ?_, hfine, ht.new⟩
    cases hvacant.symm.trans hv

theorem Inv.goto_running (h : Inv s) (hk : s.place k = .inProc p) (ht : Touches s u k p)
    (hlock : Handover k s.lock u.lock (s.pc p).locked x.locked) (hout : x.isOut = false) (hsched : x.atSched = false)
    (hrun : state u p = .running) (hfine : Fine (goto u p x) p) : Inv (goto u p x) := by
  apply h.goto_of hk ht hlock hout _ _ hfine
  · simp only [hrun, hsched]
  · rw [hrun]
    rfl

theorem Inv.wakes_goto (h : Inv s) {o : Option K} (hk : s.place k = .inProc p) (hw : Wakes s u)
    (hlock : Handover k s.lock o (s.pc p).locked x.locked) (hout : x.isOut = false)
    (hsched : x.atSched = (s.pc p).atSched) (hdozes : ∀ st r, x = .setState st r → st ≠ .running ∧ vacant st = false)
    (hfrees : ∀ c, x.frees = some c → state s c = .zombie)
    (hstarts : ∀ np, x.starts = some np → s.forking p = some np) : Inv (goto { u with lock := o } p x) := by
  have hat := h.cpu k
  rw [hk] at hat
  apply h.goto_of hk (hw.touches h) hlock hout
  · rw [hsched, ← hat.2.2]
    exact (hw.mild p).running.symm
  · apply (hw.vacant p).trans
    rw [← Bool.not_eq_true]
    intro hv
    cases (h.out p hv).symm.trans hat.2.1
  · apply Fine.of_pc goto_pc_self hdozes
    · exact fun c hc => hw.keeps (by rintro ⟨⟩) (hfrees c hc)
    · exact fun np hs => (congrFun hw.forking p).trans (hstarts np hs)
    · exact fun np hf => hw.keeps (by rintro ⟨⟩) ((h.fine p).forks np (hw.forking ▸ hf))

theorem Inv.wakes_locked (h : Inv s) {y : Pc} (hk : s.place k = .inProc p) (hp : s.pc p = y) (hw : Wakes s u)
    (hy : y.works = true) (hx : x.works = true) (hfrees : ∀ c, x.frees = some c → state s c = .zombie) :
    Inv (goto u p x) := by
  obtain ⟨hxout, hxlocked, hxsched⟩ := Pc.of_works hx
  obtain ⟨-, hylocked, hysched⟩ := Pc.of_works hy
  apply h.wakes_goto (u := u) (o := u.lock) hk hw
  · rw [hw.lock, hp, hylocked, hxlocked]
    exact .keep _ _
  · exact hxout
  · rw [hp, hysched, hxsched]
  · rintro st r rfl
    exact of_decide_eq_true hx
  · exact hfrees
  · intro np hs
    cases x with
    | acquire c => cases hx
    | setRunnable np => cases hx
    | _ => cases hs

end Xv6.Scheduler
