import Xv6.ProcIds

namespace Xv6.ProcTable

open Transition

variable {t u : Ptable} {c i np q : Slot} {e : Event}

def reaped (t : Ptable) : Event → Option Slot
  | .wait c => findSlot t (fun p => p.parent = some c ∧ p.state = .zombie)
  | _ => none

theorem reaped_eq_some (h : reaped t e = some i) :
    ∃ c, e = .wait c ∧ (t.proc i).parent = some c ∧ (t.proc i).state = .zombie := by
  cases e with
  | wait c =>
    rw [reaped] at h
    have := findSlot_some h
    simp only [decide_eq_true_eq] at this
    exact ⟨c, rfl, this⟩
  | schedule | yield | allocproc | allocStack | forkCopy | forkRun | exit | kill => cases h

theorem findSlot_congr {f : Proc → Bool} (h : ∀ i, f (u.proc i) = f (t.proc i)) : findSlot u f = findSlot t f := by
  simp only [findSlot, h]

inductive Waited (t : Ptable) (c : Slot) : Prop
  | reap (i : Slot) (hr : reaped t (.wait c) = some i) (hret : (wait t c).2 = some (t.proc i).pid)
      (hfree : ((wait t c).1.proc i).state = .unused)
      (hold : ∀ j, j ≠ i → ((wait t c).1.proc j).state = (t.proc j).state)
  | fail (hr : reaped t (.wait c) = none) (hret : (wait t c).2 = some (-1))
      (hwhy : (∀ j, (t.proc j).parent ≠ some c) ∨ (t.proc c).killed = true)
      (hold : ∀ j, ((wait t c).1.proc j).state = (t.proc j).state)
  | sleep (hr : reaped t (.wait c) = none) (hret : (wait t c).2 = none)
      (hself : ((wait t c).1.proc c).state = .sleeping)
      (hold : ∀ j, j ≠ c → ((wait t c).1.proc j).state = (t.proc j).state)

theorem wait_cases (t : Ptable) (c : Slot) : Waited t c := by
  have hproc : ∀ j, (t.set c { t.proc c with chan := none }).proc j =
      { t.proc j with chan := if j = c then none else (t.proc j).chan } := by
    intro j
    rw [Ptable.set_proc]
    split_ifs with hj
    · rw [hj]
    · rfl
  have hreaped : findSlot (t.set c { t.proc c with chan := none }) (fun p => p.parent = some c ∧ p.state = .zombie) =
      reaped t (.wait c) := by
    apply findSlot_congr
    intro j
    rw [hproc]
  have hkids : findSlot (t.set c { t.proc c with chan := none }) (fun p => p.parent = some c) =
      findSlot t (fun p => p.parent = some c) := by
    apply findSlot_congr
    intro j
    rw [hproc]
  cases hr : reaped t (.wait c) with
  | some i =>
    have hw : wait t c =
        (((t.set c { t.proc c with chan := none }).set i { (t.set c { t.proc c with chan := none }).proc i with
          kstack := false, pid := 0, parent := none, killed := false, state := .unused }).goto c .user,
        some ((t.set c { t.proc c with chan := none }).proc i).pid) := by
      simp only [wait, hreaped, hr]
    apply Waited.reap i hr
    · rw [hw, hproc]
    · rw [hw]
      simp only [Ptable.goto_proc]
      rw [Ptable.set_proc, if_pos rfl]
    · intro j hj
      rw [hw]
      simp only [Ptable.goto_proc]
      rw [Ptable.set_proc, if_neg hj, hproc]
  | none =>
    by_cases hstop : findSlot t (fun p => p.parent = some c) = none ∨ (t.proc c).killed = true
    · have hw : wait t c = ((t.set c { t.proc c with chan := none }).goto c .user, some (-1)) := by
        simp only [wait, hreaped, hr, hkids, hproc, hstop, if_true]
      apply Waited.fail hr
      · rw [hw]
      · apply hstop.imp_left
        intro hn j hj
        have := findSlot_none hn j
        simp [hj] at this
      · intro j
        rw [hw]
        simp only [Ptable.goto_proc]
        rw [hproc]
    · have hw : wait t c = (((t.set c { t.proc c with chan := none }).set c
            { (t.set c { t.proc c with chan := none }).proc c with chan := some c, state := .sleeping }).goto c
            .waiting, none) := by
        simp only [wait, hreaped, hr, hkids, hproc, hstop, if_false]
      apply Waited.sleep hr
      · rw [hw]
      · rw [hw]
        simp only [Ptable.goto_proc]
        rw [Ptable.set_proc, if_pos rfl]
      · intro j hj
        rw [hw]
        simp only [Ptable.goto_proc]
        rw [Ptable.set_proc, if_neg hj, hproc]

def SameZombies (t u : Ptable) : Prop := ∀ i, (u.proc i).state = .zombie ↔ (t.proc i).state = .zombie

theorem Alike.sameZombies (h : Alike t u) : SameZombies t u := fun i => h.dead_iff i rfl

theorem sameZombies_set {p : Proc} (ht : (t.proc i).state ≠ .zombie) (hp : p.state ≠ .zombie) :
    SameZombies t (t.set i p) := by
  intro j
  rw [Ptable.set_proc]
  split_ifs with hj
  · rw [hj]
    exact ⟨fun h => absurd h hp, fun h => absurd h ht⟩
  · exact Iff.rfl

theorem reparent_zombies (t : Ptable) (c i : Slot) : SameZombies t (reparent c t i) := by
  have hset : SameZombies t (t.set i { t.proc i with parent := some t.initproc }) := by
    intro j
    rw [Ptable.set_proc]
    split_ifs with hj
    · rw [hj]
    · exact Iff.rfl
  rw [reparent]
  split_ifs
  · exact fun j => ((alike_wakeupAll _ t.initproc).sameZombies j).trans (hset j)
  · exact hset
  · exact fun _ => Iff.rfl

theorem foldl_reparent_zombies (c : Slot) (is : List Slot) (t : Ptable) :
    SameZombies t (is.foldl (reparent c) t) := by
  induction is generalizing t with
  | nil => exact fun _ => Iff.rfl
  | cons i is ih => exact fun j => (ih (reparent c t i) j).trans (reparent_zombies t c i j)

theorem exit_zombies (h : exit t c = .ok u) (i : Slot) :
    (u.proc i).state = .zombie ↔ i = c ∨ (t.proc i).state = .zombie := by
  rw [exit] at h
  split_ifs at h
  cases h
  rw [Ptable.set_proc]
  split_ifs with hi
  · exact ⟨fun _ => Or.inl hi, fun _ => rfl⟩
  · have hiff : (t.proc i).state = .zombie ↔ i = c ∨ (t.proc i).state = .zombie :=
      ⟨Or.inr, fun h => h.resolve_left hi⟩
    refine (foldl_reparent_zombies c _ _ i).trans ?_
    split
    · exact ((alike_wakeupAll t _).sameZombies i).trans hiff
    · exact hiff

theorem Tree.not_zombie (h : Tree t) (hx : (t.thread c).child = some np) : (t.proc np).state ≠ .zombie := by
  rw [h.forks.state c np hx]
  exact ProcState.noConfusion

theorem step_zombies (h : Tree t) (hs : step t e = some (.ok u)) (i : Slot) :
    (u.proc i).state = .zombie ↔ e = .exit i ∨ (t.proc i).state = .zombie ∧ reaped t e ≠ some i := by
  have hsame : SameZombies t u → reaped t e = none → (∀ c, e ≠ .exit c) →
      ((u.proc i).state = .zombie ↔ e = .exit i ∨ (t.proc i).state = .zombie ∧ reaped t e ≠ some i) := by
    intro hz hr he
    rw [hz i, hr]
    exact ⟨fun hi => Or.inr ⟨hi, by rintro ⟨⟩⟩, fun hi => (hi.resolve_left (he i)).1⟩
  rcases step_cases hs with ⟨c, rfl, hc, rfl⟩ | ⟨hc, ha⟩
  · apply hsame _ rfl fun _ => by rintro ⟨⟩
    exact sameZombies_set (by rw [hc]; exact ProcState.noConfusion) ProcState.noConfusion
  cases e with
  | schedule c => cases ha
  | yield c =>
    cases ha
    apply hsame _ rfl fun _ => by rintro ⟨⟩
    exact sameZombies_set (by rw [show (t.proc c).state = _ from hc]; exact ProcState.noConfusion) ProcState.noConfusion
  | allocproc c =>
    simp only [act] at ha
    split_ifs at ha
    cases ha
    apply hsame _ rfl fun _ => by rintro ⟨⟩
    rw [allocproc]
    split
    · exact fun _ => Iff.rfl
    · next j hj =>
      have hj : (t.proc j).state = .unused := by simpa using findSlot_some hj
      exact sameZombies_set (by rw [hj]; exact ProcState.noConfusion) ProcState.noConfusion
  | allocStack c ok | forkCopy c ok =>
    simp only [act] at ha
    split at ha
    next np hx =>
      cases ha
      apply hsame _ rfl fun _ => by rintro ⟨⟩
      have hnp : (t.proc np).state ≠ .zombie := h.not_zombie (c := c) (by rw [hx]; rfl)
      cases ok
      · exact sameZombies_set hnp ProcState.noConfusion
      · exact sameZombies_set hnp hnp
    next => cases ha
  | forkRun c =>
    simp only [act] at ha
    split at ha
    next np hx =>
      cases ha
      apply hsame _ rfl fun _ => by rintro ⟨⟩
      exact sameZombies_set (h.not_zombie (c := c) (by rw [hx]; rfl)) ProcState.noConfusion
    next => cases ha
  | exit c =>
    simp only [act] at ha
    split_ifs at ha
    rw [exit_zombies (Option.some.inj ha) i]
    constructor
    · rintro (rfl | hi)
      · exact Or.inl rfl
      · exact Or.inr ⟨hi, by rintro ⟨⟩⟩
    · rintro (he | ⟨hi, -⟩)
      · cases he
        exact Or.inl rfl
      · exact Or.inr hi
  | wait c =>
    simp only [act] at ha
    split_ifs at ha
    cases ha
    rcases wait_cases t c with ⟨j, hr, -, hfree, hold⟩ | ⟨hr, -, -, hold⟩ | ⟨hr, -, hself, hold⟩
    · by_cases hij : i = j
      · subst hij
        rw [hfree]
        exact ⟨by rintro ⟨⟩, fun he => absurd hr (he.resolve_left (by rintro ⟨⟩)).2⟩
      · rw [hold i hij, hr]
        exact ⟨fun hi => Or.inr ⟨hi, fun he => hij (Option.some.inj he).symm⟩,
            fun he => (he.resolve_left (by rintro ⟨⟩)).1⟩
    · exact hsame (fun j => by rw [hold j]) hr fun _ => by rintro ⟨⟩
    · apply hsame _ hr fun _ => by rintro ⟨⟩
      intro j
      by_cases hj : j = c
      · rw [hj, hself, show (t.proc c).state = _ from hc]
        exact ⟨by rintro ⟨⟩, by rintro ⟨⟩⟩
      · rw [hold j hj]
  | kill c pid =>
    simp only [act] at ha
    split_ifs at ha
    cases ha
    apply hsame _ rfl fun _ => by rintro ⟨⟩
    rw [kill]
    split
    · intro j
      rw [Ptable.set_proc]
      split_ifs with hj hsl
      · rw [hj, hsl]
        exact ⟨by rintro ⟨⟩, by rintro ⟨⟩⟩
      · rw [hj]
      · exact Iff.rfl
    · exact fun _ => Iff.rfl

def reapings (i : Slot) : Ptable → List Event → ℕ
  | _, [] => 0
  | t, e :: es => (if reaped t e = some i then 1 else 0) + match step t e with
    | some (.ok u) => reapings i u es
    | _ => 0

theorem reapings_cons (hs : step t e = some (.ok u)) (i : Slot) (es : List Event) :
    reapings i t (e :: es) = (if reaped t e = some i then 1 else 0) + reapings i u es := by
  simp only [reapings, hs]

theorem run_reapings {es : List Event} (hrun : Run (Steps step) t es u) (h : Tree t) (i : Slot) :
    (if (t.proc i).state = .zombie then 1 else 0) + es.count (.exit i) =
      reapings i t es + if (u.proc i).state = .zombie then 1 else 0 := by
  induction hrun with
  | nil t => simp [reapings]
  | @cons t u v e es hs _ ih =>
    have hz := step_zombies h hs i
    have ih := ih (h.step hs)
    rw [reapings_cons hs, List.count_cons]
    by_cases hexit : e = .exit i
    · subst hexit
      have hnot : (t.proc i).state ≠ .zombie := by
        rcases step_cases hs with ⟨c, hc, -⟩ | ⟨hc, -⟩
        · cases hc
        · rw [show (t.proc i).state = _ from hc]
          exact ProcState.noConfusion
      rw [if_pos (hz.mpr (Or.inl rfl))] at ih
      simp only [hnot, reaped, BEq.rfl, reduceCtorEq, if_true, if_false]
      omega
    · have hne : (e == .exit i) = false := by simpa using hexit
      rw [hne]
      by_cases hr : reaped t e = some i
      · obtain ⟨c, -, -, hzi⟩ := reaped_eq_some hr
        have hnot : (u.proc i).state ≠ .zombie := fun hu => ((hz.mp hu).resolve_left hexit).2 hr
        rw [if_neg hnot] at ih
        rw [if_pos hr, if_pos hzi]
        simp only [Bool.false_eq_true, if_false]
        omega
      · have hiff : (u.proc i).state = .zombie ↔ (t.proc i).state = .zombie :=
          hz.trans ⟨fun hu => (hu.resolve_left hexit).1, fun ht => Or.inr ⟨ht, hr⟩⟩
        simp only [hiff] at ih
        rw [if_neg hr]
        simp only [Bool.false_eq_true, if_false]
        omega

/-- The protocol of `fork`, `exit` and `wait` over every run from boot. The last clause reads the value -1 literally,
which needs that the counter of pids, a C `int`, has not overflowed. -/
theorem fork_exit_wait (es : List Event) (t : Ptable) (h : Run (Steps step) boot es t) :
    (∀ i, i ≠ t.initproc → (t.proc i).state.live = true ∨ (t.proc i).state = .zombie →
      ∃ p, (t.proc i).parent = some p ∧ (t.proc p).state ≠ .unused ∧ (t.proc p).state ≠ .zombie) ∧
    (∀ i, (t.proc i).state = .zombie → ∀ j, (t.proc j).parent ≠ some i) ∧
    (∀ i, es.count (.exit i) = reapings i boot es + if (t.proc i).state = .zombie then 1 else 0) ∧
    (∀ e u i, step t e = some (.ok u) → (t.proc i).state = .zombie → (u.proc i).state ≠ .zombie →
      ∃ c, e = .wait c ∧ (t.proc i).parent = some c ∧ (u.proc i).state = .unused ∧
        (wait t c).2 = some (t.proc i).pid) ∧
    (∀ c, (t.proc c).state = .sleeping → (t.proc c).chan = some c →
      ∀ i, (t.proc i).parent = some c → (t.proc i).state ≠ .zombie) ∧
    (∀ c r, (wait t c).2 = some r →
      (∃ i, (t.proc i).parent = some c ∧ (t.proc i).state = .zombie ∧ r = (t.proc i).pid) ∨
        r = -1 ∧ ((∀ i, (t.proc i).parent ≠ some c) ∨ (t.proc c).killed = true)) ∧
    (es.countP Event.isAllocproc < 2 ^ 31 - 2 → ∀ c, (wait t c).2 = some (-1) →
      (∀ i, (t.proc i).parent ≠ some c) ∨ (t.proc c).killed = true) := by
  have htree : Tree t := h.always (fun _ _ _ hs ht => hs.step ht) boot_tree
  have hret : ∀ c r, (wait t c).2 = some r →
      (∃ i, (t.proc i).parent = some c ∧ (t.proc i).state = .zombie ∧ r = (t.proc i).pid) ∨
        r = -1 ∧ ((∀ i, (t.proc i).parent ≠ some c) ∨ (t.proc c).killed = true) := by
    intro c r hr
    rcases wait_cases t c with ⟨i, hi, hpid, -, -⟩ | ⟨-, hfail, hwhy, -⟩ | ⟨-, hnone, -, -⟩
    · obtain ⟨c', hc', hp, hz⟩ := reaped_eq_some hi
      cases hc'
      rw [hpid, Option.some.injEq] at hr
      exact Or.inl ⟨i, hp, hz, hr.symm⟩
    · rw [hfail, Option.some.injEq] at hr
      exact Or.inr ⟨hr.symm, hwhy⟩
    · rw [hnone] at hr
      cases hr
  refine ⟨?_, ?_, ?_, ?_, fun c hc _ => (htree.family.sleeper c hc).2, hret, ?_⟩
  · intro i hi hs
    obtain ⟨p, hp⟩ := Option.ne_none_iff_exists'.mp (htree.family.child i hi hs)
    have hl := htree.family.parent i p hp
    refine ⟨p, hp, ?_, ?_⟩
    all_goals intro he; rw [he] at hl; cases hl
  · intro i hi j hj
    have hl := htree.family.parent j i hj
    rw [hi] at hl
    cases hl
  · intro i
    have hboot : ∀ i, (boot.proc i).state ≠ .zombie := by decide
    have hcount := run_reapings h boot_tree i
    rwa [if_neg (hboot i), Nat.zero_add] at hcount
  · intro e u i hs hi hu
    have hr : reaped t e = some i := by
      by_contra hn
      exact hu ((step_zombies htree hs i).mpr (Or.inr ⟨hi, hn⟩))
    obtain ⟨c, rfl, hp, -⟩ := reaped_eq_some hr
    rcases step_cases hs with ⟨c', hc', -⟩ | ⟨-, ha⟩
    · cases hc'
    simp only [act] at ha
    split_ifs at ha
    cases ha
    rcases wait_cases t c with ⟨j, hj, hpid, hfree, -⟩ | ⟨hnone, -⟩ | ⟨hnone, -⟩
    · rw [hr, Option.some.injEq] at hj
      subst hj
      exact ⟨c, rfl, hp, hfree, hpid⟩
    all_goals rw [hr] at hnone; cases hnone
  · intro hfew c hc
    rcases hret c _ hc with ⟨i, -, -, hpid⟩ | ⟨-, hwhy⟩
    · have hpids := (run_pids h boot_tree boot_pids (by omega)).pid i
      rw [← hpid] at hpids
      exact absurd hpids.1 (by decide)
    · exact hwhy

def oneChild : List Event :=
  [.schedule init, .allocproc init, .allocStack init true, .forkCopy init true, .forkRun init, .schedule second,
    .exit second, .wait init]

theorem fork_exit_wait_once : ∃ t, Run (Steps step) boot oneChild t ∧ (t.proc second).state = .unused ∧
    reapings second boot oneChild = 1 := by
  have h : (exec step boot oneChild).map (fun t => (t.proc second).state) = some .unused := by
    decide +kernel
  obtain ⟨t, ht, hs⟩ := Option.map_eq_some_iff.mp h
  have hcount := (fork_exit_wait _ t (run_of_exec ht)).2.2.1 second
  rw [hs, if_neg ProcState.noConfusion, show oneChild.count (.exit second) = 1 by decide, Nat.add_zero] at hcount
  exact ⟨t, run_of_exec ht, hs, hcount.symm⟩

/-- The child whose pid is -1 is reaped by a `wait` that seems to fail. -/
theorem reaped_child_denied : ¬ ∀ (es : List Event) (t : Ptable), Run (Steps step) boot es t →
    ∀ c, (wait t c).2 = some (-1) → (∀ i, (t.proc i).parent ≠ some c) ∨ (t.proc c).killed = true := by
  intro hall
  obtain ⟨es, hes⟩ := rounds_count 4294967293
  have hpid : Int32.ofNat (2 + 4294967293) = -1 := by decide
  rw [hpid] at hes
  have hwait := congrArg Prod.snd (wait_child (-1 + 1) (-1))
  rcases hall _ _ (hes.append (run_of_exec (childExits_eq (-1)))) init hwait with hno | hkilled
  · exact hno second rfl
  · cases hkilled

end Xv6.ProcTable
