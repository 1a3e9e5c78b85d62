import Xv6.ProcTree

namespace Xv6.ProcTable

open Transition
open Function (update update_self update_of_ne update_idem update_eq_self)

variable {t u : Ptable} {c i np q : Slot} {e : Event}

structure Pids (t : Ptable) (k : ℕ) : Prop where
  next : t.nextpid.toInt ≤ k
  low : 2 ≤ t.nextpid.toInt
  pid : ∀ i, 0 ≤ (t.proc i).pid.toInt ∧ (t.proc i).pid.toInt < t.nextpid.toInt

def Kept (p q : Proc) : Prop := q.pid = p.pid ∧ (q.state = .unused ↔ p.state = .unused)

def Dropped (p q : Proc) : Prop := q.state = .unused ∧ (q.pid = p.pid ∨ q.pid = 0)

structure SamePids (t u : Ptable) : Prop where
  next : u.nextpid = t.nextpid
  pid : ∀ i, Kept (t.proc i) (u.proc i) ∨ Dropped (t.proc i) (u.proc i)

structure KeptPids (t u : Ptable) : Prop where
  next : u.nextpid = t.nextpid
  pid : ∀ i, Kept (t.proc i) (u.proc i)

theorem Kept.refl (p : Proc) : Kept p p := ⟨rfl, Iff.rfl⟩

theorem KeptPids.same (h : KeptPids t u) : SamePids t u := ⟨h.next, fun i => Or.inl (h.pid i)⟩

theorem KeptPids.refl (t : Ptable) : KeptPids t t := ⟨rfl, fun _ => Kept.refl _⟩

theorem KeptPids.trans {v : Ptable} (h : KeptPids t u) (h' : KeptPids u v) : KeptPids t v :=
  ⟨h'.next.trans h.next, fun i => ⟨(h'.pid i).1.trans (h.pid i).1, (h'.pid i).2.trans (h.pid i).2⟩⟩

theorem SamePids.goto (h : SamePids t u) (c : Slot) (x : Thread) : SamePids t (u.goto c x) := ⟨h.next, h.pid⟩

theorem KeptPids.goto (h : KeptPids t u) (c : Slot) (x : Thread) : KeptPids t (u.goto c x) := ⟨h.next, h.pid⟩

theorem Pids.same {k : ℕ} (h : Pids t k) (hs : SamePids t u) : Pids u k := by
  refine ⟨hs.next ▸ h.next, hs.next ▸ h.low, fun i => ?_⟩
  have hpid : (u.proc i).pid = (t.proc i).pid ∨ (u.proc i).pid = 0 := by
    rcases hs.pid i with hk | hd
    · exact Or.inl hk.1
    · exact hd.2
  rw [hs.next]
  rcases hpid with he | he
  · rw [he]
    exact h.pid i
  · rw [he]
    have := h.low
    exact ⟨le_refl _, by rw [show (0 : Int32).toInt = 0 from rfl]; omega⟩

theorem keptPids_set {p : Proc} (hp : Kept (t.proc i) p) : KeptPids t (t.set i p) := by
  refine ⟨rfl, fun j => ?_⟩
  rw [Ptable.set_proc]
  split_ifs with hj
  · rw [hj]
    exact hp
  · exact Kept.refl _

theorem samePids_drop {p : Proc} (hp : Dropped (t.proc i) p) : SamePids t (t.set i p) := by
  refine ⟨rfl, fun j => ?_⟩
  rw [Ptable.set_proc]
  split_ifs with hj
  · rw [hj]
    exact Or.inr hp
  · exact Or.inl (Kept.refl _)

theorem keptPids_setState {x : ProcState} (hx : x ≠ .unused) (hi : (t.proc i).state ≠ .unused) :
    KeptPids t (t.set i { t.proc i with state := x }) := by
  apply keptPids_set
  exact ⟨rfl, iff_of_false hx hi⟩

theorem keptPids_wakeupAll (t : Ptable) (c : Slot) : KeptPids t (wakeupAll t c) := by
  refine ⟨rfl, fun i => ?_⟩
  simp only [wakeupAll, wakeup1]
  split_ifs with hs
  · exact ⟨rfl, iff_of_false ProcState.noConfusion (by rw [hs.1]; exact ProcState.noConfusion)⟩
  · exact Kept.refl _

theorem keptPids_foldl (c : Slot) (is : List Slot) (t : Ptable) : KeptPids t (is.foldl (reparent c) t) := by
  induction is generalizing t with
  | nil => exact .refl t
  | cons i is ih =>
    refine KeptPids.trans ?_ (ih (reparent c t i))
    rw [reparent]
    split_ifs
    · apply KeptPids.trans _ (keptPids_wakeupAll _ _)
      apply keptPids_set
      exact Kept.refl _
    · apply keptPids_set
      exact Kept.refl _
    · exact .refl t

theorem keptPids_exit (hc : (t.proc c).state ≠ .unused) (h : exit t c = .ok u) : KeptPids t u := by
  rw [exit] at h
  split_ifs at h
  cases h
  have hlast : ∀ t1 : Ptable, KeptPids t t1 →
      KeptPids t (((List.finRange NPROC).foldl (reparent c) t1).set c
        { ((List.finRange NPROC).foldl (reparent c) t1).proc c with state := .zombie }) := by
    intro t1 h1
    have h2 := h1.trans (keptPids_foldl c (List.finRange NPROC) t1)
    apply h2.trans
    apply keptPids_setState ProcState.noConfusion
    rwa [ne_eq, (h2.pid c).2]
  apply hlast
  split
  · exact keptPids_wakeupAll t _
  · exact .refl t

theorem samePids_wait (hc : (t.proc c).state ≠ .unused) : SamePids t (wait t c).1 := by
  have h0 : KeptPids t (t.set c { t.proc c with chan := none }) := by
    apply keptPids_set
    exact Kept.refl _
  rw [wait]
  dsimp only
  split
  · apply SamePids.goto
    obtain ⟨hnext, hpid⟩ := h0
    rename_i i _
    refine ⟨hnext, fun j => ?_⟩
    rw [Ptable.set_proc]
    split_ifs
    · exact Or.inr ⟨rfl, Or.inr rfl⟩
    · exact Or.inl (hpid j)
  · split_ifs
    · exact (h0.goto c _).same
    · apply SamePids.goto
      apply KeptPids.same
      apply h0.trans
      apply keptPids_set
      refine ⟨rfl, iff_of_false ProcState.noConfusion ?_⟩
      rwa [(h0.pid c).2]

theorem keptPids_kill (t : Ptable) (pid : Int32) : KeptPids t (kill t pid).1 := by
  rw [kill]
  split
  · apply keptPids_set
    refine ⟨rfl, ?_⟩
    dsimp only
    split_ifs with hs
    · rw [hs]
      simp
    · exact Iff.rfl
  · exact .refl t

def Event.isAllocproc : Event → Bool
  | .allocproc _ => true
  | _ => false

theorem samePids_step (ht : Tree t) (hs : step t e = some (.ok u)) (he : e.isAllocproc = false) : SamePids t u := by
  rcases step_cases hs with ⟨c, rfl, hc, rfl⟩ | ⟨hc, ha⟩
  · apply KeptPids.same
    apply keptPids_setState ProcState.noConfusion
    rw [hc]
    exact ProcState.noConfusion
  have hc' : (t.proc e.slot).state ≠ .unused := by
    rw [hc]
    exact ProcState.noConfusion
  cases e with
  | schedule c => cases ha
  | yield c =>
    cases ha
    exact (keptPids_setState ProcState.noConfusion hc').same
  | allocproc c => cases he
  | allocStack c ok =>
    simp only [act] at ha
    split at ha <;> cases ha
    rw [allocStack]
    split_ifs
    · apply SamePids.goto
      apply KeptPids.same
      apply keptPids_set
      exact ⟨rfl, Iff.rfl⟩
    · apply SamePids.goto
      apply samePids_drop
      exact ⟨rfl, Or.inl rfl⟩
  | forkCopy c ok =>
    simp only [act] at ha
    split at ha <;> cases ha
    rw [forkCopy]
    split_ifs
    · apply SamePids.goto
      apply KeptPids.same
      apply keptPids_set
      exact ⟨rfl, Iff.rfl⟩
    · apply SamePids.goto
      apply samePids_drop
      exact ⟨rfl, Or.inl rfl⟩
  | forkRun c =>
    simp only [act] at ha
    split at ha <;> cases ha
    rename_i np hth
    apply SamePids.goto
    apply KeptPids.same
    apply keptPids_setState ProcState.noConfusion
    -- the slot that a call of `fork` fills is an embryo
    rw [ht.forks.state c np (by rw [hth]; rfl)]
    exact ProcState.noConfusion
  | exit c =>
    simp only [act] at ha
    split_ifs at ha
    exact (keptPids_exit hc' (Option.some.inj ha)).same
  | wait c =>
    simp only [act] at ha
    split_ifs at ha
    cases ha
    exact samePids_wait hc'
  | kill c pid =>
    simp only [act] at ha
    split_ifs at ha
    cases ha
    exact (keptPids_kill t pid).same

theorem step_allocproc (hs : step t (.allocproc c) = some (.ok u)) : u = allocproc t c := by
  rcases step_cases hs with ⟨c, hc, -⟩ | ⟨-, ha⟩
  · cases hc
  · simp only [act] at ha
    split_ifs at ha
    cases ha
    rfl

theorem Int32.toInt_succ {n : Int32} (h : n.toInt + 1 < 2 ^ 31) : (n + 1).toInt = n.toInt + 1 := by
  have := n.le_toInt
  rw [Int32.toInt_add, show (1 : Int32).toInt = 1 from rfl, Int.bmod_eq_of_le] <;> omega

theorem Pids.allocproc {k : ℕ} (h : Pids t k) (hk : k + 1 < 2 ^ 31) (c : Slot) : Pids (allocproc t c) (k + 1) := by
  have hnext := h.next
  have hlow := h.low
  rw [ProcTable.allocproc]
  split
  · exact ⟨by push_cast; omega, hlow, h.pid⟩
  · have hsucc := Int32.toInt_succ (n := t.nextpid) (by omega)
    refine ⟨?_, ?_, fun j => ?_⟩
    · simp only [hsucc]
      push_cast
      omega
    · simp only [hsucc]
      omega
    · simp only [hsucc, Ptable.goto_proc]
      rw [Ptable.set_proc]
      have := h.pid j
      split_ifs
      · dsimp only
        omega
      · omega

theorem run_pids {es : List Event} (hrun : Run (Steps step) t es u) (ht : Tree t) {k : ℕ} (h : Pids t k)
    (hk : k + es.countP Event.isAllocproc < 2 ^ 31) : Pids u (k + es.countP Event.isAllocproc) := by
  induction hrun generalizing k with
  | nil t => exact h
  | @cons t u v e es hs _ ih =>
    rw [List.countP_cons] at hk ⊢
    cases he : e.isAllocproc with
    | false =>
      rw [he] at hk
      exact ih (ht.step hs) (h.same (samePids_step ht hs he)) hk
    | true =>
      rw [he, if_pos rfl] at hk
      rw [if_pos rfl, ← Nat.add_assoc, Nat.add_right_comm]
      apply ih (ht.step hs) _ (by omega)
      cases e with
      | allocproc c =>
        rw [step_allocproc hs]
        exact h.allocproc (by omega) c
      | schedule | yield | allocStack | forkCopy | forkRun | exit | wait | kill => cases he

theorem boot_pids : Pids boot 2 := by
  refine ⟨by decide, by decide, ?_⟩
  decide

structure Distinct (t : Ptable) : Prop where
  pos : ∀ i, (t.proc i).state ≠ .unused → 0 < (t.proc i).pid.toInt
  inj : ∀ i j, (t.proc i).state ≠ .unused → (t.proc j).state ≠ .unused → (t.proc i).pid = (t.proc j).pid → i = j
  below : 0 < t.nextpid.toInt → ∀ i, (t.proc i).state ≠ .unused → (t.proc i).pid.toInt < t.nextpid.toInt

def counted (t : Ptable) : Event → Bool
  | .allocproc _ => (findSlot t (fun p => p.state = .unused)).isNone || decide (0 < t.nextpid.toInt)
  | _ => true

theorem SamePids.old (h : SamePids t u) (hi : (u.proc i).state ≠ .unused) :
    (t.proc i).state ≠ .unused ∧ (u.proc i).pid = (t.proc i).pid := by
  rcases h.pid i with hk | hd
  · rw [ne_eq, ← hk.2]
    exact ⟨hi, hk.1⟩
  · exact absurd hd.1 hi

theorem Distinct.same (h : Distinct t) (hs : SamePids t u) : Distinct u := by
  refine ⟨fun i hi => ?_, fun i j hi hj he => ?_, fun hpos i hi => ?_⟩
  · obtain ⟨hi', hp⟩ := hs.old hi
    rw [hp]
    exact h.pos i hi'
  · obtain ⟨hi', hp⟩ := hs.old hi
    obtain ⟨hj', hq⟩ := hs.old hj
    rw [hp, hq] at he
    exact h.inj i j hi' hj' he
  · obtain ⟨hi', hp⟩ := hs.old hi
    rw [hs.next] at hpos ⊢
    rw [hp]
    exact h.below hpos i hi'

theorem Distinct.allocproc (h : Distinct t) (hc : counted t (.allocproc c) = true) : Distinct (allocproc t c) := by
  rw [ProcTable.allocproc]
  cases hf : findSlot t (fun p => p.state = .unused) with
  | none => exact h
  | some i =>
    have hpos : 0 < t.nextpid.toInt := by
      simpa [counted, hf] using hc
    have hnew : ∀ j, j ≠ i → (t.proc j).state ≠ .unused → (t.proc j).pid ≠ t.nextpid := by
      intro j _ hj he
      have := h.below hpos j hj
      rw [he] at this
      omega
    dsimp only
    refine ⟨fun j hj => ?_, fun j k hj hk he => ?_, fun hn j hj => ?_⟩
    · rw [Ptable.goto_proc, Ptable.set_proc] at hj ⊢
      split_ifs at hj ⊢
      · exact hpos
      · exact h.pos j hj
    · rw [Ptable.goto_proc, Ptable.set_proc] at hj hk
      simp only [Ptable.goto_proc, Ptable.set_proc] at he
      split_ifs at hj hk he with hji hki hki
      · rw [hji, hki]
      · exact absurd he.symm (hnew k hki hk)
      · exact absurd he (hnew j hji hj)
      · exact h.inj j k hj hk he
    · rw [Ptable.goto_proc, Ptable.set_proc] at hj ⊢
      have hlt := t.nextpid.toInt_lt
      have hsucc : (t.nextpid + 1).toInt = t.nextpid.toInt + 1 := by
        by_cases hmax : t.nextpid.toInt + 1 < 2 ^ 31
        · exact Int32.toInt_succ hmax
        · -- the counter runs over to the least number
          have hval : t.nextpid = 2147483647 := Int32.toInt_inj.mp (by
            rw [show (2147483647 : Int32).toInt = 2147483647 from rfl]
            omega)
          dsimp only at hn
          rw [hval] at hn
          exact absurd hn (by decide)
      split_ifs at hj ⊢
      · dsimp only
        omega
      · have := h.below hpos j hj
        dsimp only
        omega

theorem Distinct.step (ht : Tree t) (h : Distinct t) (hc : counted t e = true) (hs : step t e = some (.ok u)) :
    Distinct u := by
  cases he : e.isAllocproc with
  | false => exact h.same (samePids_step ht hs he)
  | true =>
    cases e with
    | allocproc c =>
      rw [step_allocproc hs]
      exact h.allocproc hc
    | schedule | yield | allocStack | forkCopy | forkRun | exit | wait | kill => cases he

theorem boot_distinct : Distinct boot := by
  refine ⟨by decide, ?_, by decide⟩
  decide

/-- As long as the counter has not run over, pids identify processes. -/
theorem pids_identify (es : List Event) (t : Ptable) (h : Run (Steps step) boot es t)
    (hc : Along (Steps step) (fun t e => counted t e = true) boot es) :
    (∀ i, (t.proc i).state ≠ .unused → 0 < (t.proc i).pid.toInt) ∧
    ∀ pid i j, (t.proc i).state ≠ .unused → (t.proc j).state ≠ .unused → (t.proc i).pid = pid → (t.proc j).pid = pid →
      i = j := by
  have hd : Tree t ∧ Distinct t := by
    apply h.invariant (I := fun t => Tree t ∧ Distinct t) _ hc ⟨boot_tree, boot_distinct⟩
    intro t e u ht hce hs
    exact ⟨ht.1.step hs, ht.2.step ht.1 hce hs⟩
  refine ⟨hd.2.pos, fun pid i j hi hj hpi hpj => hd.2.inj i j hi hj (hpi.trans hpj.symm)⟩

def second : Slot := ⟨1, one_lt_NPROC⟩

def forkChild : List Event := [.allocproc init, .allocStack init true, .forkCopy init true, .forkRun init]

theorem pids_identify_child : ∃ t, Run (Steps step) boot (.schedule init :: forkChild) t ∧
    (t.proc second).state = .runnable ∧ 0 < (t.proc second).pid.toInt := by
  have h : (exec step boot (.schedule init :: forkChild)).map (fun t => (t.proc second).state) = some .runnable := by
    decide +kernel
  have hc : Along (Steps step) (fun t e => counted t e = true) boot (.schedule init :: forkChild) := by
    decide +kernel
  obtain ⟨t, ht, hs⟩ := Option.map_eq_some_iff.mp h
  refine ⟨t, run_of_exec ht, hs, (pids_identify _ t (run_of_exec ht) hc).1 second ?_⟩
  rw [hs]
  exact ProcState.noConfusion

def initRuns (n : Int32) : Ptable :=
  ⟨update (fun _ => empty) init ⟨.running, 1, none, none, false, true⟩, fun _ => .user, n, init⟩

def childExits : List Event := forkChild ++ [.schedule second, .exit second]

def withChild (n : Int32) (p : Proc) (x : Thread) : Ptable :=
  ⟨update (initRuns n).proc second p, update (initRuns n).thread init x, n, init⟩

theorem withChild_set (n : Int32) (p q : Proc) (x y : Thread) :
    ((withChild n p x).set second q).goto init y = withChild n q y := by
  simp only [withChild, Ptable.set, Ptable.goto, update_idem]

theorem withChild_cases {n : Int32} {p : Proc} {x : Thread} {P : Proc → Prop} (hp : P p) (he : P empty)
    (hi : P ⟨.running, 1, none, none, false, true⟩) (i : Slot) : P ((withChild n p x).proc i) := by
  simp only [withChild, initRuns]
  by_cases h2 : i = second
  · rwa [h2, update_self]
  · rw [update_of_ne h2]
    by_cases h1 : i = init
    · rwa [h1, update_self]
    · rwa [update_of_ne h1]

theorem wakeupAll_eq (h : ∀ i, (t.proc i).state ≠ .sleeping) (c : Slot) : wakeupAll t c = t := by
  have hp : (fun i => wakeup1 c (t.proc i)) = t.proc := by
    funext i
    rw [wakeup1, if_neg fun hs => h i hs.1]
  rw [wakeupAll, hp]

theorem foldl_reparent_eq (h : ∀ i, (t.proc i).parent ≠ some c) (is : List Slot) : is.foldl (reparent c) t = t := by
  induction is with
  | nil => rfl
  | cons i is ih => rw [List.foldl_cons, reparent, if_neg (h i), ih]

theorem exit_child (n : Int32) (p : Proc) (hp : p.parent = some init) (hs : p.state ≠ .sleeping) :
    exit (withChild n p .user) second = .ok ((withChild n p .user).set second { p with state := .zombie }) := by
  have hself : (withChild n p .user).proc second = p := rfl
  have hwake : wakeupAll (withChild n p .user) init = withChild n p .user :=
    wakeupAll_eq
        (withChild_cases (P := fun p => p.state ≠ .sleeping) hs ProcState.noConfusion ProcState.noConfusion) init
  have hfold := foldl_reparent_eq (t := withChild n p .user) (c := second)
    (withChild_cases (P := fun p => p.parent ≠ some second) (by rw [hp]; decide) (by decide) (by decide))
        (List.finRange NPROC)
  have hinit : second ≠ (withChild n p .user).initproc := by
    change second ≠ init
    decide
  simp only [exit, if_neg hinit, hself, hp, hwake, hfold]

theorem wait_child (n m : Int32) :
    wait (withChild n ⟨.zombie, m, some init, none, false, true⟩ .user) init = (initRuns n, some m) := by
  have hinit : update (withChild n ⟨.zombie, m, some init, none, false, true⟩ .user).proc init
      ⟨.running, 1, none, none, false, true⟩ = (withChild n ⟨.zombie, m, some init, none, false, true⟩ .user).proc :=
    update_eq_self init _
  have hchan : (withChild n ⟨.zombie, m, some init, none, false, true⟩ .user).set init
      { (withChild n ⟨.zombie, m, some init, none, false, true⟩ .user).proc init with chan := none } =
      withChild n ⟨.zombie, m, some init, none, false, true⟩ .user :=
    congrArg (fun p => Ptable.mk p _ n init) hinit
  have hfind : findSlot (withChild n ⟨.zombie, m, some init, none, false, true⟩ .user)
      (fun p => p.parent = some init ∧ p.state = .zombie) = some second := rfl
  have hempty : update (initRuns n).proc second empty = (initRuns n).proc := update_eq_self second _
  have huser : update (initRuns n).thread init .user = (initRuns n).thread := update_eq_self init _
  simp only [wait, hchan, hfind]
  rw [withChild_set]
  exact congrArg₂ (fun a b => (Ptable.mk a b n init, some m)) hempty huser

theorem step_child {m : Int32} {p q : Proc} {x y : Thread}
    (h : step (withChild m p x) e = some (.ok (((withChild m p x).set second q).goto init y))) :
    step (withChild m p x) e = some (.ok (withChild m q y)) := by
  rw [h, withChild_set]

theorem childExits_eq (n : Int32) : exec step (initRuns n) childExits =
    some (withChild (n + 1) ⟨.zombie, n, some init, none, false, true⟩ .user) := by
  have h1 : step (initRuns n) (.allocproc init) =
      some (.ok (withChild (n + 1) ⟨.embryo, n, none, none, false, false⟩ (.allocated second))) := rfl
  have h2 : step (withChild (n + 1) ⟨.embryo, n, none, none, false, false⟩ (.allocated second))
      (.allocStack init true) =
      some (.ok (withChild (n + 1) ⟨.embryo, n, none, none, false, true⟩ (.stacked second))) := step_child rfl
  have h3 : step (withChild (n + 1) ⟨.embryo, n, none, none, false, true⟩ (.stacked second)) (.forkCopy init true) =
      some (.ok (withChild (n + 1) ⟨.embryo, n, some init, none, false, true⟩ (.copied second))) := step_child rfl
  have h4 : step (withChild (n + 1) ⟨.embryo, n, some init, none, false, true⟩ (.copied second)) (.forkRun init) =
      some (.ok (withChild (n + 1) ⟨.runnable, n, some init, none, false, true⟩ .user)) := step_child rfl
  have huser : ∀ p q : Proc, (withChild (n + 1) p .user).set second q =
      ((withChild (n + 1) p .user).set second q).goto init .user := by
    intro p q
    exact congrArg (fun x => Ptable.mk _ x (n + 1) init) (update_idem ..).symm
  have h5 : step (withChild (n + 1) ⟨.runnable, n, some init, none, false, true⟩ .user) (.schedule second) =
      some (.ok (withChild (n + 1) ⟨.running, n, some init, none, false, true⟩ .user)) := by
    apply step_child
    rw [← huser]
    rfl
  have h6 : step (withChild (n + 1) ⟨.running, n, some init, none, false, true⟩ .user) (.exit second) =
      some (.ok (withChild (n + 1) ⟨.zombie, n, some init, none, false, true⟩ .user)) := by
    apply step_child
    rw [← huser]
    have hx := exit_child (n + 1) ⟨.running, n, some init, none, false, true⟩ rfl ProcState.noConfusion
    exact congrArg some hx
  simp only [childExits, forkChild, List.cons_append, List.nil_append, exec, h1, h2, h3, h4, h5, h6]

theorem rounds_count (k : ℕ) : ∃ es, Run (Steps step) boot es (initRuns (Int32.ofNat (2 + k))) := by
  induction k with
  | zero =>
    refine ⟨[.schedule init], .cons ?_ (.nil _)⟩
    exact congrArg (fun p => some (Except.ok (Ptable.mk p (fun _ => .user) 2 init))) (update_idem ..)
  | succ k ih =>
    obtain ⟨es, hes⟩ := ih
    have hexit := run_of_exec (childExits_eq (Int32.ofNat (2 + k)))
    have hnext : Int32.ofNat (2 + k) + 1 = Int32.ofNat (2 + (k + 1)) := (Int32.ofNat_add (2 + k) 1).symm
    rw [hnext] at hexit
    refine ⟨_, (hes.append hexit).append (.cons (a := .wait init) ?_ (.nil _))⟩
    exact congrArg (fun r => some (Except.ok r.1)) (wait_child ..)

/-- After 2147483646 processes the next one gets a negative pid. -/
theorem pids_run_over : ¬ ∀ (es : List Event) (t : Ptable), Run (Steps step) boot es t →
    ∀ i, (t.proc i).state ≠ .unused → 0 < (t.proc i).pid.toInt := by
  intro hall
  obtain ⟨es, hes⟩ := rounds_count 2147483646
  have hfork : Run (Steps step) (initRuns (Int32.ofNat (2 + 2147483646))) [.allocproc init]
      (withChild (Int32.ofNat (2 + 2147483646) + 1) ⟨.embryo, Int32.ofNat (2 + 2147483646), none, none, false, false⟩
        (.allocated second)) := .cons rfl (.nil _)
  have hpos := hall _ _ (hes.append hfork) second ProcState.noConfusion
  have hpid : (Int32.ofNat (2 + 2147483646)).toInt = -2147483648 := by decide
  change 0 < (Int32.ofNat (2 + 2147483646)).toInt at hpos
  omega

end Xv6.ProcTable
