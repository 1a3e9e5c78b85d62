import Xv6.ProcTable

namespace Xv6.ProcTable

open Transition

def FreeAlive (t : Ptable) : Prop := ∀ i, (t.proc i).state = .unused → (t.proc i).killed = false

def Aimed (t : Ptable) : Event → Prop
  | .kill _ pid => ∀ i, (t.proc i).state = .unused → (t.proc i).pid ≠ pid
  | .allocStack c false => ∀ np, t.thread c = .allocated np → (t.proc np).killed = false
  | .forkCopy c false => ∀ np, t.thread c = .stacked np → (t.proc np).killed = false
  | _ => True

variable {t u : Ptable} {e : Event}

theorem findSlot_some {f : Proc → Bool} {i : Slot} (h : findSlot t f = some i) : f (t.proc i) := by
  simpa using List.find?_some h

theorem FreeAlive.set (h : FreeAlive t) {i : Slot} {p : Proc}
    (hp : p.state = .unused → p.killed = false) : FreeAlive (t.set i p) := by
  intro j hj
  rw [Ptable.set_proc] at hj ⊢
  split_ifs at hj ⊢
  · exact hp hj
  · exact h j hj

theorem FreeAlive.goto (h : FreeAlive t) (c : Slot) (x : Thread) : FreeAlive (t.goto c x) := h

theorem FreeAlive.wakeupAll (h : FreeAlive t) (chan : Slot) : FreeAlive (wakeupAll t chan) := by
  intro i hi
  simp only [ProcTable.wakeupAll, wakeup1] at hi ⊢
  split_ifs at hi ⊢
  exact h i hi

theorem FreeAlive.reparent (h : FreeAlive t) (c i : Slot) : FreeAlive (reparent c t i) := by
  have hset : FreeAlive (t.set i { t.proc i with parent := some t.initproc }) := h.set (h i)
  simp only [ProcTable.reparent]
  split_ifs
  · exact hset.wakeupAll _
  · exact hset
  · exact h

theorem FreeAlive.foldl_reparent (h : FreeAlive t) (c : Slot) (is : List Slot) :
    FreeAlive (is.foldl (ProcTable.reparent c) t) := by
  induction is generalizing t with
  | nil => exact h
  | cons i is ih => exact ih (h.reparent c i)

theorem FreeAlive.exit (h : FreeAlive t) {c : Slot} (hu : exit t c = .ok u) : FreeAlive u := by
  simp only [ProcTable.exit] at hu
  split_ifs at hu
  cases hu
  refine FreeAlive.set (FreeAlive.foldl_reparent ?_ c _) (by simp)
  split
  · exact h.wakeupAll _
  · exact h

theorem FreeAlive.wait (h : FreeAlive t) (c : Slot) : FreeAlive (wait t c).1 := by
  have h1 : FreeAlive (t.set c { t.proc c with chan := none }) := h.set (h c)
  simp only [ProcTable.wait]
  split
  · exact (h1.set (by simp)).goto c _
  · split_ifs
    · exact h1.goto c _
    · exact (h1.set (by simp)).goto c _

theorem FreeAlive.kill (h : FreeAlive t) {pid : Int32}
    (ha : ∀ i, (t.proc i).state = .unused → (t.proc i).pid ≠ pid) : FreeAlive (kill t pid).1 := by
  simp only [ProcTable.kill]
  split
  · rename_i i hi
    have hpid : (t.proc i).pid = pid := by simpa using findSlot_some hi
    apply h.set
    intro hs
    -- the slot that was found is in use, so it is not marked while free
    dsimp only at hs
    split_ifs at hs
    exact absurd hpid (ha i hs)
  · exact h

theorem FreeAlive.allocproc (h : FreeAlive t) (c : Slot) : FreeAlive (allocproc t c) := by
  simp only [ProcTable.allocproc]
  split
  · exact h
  · rename_i i _
    exact FreeAlive.set (p := { t.proc i with state := .embryo, pid := t.nextpid }) h (by simp)

theorem act_freeAlive (h : FreeAlive t) (ha : Aimed t e) (hu : act t e = some (.ok u)) : FreeAlive u := by
  cases e with
  | schedule c => cases hu
  | yield c => cases hu; exact h.set (by simp)
  | allocproc c =>
    simp only [act] at hu
    split_ifs at hu
    cases hu
    exact h.allocproc c
  | allocStack c ok =>
    simp only [act] at hu
    split at hu <;> cases hu
    rename_i np hnp
    cases ok with
    | true => exact FreeAlive.set (p := { t.proc np with kstack := true }) h (h np)
    | false =>
      exact FreeAlive.set (p := { t.proc np with kstack := false, state := .unused }) h (fun _ => ha np hnp)
  | forkCopy c ok =>
    simp only [act] at hu
    split at hu <;> cases hu
    rename_i np hnp
    cases ok with
    | true => exact FreeAlive.set (p := { t.proc np with parent := some c }) h (h np)
    | false =>
      exact FreeAlive.set (p := { t.proc np with kstack := false, state := .unused }) h (fun _ => ha np hnp)
  | forkRun c =>
    simp only [act] at hu
    split at hu <;> cases hu
    exact (h.set (by simp)).goto c _
  | exit c =>
    simp only [act] at hu
    split_ifs at hu
    exact h.exit (Option.some.inj hu)
  | wait c =>
    simp only [act] at hu
    split_ifs at hu
    cases hu
    exact h.wait c
  | kill c pid =>
    simp only [act] at hu
    split_ifs at hu
    cases hu
    exact h.kill ha

theorem step_freeAlive (h : FreeAlive t) (ha : Aimed t e) (hu : Steps step t e u) : FreeAlive u := by
  simp only [Steps, step] at hu
  split at hu
  · split_ifs at hu
    cases hu
    exact h.set (by simp)
  · split_ifs at hu
    exact act_freeAlive h ha hu

instance (t : Ptable) : Decidable (FreeAlive t) := by
  unfold FreeAlive
  infer_instance

theorem freeAlive_boot : FreeAlive boot := by decide

def KillFinds (t : Ptable) : Event → Prop
  | .kill _ pid => (kill t pid).2 = 0 → ∃ i, (t.proc i).state ≠ .unused ∧ (t.proc i).pid = pid
  | _ => True

theorem killFinds_of_aimed (ha : Aimed t e) : KillFinds t e := by
  cases e with
  | kill c pid =>
    intro h0
    simp only [kill] at h0
    split at h0
    · rename_i i hi
      have hpid : (t.proc i).pid = pid := by simpa using findSlot_some hi
      exact ⟨i, fun hs => ha i hs hpid, hpid⟩
    · simp at h0
  | _ => trivial

theorem killed_only_when_aimed (es : List Event) (h : Along (Steps step) Aimed boot es) :
    (∀ t, Run (Steps step) boot es t → FreeAlive t) ∧ Along (Steps step) KillFinds boot es :=
  ⟨fun _ ht => ht.invariant (fun _ _ _ hs hc hst => step_freeAlive hs hc hst) h freeAlive_boot,
    h.invariant (I := FreeAlive) (fun _ _ _ hs hc hst => step_freeAlive hs hc hst)
      (fun _ _ _ hc => killFinds_of_aimed hc) freeAlive_boot⟩

instance (t : Ptable) (e : Event) : Decidable (Aimed t e) := by
  unfold Aimed
  split <;> infer_instance

instance (t : Ptable) (e : Event) : Decidable (KillFinds t e) := by
  unfold KillFinds
  split <;> infer_instance

def init : Slot := ⟨0, NPROC_pos⟩

theorem killed_only_when_aimed_fork :
    Along (Steps step) KillFinds boot [.schedule init, .allocproc init, .allocStack init false, .kill init 1] :=
  (killed_only_when_aimed _ (by decide)).2

/-- `kill(0)` finds a free slot, and the next child is born killed. -/
theorem kill_zero_marks_free_slot :
    (∃ t, Run (Steps step) boot [.schedule init, .kill init 0] t ∧ ¬ FreeAlive t) ∧
      ¬ Along (Steps step) KillFinds boot [.schedule init, .kill init 0] := by
  refine ⟨⟨_, .cons rfl (.cons rfl (.nil _)), ?_⟩, ?_⟩
  · decide +kernel
  · decide +kernel

end Xv6.ProcTable
