import Mathlib

/-!
Single-cell writes to a store, the store a crash leaves behind when only a first
part of them took effect, and recoveries that may crash and start again.
-/

namespace Xv6.CrashWrites

variable {α β : Type} [DecidableEq α]

abbrev Store (α β : Type) := α → β

def apply (d : Store α β) (ws : List (α × β)) : Store α β :=
  ws.foldl (fun d w => Function.update d w.1 w.2) d

@[simp] theorem apply_nil (d : Store α β) : apply d [] = d := rfl

@[simp] theorem apply_cons (d : Store α β) (w : α × β) (ws : List (α × β)) :
    apply d (w :: ws) = apply (Function.update d w.1 w.2) ws := rfl

theorem apply_append (d : Store α β) (ws vs : List (α × β)) :
    apply d (ws ++ vs) = apply (apply d ws) vs := by
  simp [apply, List.foldl_append]

theorem apply_other (d : Store α β) (ws : List (α × β)) (x : α) (h : ∀ w ∈ ws, w.1 ≠ x) :
    apply d ws x = d x := by
  induction ws generalizing d with
  | nil => rfl
  | cons w ws ih =>
    rw [apply_cons, ih _ (fun v hv => h v (List.mem_cons_of_mem _ hv))]
    exact Function.update_of_ne (Ne.symm (h w List.mem_cons_self)) _ _

theorem apply_eq_of_mem (d : Store α β) (ws : List (α × β)) (hn : (ws.map Prod.fst).Nodup)
    {x : α} {v : β} (h : (x, v) ∈ ws) : apply d ws x = v := by
  induction ws generalizing d with
  | nil => simp at h
  | cons w ws ih =>
    obtain ⟨hw, hn⟩ := List.nodup_cons.mp hn
    rcases List.mem_cons.mp h with rfl | h
    · rw [apply_cons, apply_other]
      · simp
      · intro v hv he
        exact hw (List.mem_map.mpr ⟨v, hv, he⟩)
    · exact ih _ hn h

def crashed (d : Store α β) (ws : List (α × β)) (k : ℕ) : Store α β := apply d (ws.take k)

theorem crashed_nil (d : Store α β) (k : ℕ) : crashed d [] k = d := by simp [crashed]

theorem crashed_other (d : Store α β) (ws : List (α × β)) (k : ℕ) (x : α) (h : ∀ w ∈ ws, w.1 ≠ x) :
    crashed d ws k x = d x :=
  apply_other _ _ _ (fun w hw => h w (List.mem_of_mem_take hw))

theorem crashed_append_le (d : Store α β) (ws vs : List (α × β)) {k : ℕ} (h : k ≤ ws.length) :
    crashed d (ws ++ vs) k = crashed d ws k := by
  simp [crashed, List.take_append_of_le_length h]

theorem crashed_append_ge (d : Store α β) (ws vs : List (α × β)) {k : ℕ} (h : ws.length ≤ k) :
    crashed d (ws ++ vs) k = crashed (apply d ws) vs (k - ws.length) := by
  simp only [crashed, List.take_append, List.take_of_length_le h, apply_append]

theorem crashed_of_length_le (d : Store α β) (ws : List (α × β)) {k : ℕ} (h : ws.length ≤ k) :
    crashed d ws k = apply d ws := by
  simp only [crashed, List.take_of_length_le h]

inductive Recovers (W : Store α β → List (α × β)) : Store α β → Store α β → Prop
  | finish (d : Store α β) : Recovers W d (apply d (W d))
  | crash (d : Store α β) (k : ℕ) {d' : Store α β} (h : Recovers W (crashed d (W d) k) d') : Recovers W d d'

theorem Recovers.rule {W : Store α β → List (α × β)} {P Q : Store α β → Prop}
    (hcrash : ∀ d k, P d → P (crashed d (W d) k)) (hfinish : ∀ d, P d → Q (apply d (W d)))
    {d d' : Store α β} (h : Recovers W d d') (hd : P d) : Q d' := by
  induction h with
  | finish d => exact hfinish d hd
  | crash d k _ ih => exact ih (hcrash d k hd)

end Xv6.CrashWrites
