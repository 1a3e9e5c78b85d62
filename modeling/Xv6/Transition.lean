import Mathlib

/-!
Runs of a system that steps on events, and the rules that carry an invariant
through every run whose steps meet a condition.
-/

namespace Xv6.Transition

variable {σ α : Type}

inductive Run (R : σ → α → σ → Prop) : σ → List α → σ → Prop
  | nil (s : σ) : Run R s [] s
  | cons {s t u : σ} {a : α} {as : List α} (h : R s a t) (hs : Run R t as u) : Run R s (a :: as) u

variable {ε : Type} {f : σ → α → Option (Except ε σ)} {s t : σ} {a : α} {as : List α}

theorem Run.append {R : σ → α → σ → Prop} {s t u : σ} {as bs : List α} (h : Run R s as t) (h' : Run R t bs u) :
    Run R s (as ++ bs) u := by
  induction h with
  | nil s => exact h'
  | cons h _ ih => exact .cons h (ih h')

def Along (R : σ → α → σ → Prop) (C : σ → α → Prop) : σ → List α → Prop
  | _, [] => True
  | s, a :: as => C s a ∧ ∀ t, R s a t → Along R C t as

variable {R : σ → α → σ → Prop} {C P : σ → α → Prop} {I : σ → Prop}

theorem Run.invariant (hstep : ∀ s a t, I s → C s a → R s a t → I t)
    (h : Run R s as t) (hc : Along R C s as) (hs : I s) : I t := by
  induction h with
  | nil s => exact hs
  | cons h _ ih => exact ih (hc.2 _ h) (hstep _ _ _ hs hc.1 h)

theorem Run.always (hstep : ∀ s a t, I s → R s a t → I t) (h : Run R s as t) (hs : I s) : I t := by
  induction h with
  | nil s => exact hs
  | cons h _ ih => exact ih (hstep _ _ _ hs h)

theorem Along.invariant (hstep : ∀ s a t, I s → C s a → R s a t → I t) (hP : ∀ s a, I s → C s a → P s a)
    (hc : Along R C s as) (hs : I s) : Along R P s as := by
  induction as generalizing s with
  | nil => trivial
  | cons a as ih => exact ⟨hP s a hs hc.1, fun t ht => ih (hc.2 t ht) (hstep s a t hs hc.1 ht)⟩

theorem along_of_mem {D : α → Prop} (h : ∀ a ∈ as, D a) (s : σ) : Along R (fun _ a => D a) s as := by
  induction as generalizing s with
  | nil => trivial
  | cons a as ih =>
    exact ⟨h a List.mem_cons_self, fun t _ => ih (fun b hb => h b (List.mem_cons_of_mem a hb)) t⟩

theorem along_congr {B : σ → α → Prop} (hstep : ∀ s a t, I s → B s a → R s a t → I t)
    (hiff : ∀ s a, I s → B s a → (P s a ↔ C s a)) (hs : I s) (hb : Along R B s as) :
    Along R P s as ↔ Along R C s as := by
  induction as generalizing s with
  | nil => exact Iff.rfl
  | cons a as ih =>
    apply and_congr (hiff s a hs hb.1)
    apply forall₂_congr
    intro t ht
    exact ih (hstep s a t hs hb.1 ht) (hb.2 t ht)

theorem Along.after (hc : Along R C s (as ++ [a])) (h : Run R s as t) : C t a := by
  induction h with
  | nil s => exact hc.1
  | cons h _ ih => exact ih (hc.2 _ h)

theorem Run.simulates {τ : Type} {R' : τ → α → τ → Prop} {M : σ → τ → Prop} {s s' : σ} {t : τ}
    (h : Run R s as s') (hm : M s t) (hstep : ∀ s t a s', M s t → R s a s' → ∃ t', R' t a t' ∧ M s' t') :
    ∃ t', Run R' t as t' ∧ M s' t' := by
  induction h generalizing t with
  | nil s => exact ⟨t, .nil t, hm⟩
  | cons h _ ih =>
    obtain ⟨u, hu, hmu⟩ := hstep _ _ _ _ hm h
    obtain ⟨t', ht, hmt⟩ := ih hmu
    exact ⟨t', .cons hu ht, hmt⟩

def Steps {ε : Type} (f : σ → α → Option (Except ε σ)) (s : σ) (a : α) (t : σ) : Prop := f s a = some (.ok t)

def exec {ε : Type} (f : σ → α → Option (Except ε σ)) : σ → List α → Option σ
  | s, [] => some s
  | s, a :: as =>
    match f s a with
    | some (.ok t) => exec f t as
    | _ => none

theorem run_of_exec (h : exec f s as = some t) : Run (Steps f) s as t := by
  induction as generalizing s with
  | nil =>
    cases h
    exact .nil _
  | cons a as ih =>
    rw [exec] at h
    split at h
    · exact .cons (by assumption) (ih h)
    · cases h

def stopped {ε : Type} : Option (Except ε σ) → Option ε
  | some (.error e) => some e
  | _ => none

theorem stopped_eq_some {x : Option (Except ε σ)} {e : ε} : stopped x = some e ↔ x = some (.error e) := by
  rcases x with _ | _ | _ <;> simp [stopped]

theorem along_cons_ok (h : f s a = some (.ok t)) : Along (Steps f) C s (a :: as) ↔ C s a ∧ Along (Steps f) C t as := by
  constructor
  · intro hc
    exact ⟨hc.1, hc.2 t h⟩
  · rintro ⟨hc, ht⟩
    refine ⟨hc, fun u hu => ?_⟩
    rw [Steps, h] at hu
    cases hu
    exact ht

theorem along_cons_stop (h : ∀ t, f s a ≠ some (.ok t)) : Along (Steps f) C s (a :: as) ↔ C s a :=
  ⟨fun hc => hc.1, fun hc => ⟨hc, fun t ht => absurd ht (h t)⟩⟩

theorem Run.along_iff {K : σ → Prop}
    (hstep : ∀ s a t, I s → Steps f s a t → I t) (hkeep : ∀ s a t, I s → K s → Steps f s a t → (K t ↔ C s a))
    (h : Run (Steps f) s as t) (hs : I s) (hk : K s) :
    Along (Steps f) (fun s a => ∀ u, Steps f s a u → K u) s as ↔ Along (Steps f) C s as := by
  induction h with
  | nil s => exact Iff.rfl
  | @cons s u t a as h _ ih =>
    rw [along_cons_ok h, along_cons_ok h]
    have hiff := hkeep s a u hs hk h
    have hone : (∀ v, Steps f s a v → K v) ↔ K u := by
      refine ⟨fun hall => hall u h, fun hu v hv => ?_⟩
      cases h.symm.trans hv
      exact hu
    rw [hone, hiff]
    exact and_congr_right fun hc => ih (hstep s a u hs h) (hiff.mpr hc)

instance decidableAlong {ε : Type} (f : σ → α → Option (Except ε σ)) (C : σ → α → Prop)
    [∀ s a, Decidable (C s a)] : ∀ (s : σ) (as : List α), Decidable (Along (Steps f) C s as)
  | _, [] => .isTrue trivial
  | s, a :: as =>
    match h : f s a with
    | some (.ok t) =>
      have := decidableAlong f C t as
      decidable_of_iff _ (along_cons_ok h).symm
    | some (.error _) => decidable_of_iff _ (along_cons_stop (by simp [h])).symm
    | none => decidable_of_iff _ (along_cons_stop (by simp [h])).symm

end Xv6.Transition
