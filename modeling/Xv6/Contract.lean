import Mathlib

/-!
Contracts for computations that return a value or fail: `Sat x E Q` says that a failure
of `x` meets `E` and a result of `x` meets `Q`.
-/

namespace Xv6.Contract

variable {ε α β : Type} {E E' : ε → Prop} {Q Q' : α → Prop} {x : Except ε α}

def Sat : Except ε α → (ε → Prop) → (α → Prop) → Prop
  | .ok a, _, Q => Q a
  | .error e, E, _ => E e

@[simp] theorem sat_ok {a : α} : Sat (.ok a) E Q ↔ Q a := Iff.rfl

@[simp] theorem sat_error {e : ε} : Sat (.error e : Except ε α) E Q ↔ E e := Iff.rfl

theorem Sat.of_ok (h : Sat x E Q) {a : α} (hx : x = .ok a) : Q a := by
  rw [hx] at h
  exact h

theorem Sat.of_error (h : Sat x E Q) {e : ε} (hx : x = .error e) : E e := by
  rw [hx] at h
  exact h

variable {R : β → Prop} {f : α → Except ε β}

theorem Sat.bind (h : Sat x E Q) (hf : ∀ a, Q a → Sat (f a) E R) : Sat (x >>= f) E R := by
  cases x with
  | error e => exact h
  | ok a => exact hf a h

theorem Sat.mono (h : Sat x E Q) (hE : ∀ e, E e → E' e) (hQ : ∀ a, Q a → Q' a) : Sat x E' Q' := by
  cases x with
  | error e => exact hE e h
  | ok a => exact hQ a h

theorem Sat.post (h : Sat x E Q) (hQ : ∀ a, Q a → Q' a) : Sat x E Q' := h.mono (fun _ he => he) hQ

theorem Sat.bind_eq (h : Sat x E Q) (hf : ∀ a, x = .ok a → Q a → Sat (f a) E R) : Sat (x >>= f) E R := by
  cases x with
  | error e => exact h
  | ok a => exact hf a rfl h

theorem Sat.and (h : Sat x E Q) (h' : Sat x E' Q') : Sat x E fun a => Q a ∧ Q' a := by
  cases x with
  | error e => exact h
  | ok a => exact ⟨h, h'⟩

theorem sat_map {f : α → β} : Sat (f <$> x) E R ↔ Sat x E fun a => R (f a) := by
  cases x <;> rfl

theorem sat_ite {c : Prop} [Decidable c] {y : Except ε α} (hx : c → Sat x E Q) (hy : ¬ c → Sat y E Q) :
    Sat (if c then x else y) E Q := by
  by_cases hc : c
  · rw [if_pos hc]
    exact hx hc
  · rw [if_neg hc]
    exact hy hc

theorem sat_foldlM {f : β → α → Except ε β} {I : List α → β → Prop}
    (hf : ∀ a l b, I (a :: l) b → Sat (f b a) E (I l)) {l : List α} {b : β} (h : I l b) :
    Sat (l.foldlM f b) E (I []) := by
  induction l generalizing b with
  | nil => exact h
  | cons a l ih =>
    rw [List.foldlM_cons]
    exact (hf a l b h).bind fun c hc => ih hc

def Guarded (x : Except ε α) (c : Prop) (e : ε) (E : ε → Prop) (Q : α → Prop) : Prop :=
  (¬c → x = .error e) ∧ (c → Sat x E Q)

namespace Guarded

variable {c d : Prop} {e : ε}

theorem of_sat (h : Sat x E Q) (hc : c) : Guarded x c e E Q := ⟨fun hn => absurd hc hn, fun _ => h⟩

theorem congr (h : Guarded x c e E Q) (hc : d ↔ c) : Guarded x d e E Q :=
  ⟨fun hn => h.1 (mt hc.mpr hn), fun hd => h.2 (hc.mp hd)⟩

theorem mono (h : Guarded x c e E Q) (hE : ∀ e, E e → E' e) (hQ : ∀ a, Q a → Q' a) : Guarded x c e E' Q' :=
  ⟨h.1, fun hc => (h.2 hc).mono hE hQ⟩

theorem of_ok (h : Guarded x c e E Q) {a : α} (hx : x = .ok a) : c ∧ Q a := by
  by_cases hc : c
  · exact ⟨hc, (h.2 hc).of_ok hx⟩
  · cases hx.symm.trans (h.1 hc)

theorem sat_iff (h : Guarded x c e E Q) (hE : ∀ e', E e' → e' ≠ e) : Sat x (· ≠ e) Q ↔ c := by
  constructor
  · intro hs
    by_contra hc
    exact hs.of_error (h.1 hc) rfl
  · intro hc
    exact (h.2 hc).mono hE fun _ hq => hq

theorem bind (h : Guarded x c e (fun _ => False) Q)
    (hf : ∀ a, Q a → Guarded (f a) d e E R) : Guarded (x >>= f) (c ∧ d) e E R := by
  cases x with
  | error e' =>
    have hc : ¬c := fun hc => (h.2 hc).of_error rfl
    rw [h.1 hc]
    exact ⟨fun _ => rfl, fun hcd => absurd hcd.1 hc⟩
  | ok a =>
    obtain ⟨hc, ha⟩ := h.of_ok rfl
    exact (hf a ha).congr (and_iff_right hc)

theorem bind_sat (h : Guarded x c e E Q) (hf : ∀ a, Q a → Sat (f a) E R) : Guarded (x >>= f) c e E R := by
  refine ⟨fun hc => ?_, fun hc => (h.2 hc).bind hf⟩
  rw [h.1 hc]
  rfl

end Guarded

end Xv6.Contract
