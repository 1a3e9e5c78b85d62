import Mathlib

/-!
Recursive programs run with fuel: a run returns, stops with an error, or needs more fuel. `Total` is a total
correctness rule: the run had fuel enough, and its result or its error is as said.
-/

namespace Xv6.Fueled

inductive Res (ε α : Type)
  | more
  | stop (e : ε)
  | ok (a : α)
  deriving DecidableEq

variable {ε α β : Type} {x : Res ε α} {f : α → Res ε β} {a : α} {b : β} {e : ε} {Q Q' : α → Prop} {R : β → Prop}
  {E E' : ε → Prop}

def Res.bind (x : Res ε α) (f : α → Res ε β) : Res ε β :=
  match x with
  | .more => .more
  | .stop e => .stop e
  | .ok a => f a

instance : Monad (Res ε) where
  pure := .ok
  bind := .bind

@[simp] theorem pure_eq : (pure a : Res ε α) = .ok a := rfl

@[simp] theorem ok_bind : (Res.ok a : Res ε α) >>= f = f a := rfl

@[simp] theorem stop_bind : (Res.stop e : Res ε α) >>= f = .stop e := rfl

@[simp] theorem more_bind : (Res.more : Res ε α) >>= f = .more := rfl

theorem bind_eq_ok : x >>= f = .ok b ↔ ∃ a, x = .ok a ∧ f a = .ok b := by
  cases x with
  | more => simp
  | stop e => simp
  | ok a => simp

theorem bind_eq_stop : x >>= f = .stop e ↔ x = .stop e ∨ ∃ a, x = .ok a ∧ f a = .stop e := by
  cases x with
  | more => simp
  | stop e' => simp
  | ok a => simp

def Total (x : Res ε α) (Q : α → Prop) (E : ε → Prop) : Prop :=
  match x with
  | .more => False
  | .stop e => E e
  | .ok a => Q a

theorem Total.ok (h : Q a) : Total (.ok a : Res ε α) Q E := h

theorem Total.stop (h : E e) : Total (.stop e : Res ε α) Q E := h

theorem Total.mono (h : Total x Q E) (hq : ∀ a, Q a → Q' a) : Total x Q' E := by
  cases x with
  | more => exact h
  | stop e => exact h
  | ok a => exact hq a h

theorem Total.bind (h : Total x Q E) (hf : ∀ a, Q a → Total (f a) R E) : Total (x >>= f) R E := by
  cases x with
  | more => exact h
  | stop e => exact h
  | ok a => exact hf a h

theorem Total.of_ok (h : Total x Q E) (hx : x = .ok a) : Q a := by
  subst hx
  exact h

theorem Total.cases (h : Total x Q E) : (∃ e, x = .stop e ∧ E e) ∨ ∃ a, x = .ok a ∧ Q a := by
  cases x with
  | more => exact absurd h id
  | stop e => exact Or.inl ⟨e, rfl, h⟩
  | ok a => exact Or.inr ⟨a, rfl, h⟩

end Xv6.Fueled
