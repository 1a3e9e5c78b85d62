import Mathlib

/-!
A property that at most one party has, recorded as the party that has it.
-/

namespace Xv6.SoleHolder

variable {P : Type} {A B : P → Bool} {o : Option P} {p q : P}

def Sole (A : P → Bool) (o : Option P) : Prop := ∀ p, A p = true ↔ o = some p

theorem Sole.eq (h : Sole A o) (hp : A p = true) (hq : A q = true) : p = q :=
  Option.some.inj (((h p).mp hp).symm.trans ((h q).mp hq))

theorem Sole.of_none (h : Sole A none) (p : P) : A p = false := by
  rw [← Bool.not_eq_true, h p]
  simp

theorem Sole.congr (h : Sole A o) (hB : ∀ q, B q = A q) : Sole B o := by
  intro q
  rw [hB q]
  exact h q

theorem Sole.take (h : Sole A none) (hp : B p = true) (hB : ∀ q, q ≠ p → B q = A q) : Sole B (some p) := by
  intro q
  by_cases hq : q = p
  · simp [hq, hp]
  · rw [hB q hq, h.of_none q]
    simp [Ne.symm hq]

theorem Sole.drop (h : Sole A (some p)) (hp : B p = false) (hB : ∀ q, q ≠ p → B q = A q) : Sole B none := by
  intro q
  by_cases hq : q = p
  · simp [hq, hp]
  · rw [hB q hq, h q]
    simp [Ne.symm hq]

inductive Handover (p : P) : Option P → Option P → Bool → Bool → Prop
  | keep (o : Option P) (b : Bool) : Handover p o o b b
  | take (b : Bool) : Handover p none (some p) b true
  | drop (b : Bool) : Handover p (some p) none b false

theorem Sole.handover {o' : Option P} (h : Sole A o) (hh : Handover p o o' (A p) (B p)) (hB : ∀ q, q ≠ p → B q = A q) :
    Sole B o' := by
  generalize ha : A p = a at hh
  generalize hb : B p = b at hh
  cases hh with
  | keep =>
    apply h.congr
    intro q
    by_cases hq : q = p
    · rw [hq, ha, hb]
    · exact hB q hq
  | take => exact h.take hb hB
  | drop => exact h.drop hb hB

end Xv6.SoleHolder
