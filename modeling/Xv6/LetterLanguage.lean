import Mathlib

/-!
Languages of single letters, and what it means to begin with one or with a run of them.
-/

namespace Xv6.LetterLanguage

open Computability

variable {α : Type}

def letters (p : α → Prop) : Language α := {w | ∃ c, p c ∧ w = [c]}

variable {p : α → Prop} {L : Language α} {w : List α} {c : α}

@[simp] theorem nil_mem_letters_mul : [] ∈ letters p * L ↔ False := by
  rw [Language.mem_mul]
  constructor
  · rintro ⟨_, ⟨c, -, rfl⟩, v, -, h⟩
    cases h
  · exact False.elim

@[simp] theorem cons_mem_letters_mul : c :: w ∈ letters p * L ↔ p c ∧ w ∈ L := by
  rw [Language.mem_mul]
  constructor
  · rintro ⟨_, ⟨d, hd, rfl⟩, v, hv, h⟩
    cases h
    exact ⟨hd, hv⟩
  · rintro ⟨hc, hw⟩
    exact ⟨[c], ⟨c, hc, rfl⟩, w, hw, rfl⟩

theorem star_mul_eq (K L : Language α) : K∗ * L = L + K * (K∗ * L) := by
  conv_lhs => rw [← Language.one_add_self_mul_kstar_eq_kstar K, add_mul, one_mul, mul_assoc]

@[simp] theorem nil_mem_star_mul : [] ∈ (letters p)∗ * L ↔ [] ∈ L := by
  rw [star_mul_eq, Language.mem_add, nil_mem_letters_mul, or_false]

theorem cons_mem_star_mul : c :: w ∈ (letters p)∗ * L ↔ c :: w ∈ L ∨ p c ∧ w ∈ (letters p)∗ * L := by
  rw [star_mul_eq, Language.mem_add, cons_mem_letters_mul, ← star_mul_eq]

end Xv6.LetterLanguage
