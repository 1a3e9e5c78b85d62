import Mathlib

/-!
How many of finitely many nullable pointers point to a given place.
-/

namespace Xv6.PointerCount

variable {ι α : Type} [Fintype ι] [DecidableEq ι] [DecidableEq α]

def hit (x : Option α) (a : α) : ℕ := if x = some a then 1 else 0

def count (g : ι → Option α) (a : α) : ℕ := ∑ i, hit (g i) a

@[simp] theorem hit_none (a : α) : hit none a = 0 := rfl

@[simp] theorem hit_self (a : α) : hit (some a) a = 1 := if_pos rfl

theorem hit_some (a b : α) : hit (some b) a = if a = b then 1 else 0 := by
  simp only [hit, Option.some.injEq, @eq_comm _ b a]

theorem hit_of_ne {a b : α} (h : b ≠ a) : hit (some b) a = 0 := if_neg (by simpa using h)

theorem count_update (g : ι → Option α) (i : ι) (v : Option α) (a : α) :
    count (Function.update g i v) a + hit (g i) a = count g a + hit v a := by
  have h : ∀ j, hit (Function.update g i v j) a = Function.update (fun j => hit (g j) a) i (hit v a) j := by
    intro j
    by_cases hj : j = i
    · subst hj
      simp
    · simp [Function.update_of_ne hj]
  simp only [count, h]
  rw [Finset.sum_update_of_mem (Finset.mem_univ i), ← Finset.sum_sdiff (Finset.subset_univ {i})]
  simp only [Finset.sum_singleton]
  omega

omit [DecidableEq ι] in
theorem count_pos {g : ι → Option α} {i : ι} {a : α} (h : g i = some a) : 0 < count g a := by
  apply Finset.sum_pos'
  · intro j _
    exact Nat.zero_le _
  · exact ⟨i, Finset.mem_univ i, by simp [h]⟩

omit [DecidableEq ι] in
theorem exists_of_count_pos {g : ι → Option α} {a : α} (h : 0 < count g a) : ∃ i, g i = some a := by
  by_contra hn
  have hz : ∀ i, hit (g i) a = 0 := fun i => if_neg (fun hi => hn ⟨i, hi⟩)
  simp [count, hz] at h

omit [DecidableEq ι] in
theorem count_const_none (a : α) : count (fun _ : ι => none) a = 0 := by simp [count]

end Xv6.PointerCount
