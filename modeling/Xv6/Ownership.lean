import Mathlib

/-!
Resources that are either free or held in exactly one role. The set `M` is what the
ledger accounts for: an item taken out of it is in nobody's hands until it is put back.
-/

namespace Xv6.Ownership

variable {ρ π : Type}

structure Ledger (M free : Set π) (h : ρ → Option π) : Prop where
  apart : ∀ r x, h r = some x → x ∉ free
  inj : ∀ r r' x, h r = some x → h r' = some x → r = r'
  all : ∀ x, x ∈ M ↔ x ∈ free ∨ ∃ r, h r = some x

variable {M free : Set π} {h h' : ρ → Option π} {x : π} {r : ρ}

theorem Ledger.mem_of_free (hl : Ledger M free h) (hx : x ∈ free) : x ∈ M := (hl.all x).mpr (Or.inl hx)

theorem Ledger.mem_of_held (hl : Ledger M free h) (hr : h r = some x) : x ∈ M :=
  (hl.all x).mpr (Or.inr ⟨r, hr⟩)

theorem Ledger.congr (hl : Ledger M free h) (he : ∀ r, h' r = h r) : Ledger M free h' := by
  rw [show h' = h from funext he]
  exact hl

theorem Ledger.pop (hl : Ledger M free h) (hx : x ∈ free) : Ledger (M \ {x}) (free \ {x}) h := by
  refine ⟨fun r y hr hy => hl.apart r y hr hy.1, hl.inj, ?_⟩
  intro y
  simp only [Set.mem_sdiff, Set.mem_singleton_iff, hl.all y]
  constructor
  · rintro ⟨hf | hr, hne⟩
    · exact Or.inl ⟨hf, hne⟩
    · exact Or.inr hr
  · rintro (⟨hf, hne⟩ | ⟨r, hr⟩)
    · exact ⟨Or.inl hf, hne⟩
    · exact ⟨Or.inr ⟨r, hr⟩, by rintro rfl; exact hl.apart r y hr hx⟩

theorem Ledger.put (hl : Ledger M free h) (hx : x ∉ M) : Ledger (insert x M) (insert x free) h := by
  refine ⟨?_, hl.inj, ?_⟩
  · rintro r y hr (rfl | hf)
    · exact hx (hl.mem_of_held hr)
    · exact hl.apart r y hr hf
  · intro y
    simp only [Set.mem_insert_iff, hl.all y, or_assoc]

theorem Ledger.assign (hl : Ledger M free h) (hx : x ∉ M) (hr : h r = none) (hr' : h' r = some x)
    (ho : ∀ s, s ≠ r → h' s = h s) : Ledger (insert x M) free h' := by
  have hcases : ∀ s y, h' s = some y → (s = r ∧ y = x) ∨ h s = some y := by
    intro s y hs
    by_cases he : s = r
    · subst he
      rw [hr'] at hs
      exact Or.inl ⟨rfl, (Option.some.inj hs).symm⟩
    · rw [ho s he] at hs
      exact Or.inr hs
  refine ⟨?_, ?_, ?_⟩
  · intro s y hs hf
    rcases hcases s y hs with ⟨_, rfl⟩ | hs
    · exact hx (hl.mem_of_free hf)
    · exact hl.apart s y hs hf
  · intro s s' y hs hs'
    rcases hcases s y hs with ⟨rfl, rfl⟩ | h1 <;> rcases hcases s' y hs' with ⟨rfl, h2⟩ | h2
    · rfl
    · exact absurd (hl.mem_of_held h2) hx
    · subst h2; exact absurd (hl.mem_of_held h1) hx
    · exact hl.inj s s' y h1 h2
  · intro y
    rw [Set.mem_insert_iff, hl.all y]
    constructor
    · rintro (rfl | hf | ⟨s, hs⟩)
      · exact Or.inr ⟨r, hr'⟩
      · exact Or.inl hf
      · have hne : s ≠ r := by rintro rfl; rw [hr] at hs; cases hs
        exact Or.inr ⟨s, (ho s hne).trans hs⟩
    · rintro (hf | ⟨s, hs⟩)
      · exact Or.inr (Or.inl hf)
      · rcases hcases s y hs with ⟨_, rfl⟩ | hs
        · exact Or.inl rfl
        · exact Or.inr (Or.inr ⟨s, hs⟩)

theorem Ledger.release (hl : Ledger M free h) (hr : h r = some x) (hr' : h' r = none)
    (ho : ∀ s, s ≠ r → h' s = h s) : Ledger (M \ {x}) free h' := by
  have hcases : ∀ s y, h' s = some y → s ≠ r ∧ h s = some y := by
    intro s y hs
    have hne : s ≠ r := by rintro rfl; rw [hr'] at hs; cases hs
    exact ⟨hne, (ho s hne).symm.trans hs⟩
  refine ⟨fun s y hs => hl.apart s y (hcases s y hs).2,
    fun s s' y hs hs' => hl.inj s s' y (hcases s y hs).2 (hcases s' y hs').2, ?_⟩
  intro y
  simp only [Set.mem_sdiff, Set.mem_singleton_iff, hl.all y]
  constructor
  · rintro ⟨hf | ⟨s, hs⟩, hne⟩
    · exact Or.inl hf
    · have hsr : s ≠ r := by
        rintro rfl
        rw [hr] at hs
        exact hne (Option.some.inj hs).symm
      exact Or.inr ⟨s, (ho s hsr).trans hs⟩
  · rintro (hf | ⟨s, hs⟩)
    · refine ⟨Or.inl hf, ?_⟩
      rintro rfl
      exact hl.apart r y hr hf
    · obtain ⟨hne, hs⟩ := hcases s y hs
      refine ⟨Or.inr ⟨s, hs⟩, ?_⟩
      rintro rfl
      exact hne (hl.inj s r y hs hr)

theorem Ledger.reclaim (hl : Ledger M free h) (S : Set ρ) (hS : ∀ r ∈ S, h' r = none) (ho : ∀ r, r ∉ S → h' r = h r) :
    Ledger M (free ∪ {x | ∃ r ∈ S, h r = some x}) h' := by
  have hcases : ∀ s y, h' s = some y → s ∉ S ∧ h s = some y := by
    intro s y hs
    have hn : s ∉ S := by
      intro hm
      rw [hS s hm] at hs
      cases hs
    exact ⟨hn, (ho s hn).symm.trans hs⟩
  refine ⟨?_, fun s s' y hs hs' => hl.inj s s' y (hcases s y hs).2 (hcases s' y hs').2, ?_⟩
  · rintro s y hs (hf | ⟨r, hr, hy⟩)
    · exact hl.apart s y (hcases s y hs).2 hf
    · have he := hl.inj s r y (hcases s y hs).2 hy
      exact (hcases s y hs).1 (he ▸ hr)
  · intro y
    rw [hl.all y]
    constructor
    · rintro (hf | ⟨r, hr⟩)
      · exact Or.inl (Or.inl hf)
      · by_cases hm : r ∈ S
        · exact Or.inl (Or.inr ⟨r, hm, hr⟩)
        · exact Or.inr ⟨r, (ho r hm).trans hr⟩
    · rintro ((hf | ⟨r, _, hr⟩) | ⟨s, hs⟩)
      · exact Or.inl hf
      · exact Or.inr ⟨r, hr⟩
      · exact Or.inr ⟨s, (hcases s y hs).2⟩

end Xv6.Ownership
