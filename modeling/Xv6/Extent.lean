import Mathlib

/-!
Stretches of memory, and how often a list of them covers a place.
-/

namespace Xv6

structure Extent where
  start : ℕ
  size : ℕ
  deriving DecidableEq, Repr

namespace Extent

def Covers (b : Extent) (u : ℕ) : Prop := b.start ≤ u ∧ u < b.start + b.size

instance (b : Extent) (u : ℕ) : Decidable (b.Covers u) := inferInstanceAs (Decidable (_ ∧ _))

def cover (bs : List Extent) (u : ℕ) : ℕ := (bs.map fun b => if b.Covers u then 1 else 0).sum

variable {b c : Extent} {bs cs1 cs2 : List Extent} {u : ℕ}

theorem cover_cons (b : Extent) (bs : List Extent) (u : ℕ) :
    cover (b :: bs) u = (if b.Covers u then 1 else 0) + cover bs u := by
  simp [cover]

theorem cover_append (bs cs : List Extent) (u : ℕ) : cover (bs ++ cs) u = cover bs u + cover cs u := by
  simp [cover]

theorem cover_pos : 0 < cover bs u ↔ ∃ b ∈ bs, b.Covers u := by
  induction bs with
  | nil => simp [cover]
  | cons b bs ih =>
    rw [cover_cons]
    by_cases hb : b.Covers u
    · exact iff_of_true (by rw [if_pos hb]; omega) ⟨b, List.mem_cons_self, hb⟩
    · rw [if_neg hb, Nat.zero_add, ih]
      constructor
      · rintro ⟨c, hc, hu⟩
        exact ⟨c, List.mem_cons_of_mem b hc, hu⟩
      · rintro ⟨c, hc, hu⟩
        rcases List.mem_cons.mp hc with rfl | hc
        · exact absurd hu hb
        · exact ⟨c, hc, hu⟩

theorem pairwise_of_cover (h : ∀ u, cover bs u ≤ 1) : bs.Pairwise fun b c => ∀ u, ¬(b.Covers u ∧ c.Covers u) := by
  induction bs with
  | nil => exact List.Pairwise.nil
  | cons b bs ih =>
    refine List.Pairwise.cons ?_ (ih fun u => ?_)
    · rintro c hc u ⟨hb, hu⟩
      have hpos := cover_pos.mpr ⟨c, hc, hu⟩
      have hle := h u
      rw [cover_cons, if_pos hb] at hle
      omega
    · have hle := h u
      rw [cover_cons] at hle
      omega

theorem covers_join (a m n u : ℕ) : ((if (⟨a, m⟩ : Extent).Covers u then 1 else 0) +
    if (⟨a + m, n⟩ : Extent).Covers u then 1 else 0) = if (⟨a, m + n⟩ : Extent).Covers u then 1 else 0 := by
  by_cases hm : (⟨a, m⟩ : Extent).Covers u
  · have hn : ¬(⟨a + m, n⟩ : Extent).Covers u := fun h => absurd hm.2 (Nat.not_lt.mpr h.1)
    have hj : (⟨a, m + n⟩ : Extent).Covers u := ⟨hm.1, Nat.lt_of_lt_of_le hm.2 (by simp only; omega)⟩
    rw [if_pos hm, if_neg hn, if_pos hj]
  · by_cases hn : (⟨a + m, n⟩ : Extent).Covers u
    · have hj : (⟨a, m + n⟩ : Extent).Covers u := by simp only [Covers] at hn ⊢; omega
      rw [if_neg hm, if_pos hn, if_pos hj]
    · have hj : ¬(⟨a, m + n⟩ : Extent).Covers u := by simp only [Covers] at hm hn ⊢; omega
      rw [if_neg hm, if_neg hn, if_neg hj]

theorem apart_of_disjoint (h : ∀ u, ¬(b.Covers u ∧ c.Covers u)) (hb : 0 < b.size) (hc : 0 < c.size) :
    b.start + b.size ≤ c.start ∨ c.start + c.size ≤ b.start := by
  have h1 := h b.start
  have h2 := h c.start
  simp only [Covers] at h1 h2
  omega

theorem disjoint_of_cover (h : ∀ u, cover bs u ≤ 1) (hl : bs = cs1 ++ b :: cs2) (hc : c ∈ cs1 ++ cs2) (u : ℕ) :
    ¬(b.Covers u ∧ c.Covers u) := by
  rintro ⟨hb, hu⟩
  have hpos := cover_pos.mpr ⟨c, hc, hu⟩
  have hle := h u
  rw [hl, cover_append, cover_cons, if_pos hb] at hle
  rw [cover_append] at hpos
  omega

def Before (b c : Extent) : Prop := b.start + b.size < c.start

instance (b c : Extent) : Decidable (b.Before c) := inferInstanceAs (Decidable (_ < _))

def push (b : Extent) : List Extent → List Extent
  | [] => [b]
  | c :: bs => if b.start + b.size = c.start then ⟨b.start, b.size + c.size⟩ :: bs else b :: c :: bs

theorem cover_push (b : Extent) (bs : List Extent) (u : ℕ) :
    cover (push b bs) u = (if b.Covers u then 1 else 0) + cover bs u := by
  cases bs with
  | nil => rw [push, cover_cons]
  | cons c bs =>
    rw [push]
    split
    · next h =>
      obtain ⟨a, m⟩ := b
      obtain ⟨d, n⟩ := c
      simp only at h
      rw [cover_cons, cover_cons, ← Nat.add_assoc, ← h, covers_join]
    · rw [cover_cons]

theorem mem_push (hc : c ∈ push b bs) : c ∈ bs ∨ c.start = b.start ∧ b.size ≤ c.size ∧
    (c.start + c.size = b.start + b.size ∨ ∃ d ∈ bs, c.start + c.size = d.start + d.size) := by
  cases bs with
  | nil =>
    rw [List.mem_singleton.mp hc]
    exact Or.inr ⟨rfl, le_refl _, Or.inl rfl⟩
  | cons d bs =>
    rw [push] at hc
    split at hc
    · next he =>
      rcases List.mem_cons.mp hc with rfl | hc
      · exact Or.inr ⟨rfl, Nat.le_add_right _ _, Or.inr ⟨d, List.mem_cons_self, by simp only; omega⟩⟩
      · exact Or.inl (List.mem_cons_of_mem d hc)
    · rcases List.mem_cons.mp hc with rfl | hc
      · exact Or.inr ⟨rfl, le_refl _, Or.inl rfl⟩
      · exact Or.inl hc

theorem exists_push (b : Extent) (bs : List Extent) :
    ∃ c cs, push b bs = c :: cs ∧ c.start = b.start ∧ b.size ≤ c.size ∧ ∀ d ∈ cs, d ∈ bs := by
  cases bs with
  | nil => exact ⟨b, [], rfl, rfl, le_refl _, by simp⟩
  | cons d bs =>
    rw [push]
    split
    · exact ⟨_, bs, rfl, rfl, Nat.le_add_right _ _, fun e he => List.mem_cons_of_mem d he⟩
    · exact ⟨b, d :: bs, rfl, rfl, le_refl _, fun e he => he⟩

theorem pairwise_push (hs : bs.Pairwise Before) (h : ∀ c ∈ bs, b.start + b.size ≤ c.start) :
    (push b bs).Pairwise Before := by
  cases bs with
  | nil => exact List.pairwise_singleton Before b
  | cons c bs =>
    obtain ⟨hc, hbs⟩ := List.pairwise_cons.mp hs
    rw [push]
    split
    · next he =>
      refine List.pairwise_cons.mpr ⟨fun d hd => ?_, hbs⟩
      have hlt := hc d hd
      simp only [Before] at hlt ⊢
      omega
    · next he =>
      have hlt : b.start + b.size < c.start := lt_of_le_of_ne (h c List.mem_cons_self) he
      refine List.pairwise_cons.mpr ⟨fun d hd => ?_, hs⟩
      rcases List.mem_cons.mp hd with rfl | hd
      · exact hlt
      · have hcd := hc d hd
        simp only [Before] at hcd ⊢
        omega

theorem exists_le_push (hc : c ∈ bs) : ∃ d ∈ push b bs, c.size ≤ d.size := by
  cases bs with
  | nil => cases hc
  | cons e bs =>
    rw [push]
    split
    · rcases List.mem_cons.mp hc with rfl | hc
      · exact ⟨_, List.mem_cons_self, Nat.le_add_left _ _⟩
      · exact ⟨c, List.mem_cons_of_mem _ hc, le_refl _⟩
    · exact ⟨c, List.mem_cons_of_mem b hc, le_refl _⟩

theorem pairwise_insert {a : Extent} (hs : (cs1 ++ a :: cs2).Pairwise Before) (ha : a.start + a.size ≤ b.start)
    (hc : ∀ c ∈ cs2, b.start + b.size ≤ c.start) : (cs1 ++ push a (push b cs2)).Pairwise Before := by
  obtain ⟨h1, h2, h12⟩ := List.pairwise_append.mp hs
  obtain ⟨ha2, h2⟩ := List.pairwise_cons.mp h2
  have hlow : ∀ c ∈ push b cs2, a.start + a.size ≤ c.start := by
    intro c hc
    rcases mem_push hc with hc | ⟨he, -⟩
    · exact (ha2 c hc).le
    · exact he ▸ ha
  refine List.pairwise_append.mpr ⟨h1, pairwise_push (pairwise_push h2 hc) hlow, fun c hc d hd => ?_⟩
  have hca := h12 c hc a List.mem_cons_self
  rcases mem_push hd with hd | ⟨he, -⟩
  · have := hlow d hd
    simp only [Before] at hca ⊢
    omega
  · simp only [Before] at hca ⊢
    omega

theorem pairwise_shrink (hs : (cs1 ++ c :: cs2).Pairwise Before) (hb : b.start = c.start) (hle : b.size ≤ c.size) :
    (cs1 ++ b :: cs2).Pairwise Before := by
  obtain ⟨h1, h2, h12⟩ := List.pairwise_append.mp hs
  obtain ⟨hc, h2⟩ := List.pairwise_cons.mp h2
  refine List.pairwise_append.mpr ⟨h1, List.pairwise_cons.mpr ⟨fun d hd => ?_, h2⟩, fun d hd e he => ?_⟩
  · have := hc d hd
    simp only [Before] at this ⊢
    omega
  · rcases List.mem_cons.mp he with rfl | he
    · have := h12 d hd c List.mem_cons_self
      simp only [Before] at this ⊢
      omega
    · exact h12 d hd e (List.mem_cons_of_mem c he)

theorem split_at (hs : bs.Pairwise Before)
    (h : ∀ c ∈ bs, c.start + c.size ≤ b.start ∨ b.start + b.size ≤ c.start) :
    ∃ lo hi, bs = lo ++ hi ∧ (∀ c ∈ lo, c.start + c.size ≤ b.start) ∧ ∀ c ∈ hi, b.start + b.size ≤ c.start := by
  induction bs with
  | nil => exact ⟨[], [], rfl, by simp, by simp⟩
  | cons c bs ih =>
    obtain ⟨hc, hbs⟩ := List.pairwise_cons.mp hs
    rcases h c List.mem_cons_self with hle | hle
    · obtain ⟨lo, hi, hl, hlo, hhi⟩ := ih hbs fun d hd => h d (List.mem_cons_of_mem c hd)
      refine ⟨c :: lo, hi, by rw [hl, List.cons_append], fun d hd => ?_, hhi⟩
      rcases List.mem_cons.mp hd with rfl | hd
      · exact hle
      · exact hlo d hd
    · refine ⟨[], c :: bs, rfl, by simp, fun d hd => ?_⟩
      rcases List.mem_cons.mp hd with rfl | hd
      · exact hle
      · have hlt := hc d hd
        simp only [Before] at hlt
        omega

end Extent
end Xv6
