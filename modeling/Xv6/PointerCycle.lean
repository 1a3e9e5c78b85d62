import Mathlib

/-!
A circular list through a pointer in each node: a search around it, and how it is rotated and changed.
-/

namespace Xv6.PointerCycle

variable {α : Type}

def Chain (next : α → α) : List α → α → Prop
  | [], _ => True
  | a :: l, z => next a = l.headD z ∧ Chain next l z

def search (stop : α → Bool) (next : α → α) : ℕ → α → Option α
  | 0, _ => none
  | n + 1, p => if stop p then some p else search stop next n (next p)

variable {next next' : α → α} {l l1 l2 : List α} {a p z : α} {stop : α → Bool} {n : ℕ}

theorem headD_append (l1 l2 : List α) (z : α) : (l1 ++ l2).headD z = l1.headD (l2.headD z) := by
  cases l1 with
  | nil => rfl
  | cons a l1 => rfl

theorem chain_append : Chain next (l1 ++ l2) z ↔ Chain next l1 (l2.headD z) ∧ Chain next l2 z := by
  induction l1 with
  | nil => simp [Chain]
  | cons a l1 ih => simp only [List.cons_append, Chain, headD_append, ih, and_assoc]

theorem Chain.congr (h : Chain next l z) (hn : ∀ a ∈ l, next' a = next a) : Chain next' l z := by
  induction l with
  | nil => trivial
  | cons a l ih => exact ⟨(hn a List.mem_cons_self).trans h.1, ih h.2 fun b hb => hn b (List.mem_cons_of_mem a hb)⟩

theorem Chain.rotate (h : Chain next (l1 ++ p :: l2) a) (ha : (l1 ++ p :: l2).headD a = a) :
    Chain next (p :: l2 ++ l1) p := by
  obtain ⟨h1, h2⟩ := chain_append.mp h
  rw [headD_append] at ha
  refine chain_append.mpr ⟨?_, h1⟩
  cases l1 with
  | nil =>
    have hp : p = a := ha
    rw [hp] at h2 ⊢
    exact h2
  | cons b l1 =>
    have hb : b = a := ha
    rw [List.headD_cons, hb]
    exact h2

theorem Chain.search_eq (h : Chain next l z) (hs : ∃ x ∈ l, stop x = true) (hn : l.length ≤ n) :
    search stop next n (l.headD z) = l.find? stop := by
  induction l generalizing n with
  | nil =>
    obtain ⟨x, hx, -⟩ := hs
    cases hx
  | cons a l ih =>
    obtain _ | n := n
    · cases hn
    · rw [search, List.find?_cons, List.headD_cons]
      cases ha : stop a with
      | true => rfl
      | false =>
        simp only [Bool.false_eq_true, if_false]
        rw [h.1]
        apply ih h.2
        · obtain ⟨x, hx, hsx⟩ := hs
          rcases List.mem_cons.mp hx with rfl | hx
          · rw [ha] at hsx
            cases hsx
          · exact ⟨x, hx, hsx⟩
        · exact Nat.le_of_succ_le_succ hn

theorem Chain.next_eq (h : Chain next (l1 ++ p :: l2) z) : next p = l2.headD z := (chain_append.mp h).2.1

theorem search_mono {m : ℕ} (h : search stop next n p = some a) (hm : n ≤ m) : search stop next m p = some a := by
  induction n generalizing m p with
  | zero => cases h
  | succ n ih =>
    obtain ⟨m, rfl⟩ := Nat.exists_eq_add_of_lt hm
    rw [search] at h
    rw [search]
    split at h
    · rw [if_pos (by assumption)]
      exact h
    · rw [if_neg (by assumption)]
      exact ih h (Nat.le_add_right n m)

section Ascending

variable [LinearOrder α]

def Place (next : α → α) (b p : α) : Prop := p < b ∧ b < next p ∨ next p ≤ p ∧ (p < b ∨ b < next p)

instance (next : α → α) (b p : α) : Decidable (Place next b p) := inferInstanceAs (Decidable (_ ∨ _))

variable {b : α}

theorem Chain.place_iff (h : Chain next (z :: l) z) (ho : (z :: l).Pairwise (· < ·)) (hb : z < b)
    (hp : p ∈ z :: l) : Place next b p ↔ p < b ∧ ∀ c ∈ z :: l, p < c → b < c := by
  obtain ⟨l1, l2, hl⟩ := List.append_of_mem hp
  have hz : z ≤ p := by
    rcases List.mem_cons.mp hp with rfl | hp
    · exact le_refl p
    · exact ((List.pairwise_cons.mp ho).1 p hp).le
  rw [hl] at h ho ⊢
  obtain ⟨-, hp2, h12⟩ := List.pairwise_append.mp ho
  have hlow : ∀ c ∈ l1, ¬p < c := fun c hc => (h12 c hc p List.mem_cons_self).not_gt
  rw [Place, h.next_eq]
  cases l2 with
  | nil =>
    simp only [List.headD_nil]
    constructor
    · intro hpl
      refine ⟨?_, fun c hc hpc => ?_⟩
      · rcases hpl with ⟨hlt, -⟩ | ⟨-, hlt | hlt⟩
        · exact hlt
        · exact hlt
        · exact absurd hlt hb.not_gt
      · rcases List.mem_append.mp hc with hc | hc
        · exact absurd hpc (hlow c hc)
        · rw [List.mem_singleton.mp hc] at hpc
          exact absurd hpc (lt_irrefl p)
    · rintro ⟨hlt, -⟩
      exact Or.inr ⟨hz, Or.inl hlt⟩
  | cons y l2 =>
    simp only [List.headD_cons]
    have hy := List.pairwise_cons.mp hp2
    have hpy := hy.1 y List.mem_cons_self
    constructor
    · rintro (⟨hlt, hby⟩ | ⟨hle, -⟩)
      · refine ⟨hlt, fun c hc hpc => ?_⟩
        rcases List.mem_append.mp hc with hc | hc
        · exact absurd hpc (hlow c hc)
        · rcases List.mem_cons.mp hc with rfl | hc
          · exact absurd hpc (lt_irrefl c)
          · rcases List.mem_cons.mp hc with rfl | hc
            · exact hby
            · exact hby.trans ((List.pairwise_cons.mp hy.2).1 c hc)
      · exact absurd hpy hle.not_gt
    · rintro ⟨hlt, hall⟩
      exact Or.inl ⟨hlt, hall y (by simp) hpy⟩

theorem Chain.search_place (h : Chain next (z :: l) z) (ho : (z :: l).Pairwise (· < ·)) (hb : z < b)
    (hp : p ∈ z :: l) (hlt : p < b) (hgt : ∀ c ∈ z :: l, p < c → b < c) (ha : a ∈ z :: l)
    (hn : (z :: l).length ≤ n) : search (fun q => decide (Place next b q)) next n a = some p := by
  obtain ⟨l1, l2, hl⟩ := List.append_of_mem ha
  have hperm : (a :: l2 ++ l1).Perm (z :: l) := hl ▸ List.perm_append_comm
  have hrot : Chain next (a :: l2 ++ l1) a := by
    rw [hl] at h
    exact h.rotate (by rw [← hl, List.headD_cons])
  have hex : ∃ x ∈ a :: l2 ++ l1, decide (Place next b x) = true :=
    ⟨p, hperm.mem_iff.mpr hp, decide_eq_true ((h.place_iff ho hb hp).mpr ⟨hlt, hgt⟩)⟩
  have hs := hrot.search_eq hex (hperm.length_eq ▸ hn)
  rw [List.cons_append, List.headD_cons] at hs
  rw [hs]
  cases hf : List.find? (fun q => decide (Place next b q)) (a :: (l2 ++ l1)) with
  | none =>
    obtain ⟨x, hx, hpx⟩ := hex
    exact absurd hpx (List.find?_eq_none.mp hf x hx)
  | some x =>
    have hx : x ∈ z :: l := hperm.mem_iff.mp (List.mem_of_find?_eq_some hf)
    have hpx := List.find?_some (p := fun q => decide (Place next b q)) hf
    obtain ⟨hxb, hxc⟩ := (h.place_iff ho hb hx).mp (of_decide_eq_true hpx)
    -- of two last nodes below b neither is below the other
    rcases lt_trichotomy x p with hxp | rfl | hxp
    · exact absurd (hxc p hp hxp) hlt.not_gt
    · rfl
    · exact absurd (hgt x hx hxp) hxb.not_gt

end Ascending

end Xv6.PointerCycle
