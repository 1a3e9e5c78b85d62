import Mathlib.Data.List.Basic
import Mathlib.Logic.Function.Basic

/-!
A table of slots, each free or in use under a key. No key is used twice.
-/

namespace Xv6.SlotTable

variable {α κ : Type} [DecidableEq κ] (free : α → Bool) (key : α → κ)

def usedAs (k : κ) (a : α) : Bool := !free a && decide (key a = k)

def find (es : List α) (k : κ) : Option (ℕ × α) :=
  (es.findIdx? (usedAs free key k)).bind fun q => es[q]?.map fun a => (q, a)

def slot (es : List α) : ℕ := (es.findIdx? free).getD es.length

def insert (es : List α) (a : α) : List α :=
  match es.findIdx? free with
  | some k => es.set k a
  | none => es ++ [a]

def Distinct (es : List α) : Prop :=
  ∀ (i j : ℕ) (a b : α), es[i]? = some a → es[j]? = some b → free a = false → free b = false → key a = key b → i = j

variable {free key} {es : List α} {k : κ} {a b : α} {q : ℕ}

theorem usedAs_iff : usedAs free key k a = true ↔ free a = false ∧ key a = k := by
  simp [usedAs]

theorem find_eq_none : find free key es k = none ↔ ∀ a ∈ es, free a = false → key a ≠ k := by
  have hsome (q : ℕ) (hq : es.findIdx? (usedAs free key k) = some q) : ∃ a, es[q]? = some a := by
    obtain ⟨hlt, -⟩ := List.findIdx?_eq_some_iff_getElem.mp hq
    exact ⟨_, List.getElem?_eq_getElem hlt⟩
  have hiff : find free key es k = none ↔ es.findIdx? (usedAs free key k) = none := by
    rw [find]
    cases hq : es.findIdx? (usedAs free key k) with
    | none => simp
    | some q =>
      obtain ⟨a, ha⟩ := hsome q hq
      simp [ha]
  rw [hiff, List.findIdx?_eq_none_iff]
  constructor
  · intro h a ha hf hk
    have := h a ha
    rw [usedAs_iff.mpr ⟨hf, hk⟩] at this
    cases this
  · intro h a ha
    rw [← Bool.not_eq_true, usedAs_iff]
    rintro ⟨hf, hk⟩
    exact h a ha hf hk

theorem find_sound (h : find free key es k = some (q, a)) : es[q]? = some a ∧ free a = false ∧ key a = k := by
  simp only [find, Option.bind_eq_some_iff, Option.map_eq_some_iff, Prod.mk.injEq] at h
  obtain ⟨q', hq, a', ha, rfl, rfl⟩ := h
  obtain ⟨hlt, hused, -⟩ := List.findIdx?_eq_some_iff_getElem.mp hq
  rw [List.getElem?_eq_getElem hlt] at ha
  cases ha
  exact ⟨List.getElem?_eq_getElem hlt, usedAs_iff.mp hused⟩

theorem find_eq_some (h : Distinct free key es) :
    find free key es k = some (q, a) ↔ es[q]? = some a ∧ free a = false ∧ key a = k := by
  refine ⟨find_sound, ?_⟩
  rintro ⟨ha, hf, hk⟩
  cases hfind : find free key es k with
  | none => exact absurd hk (find_eq_none.mp hfind a (List.mem_of_getElem? ha) hf)
  | some r =>
    obtain ⟨q', b⟩ := r
    obtain ⟨hb, hfb, hkb⟩ := find_sound hfind
    obtain rfl := h q q' a b ha hb hf hfb (hk.trans hkb.symm)
    rw [ha] at hb
    cases hb
    rfl

omit [DecidableEq κ] in
theorem distinct_nil : Distinct free key [] := by
  intro i j a b ha
  simp at ha

theorem slot_le : slot free es ≤ es.length := by
  rw [slot]
  cases hq : es.findIdx? free with
  | none => exact Nat.le_refl _
  | some k =>
    obtain ⟨hlt, -⟩ := List.findIdx?_eq_some_iff_getElem.mp hq
    exact Nat.le_of_lt hlt

theorem insert_eq (es : List α) (a : α) :
    insert free es a = if slot free es < es.length then es.set (slot free es) a else es ++ [a] := by
  rw [insert, slot]
  cases hq : es.findIdx? free with
  | none => exact (if_neg (Nat.lt_irrefl _)).symm
  | some k =>
    obtain ⟨hlt, -⟩ := List.findIdx?_eq_some_iff_getElem.mp hq
    exact (if_pos hlt).symm

theorem getElem?_insert (es : List α) (a : α) (q : ℕ) :
    (insert free es a)[q]? = if q = slot free es then some a else es[q]? := by
  rw [insert, slot]
  cases hq : es.findIdx? free with
  | none =>
    simp only [Option.getD_none]
    split_ifs with h
    · rw [h, List.getElem?_concat_length]
    · rcases Nat.lt_or_gt_of_ne h with hlt | hgt
      · exact List.getElem?_append_left hlt
      · rw [List.getElem?_eq_none (by simp; omega), List.getElem?_eq_none (Nat.le_of_lt hgt)]
  | some k =>
    obtain ⟨hlt, -⟩ := List.findIdx?_eq_some_iff_getElem.mp hq
    simp only [Option.getD_some]
    split_ifs with h
    · rw [h, List.getElem?_set_self hlt]
    · exact List.getElem?_set_ne (Ne.symm h)

theorem free_of_slot (hb : es[slot free es]? = some b) : free b = true := by
  rw [slot] at hb
  cases hq : es.findIdx? free with
  | none => simp [hq] at hb
  | some k =>
    obtain ⟨hlt, hfree, -⟩ := List.findIdx?_eq_some_iff_getElem.mp hq
    rw [hq, Option.getD_some, List.getElem?_eq_getElem hlt] at hb
    cases hb
    exact hfree

theorem Distinct.insert (h : Distinct free key es) (hno : find free key es (key a) = none) :
    Distinct free key (insert free es a) := by
  have hnone := find_eq_none.mp hno
  intro i j b c hb hc hfb hfc hk
  rw [getElem?_insert] at hb hc
  split_ifs at hb hc with hi hj hj
  · rw [hi, hj]
  · cases hb
    exact absurd hk.symm (hnone c (List.mem_of_getElem? hc) hfc)
  · cases hc
    exact absurd hk (hnone b (List.mem_of_getElem? hb) hfb)
  · exact h i j b c hb hc hfb hfc hk

theorem find_insert (h : Distinct free key es) (ha : free a = false) (hno : find free key es (key a) = none) :
    find free key (insert free es a) = Function.update (find free key es) (key a) (some (slot free es, a)) := by
  have hd := h.insert hno
  funext k
  apply Option.ext
  rintro ⟨q, b⟩
  rw [find_eq_some hd, getElem?_insert]
  by_cases hk : k = key a
  · subst hk
    rw [Function.update_self]
    constructor
    · rintro ⟨hb, hf, hkb⟩
      split_ifs at hb with hq
      · cases hb
        rw [hq]
      · exact absurd hkb (find_eq_none.mp hno b (List.mem_of_getElem? hb) hf)
    · intro he
      cases he
      exact ⟨if_pos rfl, ha, rfl⟩
  · rw [Function.update_of_ne hk, find_eq_some h]
    by_cases hq : q = slot free es
    · subst hq
      rw [if_pos rfl]
      constructor
      · rintro ⟨hb, -, hkb⟩
        cases hb
        exact absurd hkb.symm hk
      · rintro ⟨hb, hf, -⟩
        rw [free_of_slot hb] at hf
        cases hf
    · rw [if_neg hq]

omit [DecidableEq κ] in
theorem Distinct.erase (h : Distinct free key es) (hb : free b = true) : Distinct free key (es.set q b) := by
  intro i j c d hc hd hfc hfd hk
  rw [List.getElem?_set] at hc hd
  split_ifs at hc hd
  · cases hc
    rw [hb] at hfc
    cases hfc
  · cases hc
    rw [hb] at hfc
    cases hfc
  · cases hd
    rw [hb] at hfd
    cases hfd
  · exact h i j c d hc hd hfc hfd hk

theorem find_erase (h : Distinct free key es) (hb : free b = true) (hfind : find free key es k = some (q, a)) :
    find free key (es.set q b) = Function.update (find free key es) k none := by
  obtain ⟨ha, hfa, hka⟩ := find_sound hfind
  obtain ⟨hlt, -⟩ := List.getElem?_eq_some_iff.mp ha
  funext k'
  apply Option.ext
  rintro ⟨q', c⟩
  rw [find_eq_some (h.erase hb)]
  by_cases hq : q = q'
  · subst hq
    rw [List.getElem?_set_self hlt]
    constructor
    · rintro ⟨hc, hf, -⟩
      cases hc
      rw [hb] at hf
      cases hf
    · intro hc
      by_cases hk : k' = k
      · subst hk
        rw [Function.update_self] at hc
        cases hc
      · rw [Function.update_of_ne hk, find_eq_some h, ha] at hc
        obtain ⟨hc, -, hkc⟩ := hc
        cases hc
        exact absurd (hkc.symm.trans hka) hk
  · rw [List.getElem?_set_ne hq]
    by_cases hk : k' = k
    · subst hk
      rw [Function.update_self]
      constructor
      · rintro ⟨hc, hf, hkc⟩
        exact absurd (h q q' a c ha hc hfa hf (hka.trans hkc.symm)) hq
      · intro hc
        cases hc
    · rw [Function.update_of_ne hk, find_eq_some h]

end Xv6.SlotTable
