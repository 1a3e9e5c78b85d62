import Xv6.LetterLanguage
import Xv6.Grep

/-!
The language of a pattern, and that `match` decides it.
-/

namespace Xv6.Grep

open Computability LetterLanguage

inductive Piece
  | one (c : UInt8)
  | star (c : UInt8)

def letter (c : UInt8) : Language UInt8 := letters fun t => c = '.'.toUInt8 ∨ c = t

def Piece.lang : Piece → Language UInt8
  | one c => letter c
  | star c => (letter c)∗

def pieces : Str → List Piece
  | [] => []
  | [c] => if c = '$'.toUInt8 then [] else [.one c]
  | c :: d :: re => if d = '*'.toUInt8 then .star c :: pieces re else .one c :: pieces (d :: re)

def closed : Str → Bool
  | [] => false
  | [c] => c = '$'.toUInt8
  | _ :: d :: re => if d = '*'.toUInt8 then closed re else closed (d :: re)

def anchored (re : Str) : Bool := re.head? = some '^'.toUInt8

def body (re : Str) : Str := if anchored re then re.tail else re

def lang (re : Str) : Language UInt8 := ((pieces re).map Piece.lang).prod

def rest (re : Str) : Language UInt8 := if closed re then 1 else ⊤

theorem matchstar_iff {here : Str → Bool} {L : Language UInt8} (h : ∀ w, here w = true ↔ w ∈ L) (c : UInt8)
    (text : Str) :
    matchstar here c text = true ↔ text ∈ (letter c)∗ * L := by
  induction text with
  | nil => rw [matchstar, h, letter, nil_mem_star_mul]
  | cons t text ih =>
    have e : (t = c ∨ c = '.'.toUInt8) ↔ (c = '.'.toUInt8 ∨ c = t) := by rw [or_comm, eq_comm (a := t)]
    simp only [matchstar, Bool.or_eq_true, Bool.and_eq_true, decide_eq_true_eq, e]
    rw [letter, cons_mem_star_mul, ← letter, ← ih, ← h]

theorem mem_rest {re w : Str} : w ∈ rest re ↔ (closed re = true → w = []) := by
  rw [rest]
  split
  case isTrue h => simp [h, Language.mem_one]
  case isFalse h => exact iff_of_true (Set.mem_univ w) fun hc => absurd hc h

theorem lang_one (c : UInt8) {re : Str} (h : re.head? ≠ some '*'.toUInt8) (hc : c = '$'.toUInt8 → re ≠ []) :
    lang (c :: re) * rest (c :: re) = letter c * (lang re * rest re) := by
  cases re with
  | nil =>
    have hc : c ≠ '$'.toUInt8 := fun e => hc e rfl
    simp [lang, rest, pieces, closed, hc, Piece.lang]
  | cons d re =>
    have hd : d ≠ '*'.toUInt8 := fun e => h (by rw [e]; rfl)
    simp [lang, rest, pieces, closed, hd, Piece.lang, mul_assoc]

theorem lang_star (c : UInt8) (re : Str) :
    lang (c :: '*'.toUInt8 :: re) * rest (c :: '*'.toUInt8 :: re) = (letter c)∗ * (lang re * rest re) := by
  simp [lang, rest, pieces, closed, Piece.lang, mul_assoc]

theorem matchhere_iff (re text : Str) : matchhere re text = true ↔ text ∈ lang re * rest re := by
  fun_induction pieces re generalizing text with
  | case1 => simp [matchhere, lang, rest, pieces, closed, show text ∈ (⊤ : Language UInt8) from Set.mem_univ text]
  | case2 => simp [matchhere, lang, rest, pieces, closed, Language.mem_one]
  | case3 c hc =>
    rw [lang_one c (by simp) (fun e => absurd e hc), letter]
    cases text with
    | nil => simp [matchhere, hc]
    | cons t text => simp [matchhere, hc, lang, rest, pieces, closed, show text ∈ (⊤ : Language UInt8) from trivial]
  | case4 c re ih =>
    rw [lang_star, ← matchstar_iff ih c text]
    cases text <;> rfl
  | case5 c d re hd ih =>
    rw [lang_one c (by simpa using hd) (by simp), letter]
    cases text with
    | nil => simp [matchhere, hd]
    | cons t text => simp [matchhere, hd, ← ih]

theorem matchhere_iff_exists (re text : Str) :
    matchhere re text = true ↔
      ∃ w after, text = w ++ after ∧ w ∈ lang re ∧ (closed re = true → after = []) := by
  rw [matchhere_iff, Language.mem_mul]
  constructor
  · rintro ⟨w, hw, after, hr, e⟩
    exact ⟨w, after, e.symm, hw, mem_rest.mp hr⟩
  · rintro ⟨w, after, e, hw, hr⟩
    exact ⟨w, hw, after, mem_rest.mpr hr, e.symm⟩

theorem matchFrom_iff (re text : Str) :
    matchFrom re text = true ↔ ∃ before tail, text = before ++ tail ∧ matchhere re tail = true := by
  induction text with
  | nil =>
    simp only [matchFrom]
    constructor
    · intro h
      exact ⟨[], [], rfl, h⟩
    · rintro ⟨before, tail, e, h⟩
      rw [(List.append_eq_nil_iff.mp e.symm).2] at h
      exact h
  | cons t text ih =>
    simp only [matchFrom, Bool.or_eq_true, ih]
    constructor
    · rintro (h | ⟨before, tail, rfl, h⟩)
      · exact ⟨[], t :: text, rfl, h⟩
      · exact ⟨t :: before, tail, rfl, h⟩
    · rintro ⟨before, tail, e, h⟩
      cases before with
      | nil => exact .inl (by rwa [show t :: text = tail from e])
      | cons b before =>
        cases e
        exact .inr ⟨before, tail, rfl, h⟩

/-- `match` decides whether a part of the text is a word of the pattern: the text's beginning under `^`, and its end
under a last `$`. -/
theorem matchRe_iff (re text : Str) :
    matchRe re text = true ↔
      ∃ before w after, text = before ++ w ++ after ∧ w ∈ lang (body re) ∧ (anchored re = true → before = []) ∧
        (closed (body re) = true → after = []) := by
  by_cases ha : re.head? = some '^'.toUInt8
  · have hb : body re = re.tail := by simp [body, anchored, ha]
    simp only [matchRe, ha, if_true, matchhere_iff_exists, hb, anchored, decide_true, true_imp_iff]
    constructor
    · rintro ⟨w, after, e, hw, hc⟩
      exact ⟨[], w, after, e, hw, rfl, hc⟩
    · rintro ⟨before, w, after, e, hw, rfl, hc⟩
      exact ⟨w, after, e, hw, hc⟩
  · have hb : body re = re := by simp [body, anchored, ha]
    simp only [matchRe, ha, if_false, matchFrom_iff, matchhere_iff_exists, hb, anchored, decide_false,
      Bool.false_eq_true, false_imp_iff, true_and]
    constructor
    · rintro ⟨before, tail, rfl, w, after, rfl, hw, hc⟩
      exact ⟨before, w, after, (List.append_assoc ..).symm, hw, hc⟩
    · rintro ⟨before, w, after, rfl, hw, hc⟩
      exact ⟨before, w ++ after, List.append_assoc .., w, after, rfl, hw, hc⟩

end Xv6.Grep
