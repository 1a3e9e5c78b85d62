import Xv6.Param

/-!
The numbers that `printf` prints, and `atoi`.
-/

namespace Xv6.Printf

abbrev Base := {b : ℕ // 1 < b}

def ten : Base := ⟨10, by decide⟩
def sixteen : Base := ⟨16, by decide⟩

/-- `digits[d]` -/
def digit (d : ℕ) : UInt8 := UInt8.ofNat (if d < 10 then 48 + d else 55 + d)

/-- The loop of `printint`; the last character is the first in the list. -/
def digitLoop (base : Base) (x : ℕ) (buf : List UInt8) : List UInt8 :=
  if x / base = 0 then digit (x % base) :: buf else digitLoop base (x / base) (digit (x % base) :: buf)
termination_by x
decreasing_by
  have hpos : x ≠ 0 := by
    rintro rfl
    simp at *
  exact Nat.div_lt_self (by omega) base.2

/-- What is written: `buf` from its last character to its first. -/
def printint (xx : UInt32) (base : Base) (sgn : Bool) : List UInt8 :=
  if sgn = true ∧ 2 ^ 31 ≤ xx.toNat then 45 :: digitLoop base (-xx).toNat [] else digitLoop base xx.toNat []

def atoiLoop (n : UInt32) : List UInt8 → UInt32
  | [] => n
  | c :: s => if 48 ≤ c ∧ c ≤ 57 then atoiLoop (n * 10 + (c.toUInt32 - 48)) s else n

def atoi (s : List UInt8) : UInt32 := atoiLoop 0 s

variable {base : Base} {x d : ℕ}

theorem digitLoop_eq (base : Base) (x : ℕ) (buf : List UInt8) :
    digitLoop base x buf = (if x = 0 then [digit 0] else (Nat.digits base x).reverse.map digit) ++ buf := by
  fun_induction digitLoop base x buf with
  | case1 x buf h =>
    have hlt : x < base := (Nat.div_eq_zero_iff.mp h).resolve_left (by have := base.2; omega)
    by_cases h0 : x = 0
    · simp [h0]
    · rw [if_neg h0, Nat.digits_of_lt base.1 x h0 hlt, Nat.mod_eq_of_lt hlt]
      rfl
  | case2 x buf h ih =>
    have h0 : x ≠ 0 := by
      rintro rfl
      simp at h
    rw [ih, if_neg h, if_neg h0, Nat.digits_def' base.2 (Nat.pos_of_ne_zero h0), List.reverse_cons, List.map_append,
      List.append_assoc]
    rfl

theorem atoiLoop_digit (hd : d < 10) (n : ℕ) (s : List UInt8) :
    atoiLoop (UInt32.ofNat n) (digit d :: s) = atoiLoop (UInt32.ofNat (10 * n + d)) s := by
  have hstep : UInt32.ofNat n * 10 + UInt32.ofNat d = UInt32.ofNat (10 * n + d) := by
    rw [UInt32.ofNat_add, Nat.mul_comm, UInt32.ofNat_mul]
    rfl
  rw [← hstep]
  interval_cases d <;> rfl

theorem atoiLoop_digits (ds : List ℕ) (h : ∀ d ∈ ds, d < 10) (n : ℕ) :
    atoiLoop (UInt32.ofNat n) (ds.map digit) = UInt32.ofNat (ds.foldl (fun n d => 10 * n + d) n) := by
  induction ds generalizing n with
  | nil => rfl
  | cons d ds ih =>
    rw [List.map_cons, atoiLoop_digit (h d List.mem_cons_self), ih fun d hd => h d (List.mem_cons_of_mem _ hd)]
    rfl

theorem atoi_digitLoop (x : ℕ) : atoi (digitLoop ten x []) = UInt32.ofNat x := by
  have hten : (ten : ℕ) = 10 := rfl
  rw [digitLoop_eq, List.append_nil, hten]
  by_cases h0 : x = 0
  · rw [if_pos h0, h0]
    rfl
  · have hlt : ∀ d ∈ (Nat.digits 10 x).reverse, d < 10 := fun d hd => Nat.digits_lt_base (by decide)
        (List.mem_reverse.mp hd)
    have hfold : (Nat.digits 10 x).foldr (fun d n => 10 * n + d) 0 = x := by
      simp only [Nat.add_comm (10 * _)]
      exact (Nat.ofDigits_eq_foldr 10 _).symm.trans (Nat.ofDigits_digits 10 x)
    have hloop := atoiLoop_digits _ hlt 0
    rw [List.foldl_reverse, hfold] at hloop
    rw [if_neg h0]
    exact hloop

/-- `buf` holds what `printint` puts there, and `atoi` reads the number back. -/
theorem printint_atoi (xx : UInt32) (sgn : Bool) :
    (printint xx ten sgn).length ≤ 11 ∧ (printint xx sixteen sgn).length ≤ 9 ∧
    (sgn = false ∨ xx.toNat < 2 ^ 31 → atoi (printint xx ten sgn) = xx) ∧
    (sgn = true → 2 ^ 31 ≤ xx.toNat → ∃ s, printint xx ten sgn = 45 :: s ∧ atoi s = -xx) := by
  have hlen {base : Base} {k : ℕ} (hk : 0 < k) (hb : 2 ^ 32 ≤ (base : ℕ) ^ k) (y : UInt32) :
      (digitLoop base y.toNat []).length ≤ k := by
    rw [digitLoop_eq, List.append_nil]
    split_ifs with h0
    · exact hk
    · rw [List.length_map, List.length_reverse, Nat.digits_length_le_iff base.2]
      exact y.toNat_lt.trans_le hb
  have hsize {base : Base} {k : ℕ} (hk : 0 < k) (hb : 2 ^ 32 ≤ (base : ℕ) ^ k) : (printint xx base sgn).length ≤
      k + 1 := by
    rw [printint]
    split_ifs
    · exact Nat.succ_le_succ (hlen hk hb (-xx))
    · exact (hlen hk hb xx).trans (Nat.le_succ k)
  refine ⟨hsize (k := 10) (by decide) (by decide), hsize (k := 8) (by decide) (by decide), fun h => ?_, fun hs hx => ?_⟩
  · have hpos : ¬(sgn = true ∧ 2 ^ 31 ≤ xx.toNat) := by
      rintro ⟨hs, hx⟩
      rcases h with h | h
      · exact absurd (hs.symm.trans h) (by decide)
      · omega
    rw [printint, if_neg hpos, atoi_digitLoop, UInt32.ofNat_toNat]
  · exact ⟨_, by rw [printint, if_pos ⟨hs, hx⟩], by rw [atoi_digitLoop, UInt32.ofNat_toNat]⟩

end Xv6.Printf
