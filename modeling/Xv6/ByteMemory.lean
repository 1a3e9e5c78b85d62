import Mathlib

namespace Xv6.ByteMemory

abbrev Bytes := ℕ → UInt8

def zero : Bytes := fun _ => 0

def fill (c : UInt8) : Bytes := fun _ => c

def word (b : Bytes) (i : ℕ) : ℕ :=
  (b (4 * i)).toNat + 256 * (b (4 * i + 1)).toNat + 65536 * (b (4 * i + 2)).toNat +
    16777216 * (b (4 * i + 3)).toNat

def setWord (b : Bytes) (i v : ℕ) : Bytes :=
  fun k => if k / 4 = i then UInt8.ofNat (v / 256 ^ (k % 4)) else b k

theorem word_lt (b : Bytes) (i : ℕ) : word b i < 2 ^ 32 := by
  have h0 := (b (4 * i)).toNat_lt
  have h1 := (b (4 * i + 1)).toNat_lt
  have h2 := (b (4 * i + 2)).toNat_lt
  have h3 := (b (4 * i + 3)).toNat_lt
  simp only [word]
  omega

theorem word_congr {b c : Bytes} {i : ℕ} (h : ∀ k, k / 4 = i → b k = c k) : word b i = word c i := by
  simp only [word]
  rw [h (4 * i) (by omega), h (4 * i + 1) (by omega), h (4 * i + 2) (by omega), h (4 * i + 3) (by omega)]

theorem word_setWord_same (b : Bytes) (i : ℕ) {v : ℕ} (hv : v < 2 ^ 32) : word (setWord b i v) i = v := by
  have e0 : 4 * i / 4 = i := by omega
  have e1 : (4 * i + 1) / 4 = i := by omega
  have e2 : (4 * i + 2) / 4 = i := by omega
  have e3 : (4 * i + 3) / 4 = i := by omega
  have m0 : 4 * i % 4 = 0 := by omega
  have m1 : (4 * i + 1) % 4 = 1 := by omega
  have m2 : (4 * i + 2) % 4 = 2 := by omega
  have m3 : (4 * i + 3) % 4 = 3 := by omega
  simp only [word, setWord, e0, e1, e2, e3, m0, m1, m2, m3, ↓reduceIte, UInt8.toNat_ofNat']
  norm_num
  omega

theorem word_setWord_ne (b : Bytes) {i j : ℕ} (v : ℕ) (h : j ≠ i) : word (setWord b i v) j = word b j := by
  apply word_congr
  intro k hk
  simp only [setWord]
  rw [if_neg (by omega)]

theorem setWord_word (b : Bytes) (i : ℕ) : setWord b i (word b i) = b := by
  funext k
  simp only [setWord]
  split_ifs with hk
  · have h0 := (b (4 * i)).toNat_lt
    have h1 := (b (4 * i + 1)).toNat_lt
    have h2 := (b (4 * i + 2)).toNat_lt
    have h3 := (b (4 * i + 3)).toNat_lt
    apply UInt8.toNat_inj.mp
    rw [UInt8.toNat_ofNat']
    obtain hr | hr | hr | hr : k = 4 * i ∨ k = 4 * i + 1 ∨ k = 4 * i + 2 ∨ k = 4 * i + 3 := by omega
    all_goals
      subst hr
      simp only [word, Nat.mul_add_mod, Nat.mul_mod_right]
      norm_num
      omega
  · rfl

theorem word_zero (i : ℕ) : word zero i = 0 := by
  simp [word, zero]

def store (b : Bytes) (off : ℕ) (bs : List UInt8) : Bytes := fun k => if off ≤ k then bs.getD (k - off) (b k) else b k

theorem store_apply_mem {b : Bytes} {off k : ℕ} {bs : List UInt8} (h : k < bs.length) :
    store b off bs (off + k) = bs.getD k 0 := by
  simp [store, h]

theorem store_apply_not_mem {b : Bytes} {off k : ℕ} {bs : List UInt8} (h : ¬ (off ≤ k ∧ k < off + bs.length)) :
    store b off bs k = b k := by
  simp only [store]
  split_ifs with hk
  · rw [List.getD_eq_default _ _ (by omega)]
  · rfl

end Xv6.ByteMemory
