import Xv6.ByteMemory

/-!
The functions `memmove` of `string.c` and of `ulib.c`, on memory with addresses of 32 bits.
-/

namespace Xv6.Memmove

open ByteMemory
open Function (update update_self update_of_ne)

def copyUp : ℕ → ℕ → ℕ → Bytes → Bytes
  | 0, _, _, m => m
  | n + 1, d, s, m => copyUp n ((d + 1) % 2 ^ 32) ((s + 1) % 2 ^ 32) (update m d (m s))

def copyDown : ℕ → ℕ → ℕ → Bytes → Bytes
  | 0, _, _, m => m
  | n + 1, d, s, m =>
    let d := (d + 2 ^ 32 - 1) % 2 ^ 32
    let s := (s + 2 ^ 32 - 1) % 2 ^ 32
    copyDown n d s (update m d (m s))

def memmove (m : Bytes) (dst src : ℕ) (n : UInt32) : ℕ × Bytes :=
  let s := src
  let d := dst
  if s < d ∧ d < (s + n.toNat) % 2 ^ 32 then
    (dst, copyDown n.toNat ((d + n.toNat) % 2 ^ 32) ((s + n.toNat) % 2 ^ 32) m)
  else (dst, copyUp n.toNat d s m)

def ulibMemmove (m : Bytes) (dst src : ℕ) (n : Int32) : ℕ × Bytes := (dst, copyUp n.toInt.toNat dst src m)

def moved (m : Bytes) (dst src n : ℕ) : Bytes := fun a => if dst ≤ a ∧ a < dst + n then m (src + (a - dst)) else m a

variable {m : Bytes} {d s n : ℕ}

theorem moved_zero (m : Bytes) (d s : ℕ) : moved m d s 0 = m := by
  funext a
  rw [moved, if_neg (by omega)]

theorem moved_succ (h : d ≤ s ∨ s + n < d) : moved (update m d (m s)) (d + 1) (s + 1) n = moved m d s (n + 1) := by
  funext a
  simp only [moved]
  by_cases ha : d < a ∧ a < d + (n + 1)
  · rw [if_pos (by omega), if_pos (by omega), update_of_ne (by omega), show s + 1 + (a - (d + 1)) =
        s + (a - d) by omega]
  · rw [if_neg (by omega)]
    by_cases had : a = d
    · rw [had, update_self, if_pos (by omega), Nat.sub_self, Nat.add_zero]
    · rw [update_of_ne had, if_neg (by omega)]

theorem moved_last (h : s ≤ d) : moved (update m (d + n) (m (s + n))) d s n = moved m d s (n + 1) := by
  funext a
  simp only [moved]
  by_cases ha : d ≤ a ∧ a < d + n
  · rw [if_pos ha, if_pos (by omega), update_of_ne (by omega)]
  · rw [if_neg ha]
    by_cases had : a = d + n
    · rw [had, update_self, if_pos (by omega), Nat.add_sub_cancel_left]
    · rw [update_of_ne had, if_neg (by omega)]

theorem copyUp_eq_moved (hd : d + n ≤ 2 ^ 32) (hs : s + n ≤ 2 ^ 32) (h : d ≤ s ∨ s + n ≤ d) :
    copyUp n d s m = moved m d s n := by
  induction n generalizing d s m with
  | zero => exact (moved_zero m d s).symm
  | succ n ih =>
    rw [← moved_succ (by omega), copyUp]
    cases n with
    | zero => rw [copyUp, moved_zero]
    | succ n => rw [Nat.mod_eq_of_lt (by omega), Nat.mod_eq_of_lt (by omega), ih (by omega) (by omega) (by omega)]

theorem copyDown_eq_moved (hd : d + n ≤ 2 ^ 32) (h : s ≤ d) {d' s' : ℕ} (hd' : d' = (d + n) % 2 ^ 32)
    (hs' : s' = (s + n) % 2 ^ 32) : copyDown n d' s' m = moved m d s n := by
  induction n generalizing d' s' m with
  | zero => exact (moved_zero m d s).symm
  | succ n ih =>
    have hdn : (d' + 2 ^ 32 - 1) % 2 ^ 32 = d + n := by omega
    have hsn : (s' + 2 ^ 32 - 1) % 2 ^ 32 = s + n := by omega
    simp only [copyDown, hdn, hsn]
    rw [ih (by omega) (by omega) (by omega), moved_last h]

theorem memmove_eq_moved {src dst : ℕ} {n : UInt32} (hs : src + n.toNat ≤ 2 ^ 32) (hd : dst + n.toNat ≤ 2 ^ 32) :
    memmove m dst src n = (dst, moved m dst src n.toNat) := by
  simp only [memmove]
  split_ifs with h
  · rw [copyDown_eq_moved hd h.1.le rfl rfl]
  · rw [copyUp_eq_moved hd hs]
    -- the sum wraps to 0 only when the source ends at the top, and then nothing lies above it
    by_cases htop : src + n.toNat = 2 ^ 32
    · omega
    · rw [Nat.mod_eq_of_lt (by omega)] at h
      omega

theorem copyUp_repeats (hd : d + n ≤ 2 ^ 32) (h : s < d) (a : ℕ) :
    copyUp n d s m a = if d ≤ a ∧ a < d + n then m (s + (a - d) % (d - s)) else m a := by
  induction n generalizing d s m with
  | zero => rw [copyUp, if_neg (by omega)]
  | succ n ih =>
    rw [copyUp]
    cases n with
    | zero =>
      rw [copyUp]
      by_cases had : a = d
      · rw [had, update_self, if_pos (by omega), Nat.sub_self, Nat.zero_mod, Nat.add_zero]
      · rw [update_of_ne had, if_neg (by omega)]
    | succ n =>
      rw [Nat.mod_eq_of_lt (by omega), Nat.mod_eq_of_lt (by omega), ih (by omega) (by omega), Nat.add_sub_add_right]
      by_cases ha : d < a ∧ a < d + (n + 1 + 1)
      · rw [if_pos (by omega), if_pos (by omega)]
        obtain ⟨j, rfl⟩ : ∃ j, a = d + 1 + j := ⟨a - (d + 1), by omega⟩
        rw [Nat.add_sub_cancel_left, show d + 1 + j - d = j + 1 by omega]
        -- the byte read last is the one written first exactly when a round of the repetition is complete
        have hlt := Nat.mod_lt j (by omega : 0 < d - s)
        have hsucc : (j + 1) % (d - s) = if j % (d - s) + 1 = d - s then 0 else j % (d - s) + 1 := by
          rw [← Nat.mod_add_mod]
          split_ifs with hj
          · rw [hj, Nat.mod_self]
          · exact Nat.mod_eq_of_lt (by omega)
        rw [hsucc]
        split_ifs with hj
        · rw [show s + 1 + j % (d - s) = d by omega, update_self, Nat.add_zero]
        · rw [update_of_ne (by omega), Nat.add_assoc, Nat.add_comm 1]
      · rw [if_neg (by omega)]
        by_cases had : a = d
        · rw [had, update_self, if_pos (by omega), Nat.sub_self, Nat.zero_mod, Nat.add_zero]
        · rw [update_of_ne had, if_neg (by omega)]

def Repeats (m : Bytes) (dst src n : ℕ) : Prop := ∀ i, dst + i < src + n → m (dst + i) = m (src + i)

theorem Repeats.mod (h : Repeats m d s n) (hlt : s < d) {i : ℕ} (hi : i < n) : m (s + i % (d - s)) = m (s + i) := by
  induction i using Nat.strong_induction_on with
  | _ i ih =>
    by_cases hd : i < d - s
    · rw [Nat.mod_eq_of_lt hd]
    · rw [Nat.mod_eq_sub_mod (by omega), ih _ (by omega) (by omega), ← h _ (by omega), show d + (i - (d - s)) =
          s + i by omega]

theorem copyUp_eq_moved_iff (hd : d + n ≤ 2 ^ 32) (hs : s + n ≤ 2 ^ 32) :
    copyUp n d s m = moved m d s n ↔ (s < d → Repeats m d s n) := by
  by_cases hlt : s < d
  · constructor
    · intro h _ i hi
      have ha := congrFun h (d + (d - s + i))
      rw [copyUp_repeats hd hlt, moved, if_pos (by omega), if_pos (by omega), Nat.add_sub_cancel_left,
        Nat.add_mod_left, show s + (d - s + i) = d + i by omega] at ha
      have hb := congrFun h (d + i)
      rw [copyUp_repeats hd hlt, moved, if_pos (by omega), if_pos (by omega), Nat.add_sub_cancel_left] at hb
      rw [← ha, hb]
    · intro h
      funext a
      rw [copyUp_repeats hd hlt, moved]
      split_ifs with ha
      · exact (h hlt).mod hlt (by omega)
      · rfl
  · exact iff_of_true (copyUp_eq_moved hd hs (by omega)) fun h => absurd h hlt

theorem moved_eq_self : m = moved m d s n ↔ ∀ i, i < n → m (d + i) = m (s + i) := by
  constructor
  · intro h i hi
    have ha := congrFun h (d + i)
    rwa [moved, if_pos (by omega), Nat.add_sub_cancel_left] at ha
  · intro h
    funext a
    rw [moved]
    split_ifs with ha
    · rw [← h _ (by omega), Nat.add_sub_cancel' ha.1]
    · rfl

theorem toNat_toInt32 (n : UInt32) : n.toInt32.toInt.toNat = if n.toNat < 2 ^ 31 then n.toNat else 0 := by
  have h : n.toInt32.toInt = if 2 * n.toNat < 2 ^ 32 then (n.toNat : ℤ) else (n.toNat : ℤ) - (2 ^ 32 : ℕ) :=
    BitVec.toInt_eq_toNat_cond n.toBitVec
  have hlt := n.toNat_lt
  rw [h]
  split_ifs <;> omega

def UlibCopies (m : Bytes) (dst src n : ℕ) : Prop :=
  if n < 2 ^ 31 then src < dst → Repeats m dst src n else ∀ i, i < n → m (dst + i) = m (src + i)

/-- The kernel's `memmove` copies as if through a temporary. That of the user library does exactly if no byte of the
destination that lies in the source changes by the copy, and then the two agree. -/
theorem memmove_iff {src dst : ℕ} {n : UInt32} (hs : src + n.toNat ≤ 2 ^ 32) (hd : dst + n.toNat ≤ 2 ^ 32) :
    memmove m dst src n = (dst, moved m dst src n.toNat) ∧
      (ulibMemmove m dst src n.toInt32 = (dst, moved m dst src n.toNat) ↔ UlibCopies m dst src n.toNat) ∧
      (ulibMemmove m dst src n.toInt32 = memmove m dst src n ↔ UlibCopies m dst src n.toNat) := by
  have hk := memmove_eq_moved (m := m) hs hd
  have hu : ulibMemmove m dst src n.toInt32 = (dst, moved m dst src n.toNat) ↔ UlibCopies m dst src n.toNat := by
    rw [ulibMemmove, toNat_toInt32, Prod.mk.injEq, and_iff_right rfl, UlibCopies]
    split_ifs with hn
    · exact copyUp_eq_moved_iff hd hs
    · exact moved_eq_self
  refine ⟨hk, hu, ?_⟩
  rw [hk]
  exact hu

/-- Three bytes moved one down. -/
theorem memmove_iff_down : ∃ m : Bytes, m 0 ≠ m 1 ∧ (ulibMemmove m 0 1 3).2 0 = m 1 ∧
    ulibMemmove m 0 1 3 = memmove m 0 1 3 := by
  have h := @memmove_iff UInt8.ofNat 1 0 3 (by decide) (by decide)
  have hc : UlibCopies UInt8.ofNat 0 1 (3 : UInt32).toNat := by
    rw [UlibCopies, if_pos (by decide)]
    exact fun hlt => absurd hlt (by decide)
  have he := h.2.1.mpr hc
  exact ⟨UInt8.ofNat, by decide, congrFun (congrArg Prod.snd he) 0, h.2.2.mpr hc⟩

/-- Two bytes moved one up: the library copies the first of them twice. -/
theorem ulib_memmove_overlap : ¬∀ (m : Bytes) (src dst : ℕ) (n : UInt32), src + n.toNat ≤ 2 ^ 32 →
    dst + n.toNat ≤ 2 ^ 32 →
    ulibMemmove m dst src n.toInt32 = (dst, moved m dst src n.toNat) := by
  intro h
  have h2 := congrFun (congrArg Prod.snd (h UInt8.ofNat 0 1 2 (by decide) (by decide))) 2
  exact absurd h2 (by decide)

end Xv6.Memmove
