import Xv6.Param

namespace Xv6.Fs

def strncmp : List UInt8 → List UInt8 → ℕ → ℤ
  | _, _, 0 => 0
  | p, q, n + 1 =>
    if p.headD 0 ≠ 0 ∧ p.headD 0 = q.headD 0 then strncmp p.tail q.tail n
    else (p.headD 0).toNat - (q.headD 0).toNat

def strncpy : List UInt8 → ℕ → List UInt8
  | _, 0 => []
  | t, n + 1 => if t.headD 0 = 0 then List.replicate (n + 1) 0 else t.headD 0 :: strncpy t.tail n

def namecmp (s t : List UInt8) : ℤ := strncmp s t DIRSIZ

structure Dirent where
  inum : ℕ
  name : List UInt8
  deriving DecidableEq, Repr

def sizeofDirent : ℕ := 2 + DIRSIZ

namespace Dirent

def bytes (de : Dirent) : List UInt8 :=
  UInt8.ofNat de.inum :: UInt8.ofNat (de.inum / 256) :: de.name

def ofBytes (bs : List UInt8) : Dirent where
  inum := (bs.getD 0 0).toNat + 256 * (bs.getD 1 0).toNat
  name := bs.drop 2

def empty : Dirent := ⟨0, List.replicate DIRSIZ 0⟩

end Dirent

def chars (n : ℕ) (s : List UInt8) : List UInt8 := (s.take n).takeWhile (· ≠ 0)

theorem chars_succ (n : ℕ) (s : List UInt8) :
    chars (n + 1) s = if s.headD 0 = 0 then [] else s.headD 0 :: chars n s.tail := by
  cases s with
  | nil => simp [chars]
  | cons a s => by_cases ha : a = 0 <;> simp [chars, ha]

theorem strncmp_eq_zero (p q : List UInt8) (n : ℕ) : strncmp p q n = 0 ↔ chars n p = chars n q := by
  induction n generalizing p q with
  | zero => simp [strncmp, chars]
  | succ n ih =>
    simp only [strncmp, chars_succ]
    generalize p.headD 0 = a
    generalize q.headD 0 = b
    by_cases he : a = b
    · subst he
      by_cases h0 : a = 0 <;> simp [h0, ih]
    · have hne : (a.toNat : ℤ) - b.toNat ≠ 0 := by
        intro h
        exact he (UInt8.toNat_inj.mp (by omega))
      rw [if_neg (fun h => he h.2)]
      simp only [hne, false_iff]
      split_ifs with ha hb hb
      · exact absurd (ha.trans hb.symm) he
      · simp
      · simp
      · simp [he]

theorem length_strncpy (t : List UInt8) (n : ℕ) : (strncpy t n).length = n := by
  induction n generalizing t with
  | zero => rfl
  | succ n ih =>
    simp only [strncpy]
    split_ifs <;> simp [ih]

theorem chars_strncpy (t : List UInt8) (n : ℕ) : chars n (strncpy t n) = chars n t := by
  induction n generalizing t with
  | zero => simp [chars]
  | succ n ih =>
    rw [chars_succ n (strncpy t (n + 1)), chars_succ n t, strncpy]
    by_cases h0 : t.headD 0 = 0
    · rw [if_pos h0, if_pos h0]
      rfl
    · rw [if_neg h0, if_neg h0, List.headD_cons, List.tail_cons, if_neg h0, ih]

theorem Dirent.length_bytes {de : Dirent} (h : de.name.length = DIRSIZ) : de.bytes.length = sizeofDirent := by
  simp only [bytes, List.length_cons, h, sizeofDirent]
  omega

theorem Dirent.ofBytes_bytes {de : Dirent} (h : de.inum < 65536) : ofBytes de.bytes = de := by
  obtain ⟨inum, name⟩ := de
  simp only [ofBytes, bytes, List.getD_cons_zero, List.getD_cons_succ, UInt8.toNat_ofNat', List.drop_succ_cons,
    List.drop_zero, Dirent.mk.injEq, and_true]
  simp only at h
  omega

end Xv6.Fs
