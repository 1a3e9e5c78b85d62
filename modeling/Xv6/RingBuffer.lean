import Mathlib

/-!
A ring buffer of `n` cells whose read and write counters run modulo `m`, a
multiple of `n`, seen as the list of the elements between the two counters.
-/

namespace Xv6.RingBuffer

variable {α : Type} {n m r w k : ℕ} {data : ℕ → α} {a : α} {l : List α}

def window (n : ℕ) (data : ℕ → α) (r k : ℕ) : List α := (List.range k).map fun j => data ((r + j) % n)

theorem window_succ : window n data r (k + 1) = data (r % n) :: window n data (r + 1) k := by
  simp only [window, List.range_succ_eq_map, List.map_cons, List.map_map, Nat.add_zero, List.cons.injEq, true_and]
  apply List.map_congr_left
  intro j _
  simp only [Function.comp_apply, Nat.succ_eq_add_one]
  congr 2
  omega

theorem window_mod (h : n ∣ m) : window n data (r % m) k = window n data r k := by
  apply List.map_congr_left
  intro j _
  rw [Nat.add_mod, Nat.mod_mod_of_dvd r h, ← Nat.add_mod]

theorem mod_ne_of_lt {i : ℕ} (hi : i < k) (hk : k < n) : (r + i) % n ≠ (r + k) % n := by
  intro h
  have hd := (Nat.modEq_iff_dvd' (by omega : r + i ≤ r + k)).mp h
  have := Nat.le_of_dvd (by omega) hd
  omega

theorem window_push (h : k < n) :
    window n (Function.update data ((r + k) % n) a) r (k + 1) = window n data r k ++ [a] := by
  simp only [window, List.range_succ, List.map_append, List.map_cons, List.map_nil, Function.update_self]
  congr 1
  apply List.map_congr_left
  intro j hj
  exact Function.update_of_ne (mod_ne_of_lt (List.mem_range.mp hj) h) _ _

structure Holds (n m : ℕ) (data : ℕ → α) (r w : ℕ) (l : List α) : Prop where
  room : l.length ≤ n
  read : r < m
  count : w = (r + l.length) % m
  cells : l = window n data r l.length

theorem Holds.nil (h : r < m) : Holds n m data r r [] :=
  ⟨Nat.zero_le n, h, (Nat.mod_eq_of_lt h).symm, rfl⟩

theorem Holds.push (hn : n ∣ m) (h : Holds n m data r w l) (hl : l.length < n) :
    Holds n m (Function.update data (w % n) a) r ((w + 1) % m) (l ++ [a]) := by
  have hcell : w % n = (r + l.length) % n := by rw [h.count, Nat.mod_mod_of_dvd _ hn]
  refine ⟨?_, h.read, ?_, ?_⟩
  · simp only [List.length_append, List.length_cons, List.length_nil]
    omega
  · rw [h.count, Nat.mod_add_mod, List.length_append, ← Nat.add_assoc, List.length_singleton]
  · rw [List.length_append, List.length_singleton, hcell, window_push hl, ← h.cells]

theorem Holds.pop (hn : n ∣ m) (h : Holds n m data r w (a :: l)) :
    data (r % n) = a ∧ Holds n m data ((r + 1) % m) w l := by
  have hcells := h.cells
  rw [List.length_cons, window_succ, List.cons.injEq] at hcells
  have hroom := h.room
  have hcount := h.count
  rw [List.length_cons] at hroom hcount
  refine ⟨hcells.1.symm, by omega, Nat.mod_lt _ (by have := h.read; omega), ?_, ?_⟩
  · rw [hcount, Nat.mod_add_mod]
    congr 1
    omega
  · rw [window_mod hn]
    exact hcells.2

theorem Holds.dropLast (hn : n ∣ m) (h : Holds n m data r w (l ++ [a])) :
    data ((w + m - 1) % m % n) = a ∧ Holds n m data r ((w + m - 1) % m) l := by
  have hroom := h.room
  have hread := h.read
  have hcells := h.cells
  have hm : 0 < m := by omega
  rw [List.length_append, List.length_singleton] at hroom
  have hcount : (w + m - 1) % m = (r + l.length) % m := by
    rw [h.count, List.length_append, List.length_singleton, ← Nat.add_assoc,
      Nat.add_sub_assoc (show 1 ≤ m by omega), Nat.mod_add_mod, show r + l.length + 1 + (m - 1) =
          r + l.length + m by omega,
      Nat.add_mod_right]
  rw [List.length_append, List.length_singleton, window, List.range_succ, List.map_append, List.map_singleton] at hcells
  obtain ⟨hl, ha⟩ := List.append_inj' hcells rfl
  refine ⟨?_, by omega, hread, hcount, hl⟩
  rw [hcount, Nat.mod_mod_of_dvd _ hn]
  exact (List.singleton_inj.mp ha).symm

theorem Holds.length_eq (hm : n < m) (h : Holds n m data r w l) : l.length = (w + m - r) % m := by
  have hroom := h.room
  have hread := h.read
  have hcount := h.count
  rcases Nat.lt_or_ge (r + l.length) m with hlt | hge
  · rw [Nat.mod_eq_of_lt hlt] at hcount
    rw [hcount, show r + l.length + m - r = l.length + m by omega, Nat.add_mod_right, Nat.mod_eq_of_lt (by omega)]
  · rw [Nat.mod_eq_sub_mod hge, Nat.mod_eq_of_lt (by omega)] at hcount
    rw [show w + m - r = l.length by omega, Nat.mod_eq_of_lt (by omega)]

theorem Holds.front {l' : List α} (h : Holds n m data r w (l ++ l')) : Holds n m data r ((r + l.length) % m) l := by
  have hroom := h.room
  have hcells := h.cells
  rw [List.length_append] at hroom hcells
  rw [window, List.range_add, List.map_append] at hcells
  obtain ⟨hl, -⟩ := List.append_inj hcells (by rw [List.length_map, List.length_range])
  exact ⟨by omega, h.read, rfl, hl⟩

theorem Holds.eq_iff {l' : List α} {e : ℕ} (hm : n < m) (h : Holds n m data r w l) (h' : Holds n m data r e (l ++ l')) :
    e = w ↔ l' = [] := by
  have hl := h.length_eq hm
  have hl' := h'.length_eq hm
  rw [List.length_append] at hl'
  constructor
  · rintro rfl
    apply List.eq_nil_of_length_eq_zero
    omega
  · rintro rfl
    rw [h.count, h'.count, List.append_nil]

theorem Holds.eq_nil_iff (hm : n < m) (h : Holds n m data r w l) : r = w ↔ l = [] := by
  constructor
  · rintro rfl
    apply List.eq_nil_of_length_eq_zero
    rw [h.length_eq hm, Nat.add_sub_cancel_left, Nat.mod_self]
  · rintro rfl
    rw [h.count, List.length_nil, Nat.add_zero, Nat.mod_eq_of_lt h.read]

theorem Holds.full_iff (hm : n < m) (h : Holds n m data r w l) : w = (r + n) % m ↔ l.length = n := by
  constructor
  · intro hw
    have hread := h.read
    rw [h.length_eq hm, hw]
    rcases Nat.lt_or_ge (r + n) m with hlt | hge
    · rw [Nat.mod_eq_of_lt hlt, show r + n + m - r = n + m by omega, Nat.add_mod_right, Nat.mod_eq_of_lt hm]
    · rw [Nat.mod_eq_sub_mod hge, Nat.mod_eq_of_lt (show r + n - m < m by omega), show r + n - m + m - r = n by omega,
        Nat.mod_eq_of_lt hm]
  · intro hl
    rw [h.count, hl]

end Xv6.RingBuffer
