import Mathlib

/-!
A circular doubly linked list through a head node, kept as two pointer maps.
The head is `none`, and a list of elements says in which order the pointers
visit them.
-/

namespace Xv6.LinkedRing

open Function (update update_of_ne)

variable {β : Type}

abbrev Pointers (β : Type) := Option β → Option β

def Path (next prev : Pointers β) (x : Option β) : List β → Option β → Prop
  | [], y => next x = y ∧ prev y = x
  | b :: l, y => (next x = some b ∧ prev (some b) = x) ∧ Path next prev (some b) l y

structure Ring (next prev : Pointers β) (l : List β) : Prop where
  path : Path next prev none l none
  nodup : l.Nodup

def Linked (next : Pointers β) (x : Option β) : List β → Prop
  | [] => next x = none
  | b :: l => next x = some b ∧ Linked next (some b) l

variable {next prev : Pointers β} {x y : Option β} {l l1 l2 : List β} {b : β}

theorem Path.append (h : Path next prev x l1 (some b)) (h' : Path next prev (some b) l2 y) :
    Path next prev x (l1 ++ b :: l2) y := by
  induction l1 generalizing x with
  | nil => exact ⟨h, h'⟩
  | cons a l1 ih => exact ⟨h.1, ih h.2⟩

theorem Path.reverse (h : Path next prev x l y) : Path prev next y l.reverse x := by
  induction l generalizing x with
  | nil => exact ⟨h.2, h.1⟩
  | cons b l ih =>
    rw [List.reverse_cons]
    apply (ih h.2).append
    exact ⟨h.1.2, h.1.1⟩

def walk (next : Pointers β) : ℕ → Option β → List β
  | n + 1, some b => b :: walk next n (next (some b))
  | _, _ => []

theorem Linked.walk_eq (h : Linked next x l) {n : ℕ} (hn : l.length ≤ n) : walk next n (next x) = l := by
  induction l generalizing x n with
  | nil =>
    rw [show next x = none from h]
    cases n <;> rfl
  | cons b l ih =>
    obtain _ | n := n
    · simp at hn
    · rw [h.1, walk, ih h.2 (by simpa using hn)]

theorem Path.linked (h : Path next prev x l none) : Linked next x l := by
  induction l generalizing x with
  | nil => exact h.1
  | cons b l ih => exact ⟨h.1.1, ih h.2⟩

theorem Ring.walk_next (h : Ring next prev l) {n : ℕ} (hn : l.length ≤ n) : walk next n (next none) = l :=
  h.path.linked.walk_eq hn

theorem Ring.walk_prev (h : Ring next prev l) {n : ℕ} (hn : l.length ≤ n) : walk prev n (prev none) = l.reverse :=
  h.path.reverse.linked.walk_eq (by rwa [List.length_reverse])

theorem Path.frame {next' prev' : Pointers β} (h : Path next prev x l y)
    (hn : ∀ a ∈ x :: l.map some, next' a = next a) (hp : ∀ a ∈ y :: l.map some, prev' a = prev a) :
    Path next' prev' x l y := by
  induction l generalizing x with
  | nil => exact ⟨(hn x (by simp)).trans h.1, (hp y (by simp)).trans h.2⟩
  | cons b l ih =>
    refine ⟨⟨(hn x (by simp)).trans h.1.1, (hp (some b) (by simp)).trans h.1.2⟩, ih h.2 ?_ ?_⟩
    · intro a ha
      exact hn a (by simpa using Or.inr (by simpa using ha))
    · intro a ha
      apply hp a
      simp only [List.mem_cons, List.map_cons] at ha ⊢
      tauto

theorem Path.next_mem (h : Path next prev x l y) : next x ∈ y :: l.map some := by
  cases l with
  | nil => simp [h.1]
  | cons b l => simp [h.1.1]

theorem Path.prev_mem (h : Path next prev x l y) : prev y ∈ x :: l.map some := by
  have := h.reverse.next_mem
  simpa using this

theorem Path.split (h : Path next prev x (l1 ++ b :: l2) y) :
    Path next prev x l1 (some b) ∧ Path next prev (some b) l2 y := by
  induction l1 generalizing x with
  | nil => exact h
  | cons a l1 ih => exact ⟨⟨h.1, (ih h.2).1⟩, (ih h.2).2⟩

section

variable [DecidableEq β]

def unlink (next prev : Pointers β) (b : β) : Pointers β × Pointers β :=
  let prev' := update prev (next (some b)) (prev (some b))
  (update next (prev' (some b)) (next (some b)), prev')

def insert (next prev : Pointers β) (b : β) : Pointers β × Pointers β :=
  let next' := update next (some b) (next none)
  let prev' := update prev (some b) none
  (update next' none (some b), update prev' (next' none) (some b))

theorem Path.bypass {c d : Option β} (h : Path next prev x (l1 ++ b :: l2) y) (hc : next (some b) = c)
    (hd : prev (some b) = d) (hl : (l1 ++ b :: l2).Nodup) (hx : ∀ a ∈ l1 ++ b :: l2, x ≠ some a)
    (hy : ∀ a ∈ l1 ++ b :: l2, y ≠ some a) :
    Path (update next d c) (update prev c d) x (l1 ++ l2) y := by
  induction l1 generalizing x with
  | nil =>
    obtain ⟨⟨-, hb⟩, h2⟩ := h
    obtain rfl : x = d := hb.symm.trans hd
    cases l2 with
    | nil =>
      obtain rfl : y = c := h2.1.symm.trans hc
      simp [Path]
    | cons a l2 =>
      obtain rfl : some a = c := h2.1.1.symm.trans hc
      refine ⟨by simp, h2.2.frame ?_ ?_⟩
      · intro z hz
        obtain ⟨m, hm, rfl⟩ := List.mem_map.mp (show z ∈ (a :: l2).map some from hz)
        exact update_of_ne (hx m (List.mem_cons_of_mem b hm)).symm _ _
      · intro z hz
        apply update_of_ne
        rintro rfl
        simp only [List.nil_append, List.nodup_cons] at hl
        rcases List.mem_cons.mp hz with hz | hz
        · exact hy a (by simp) hz.symm
        · exact hl.2.1 (by simpa using hz)
  | cons a l1 ih =>
    simp only [List.cons_append, List.nodup_cons] at hl
    have hsplit := Path.split h.2
    have hdm : d ∈ some a :: l1.map some := hd ▸ hsplit.1.prev_mem
    have hcm : c ∈ y :: l2.map some := hc ▸ hsplit.2.next_mem
    refine ⟨⟨?_, ?_⟩, ih h.2 hl.2 ?_ ?_⟩
    · rw [update_of_ne, h.1.1]
      rintro rfl
      obtain ⟨z, hz, rfl⟩ := List.mem_map.mp (show x ∈ (a :: l1).map some from hdm)
      exact hx z (List.mem_append_left _ hz) rfl
    · rw [update_of_ne, h.1.2]
      rintro rfl
      rcases List.mem_cons.mp hcm with hm | hm
      · exact hy a (by simp) hm.symm
      · exact hl.1 (by simpa using Or.inr (Or.inr (by simpa using hm)))
    · rintro z hz hza
      exact hl.1 (by simpa [Option.some.inj hza] using hz)
    · intro z hz
      exact hy z (List.mem_cons_of_mem a hz)

theorem Ring.unlink (h : Ring next prev (l1 ++ b :: l2)) :
    Ring (LinkedRing.unlink next prev b).1 (LinkedRing.unlink next prev b).2 (l1 ++ l2) := by
  have hb : next (some b) ≠ some b := by
    intro hb
    have hm := (Path.split h.path).2.next_mem
    have hn := (List.nodup_append.mp h.nodup).2.1
    rw [hb] at hm
    exact (List.nodup_cons.mp hn).1 (by simpa using hm)
  have he : LinkedRing.unlink next prev b = (update next (prev (some b)) (next (some b)),
      update prev (next (some b)) (prev (some b))) := by
    simp only [LinkedRing.unlink, update_of_ne hb.symm]
  rw [he]
  constructor
  · apply h.path.bypass rfl rfl h.nodup
    · intro a _
      simp
    · intro a _
      simp
  · exact List.Nodup.sublist (by simp) h.nodup

theorem Ring.insert (h : Ring next prev l) (hb : b ∉ l) :
    Ring (LinkedRing.insert next prev b).1 (LinkedRing.insert next prev b).2 (b :: l) := by
  refine ⟨⟨?_, ?_⟩, List.nodup_cons.mpr ⟨hb, h.nodup⟩⟩
  · have hm : next none ≠ some b := by
      intro he
      have := h.path.next_mem
      rw [he] at this
      exact hb (by simpa using this)
    simp [LinkedRing.insert, update_of_ne hm.symm]
  · have hp := h.path
    cases l with
    | nil =>
      obtain ⟨hn, -⟩ := hp
      simp [LinkedRing.insert, Path, hn]
    | cons a l =>
      obtain ⟨⟨hn, -⟩, ha⟩ := hp
      have hab : a ≠ b := fun e => hb (by simp [e])
      have hal := (List.nodup_cons.mp h.nodup).1
      refine ⟨by simp [LinkedRing.insert, hn], ha.frame ?_ ?_⟩
      · intro z hz
        obtain ⟨c, hc, rfl⟩ := List.mem_map.mp (show z ∈ (a :: l).map some from hz)
        have hcb : c ≠ b := fun e => hb (e ▸ hc)
        simp [LinkedRing.insert, hcb]
      · intro z hz
        have hza : z ≠ some a := by
          rintro rfl
          exact hal (by simpa using hz)
        have hzb : z ≠ some b := by
          rintro rfl
          exact hb (List.mem_cons_of_mem a (by simpa using hz))
        simp [LinkedRing.insert, hn, hza, hzb]

theorem Ring.moveToFront (h : Ring next prev l) (hb : b ∈ l) {q : Pointers β × Pointers β}
    (hq : q = LinkedRing.unlink next prev b) :
    Ring (LinkedRing.insert q.1 q.2 b).1 (LinkedRing.insert q.1 q.2 b).2 (b :: l.erase b) := by
  obtain ⟨l1, l2, hb1, rfl, he⟩ := List.exists_erase_eq hb
  rw [he, hq]
  apply h.unlink.insert
  have hn := h.nodup
  rw [List.nodup_middle, List.nodup_cons] at hn
  exact hn.1

end

end Xv6.LinkedRing
