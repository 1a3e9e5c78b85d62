import Xv6.LinkedRing

/-!
A queue as a singly linked list: the pointer of `none` is the head of the queue.
-/

namespace Xv6.LinkedRing

open Function (update update_of_ne)

variable {β : Type}

variable {next : Pointers β} {x : Option β} {l : List β} {b : β}

theorem Linked.frame {next' : Pointers β} (h : Linked next x l) (hn : ∀ a ∈ x :: l.map some, next' a = next a) :
    Linked next' x l := by
  induction l generalizing x with
  | nil => exact (hn x (by simp)).trans h
  | cons b l ih =>
    refine ⟨(hn x (by simp)).trans h.1, ih h.2 ?_⟩
    intro a ha
    exact hn a (List.mem_cons_of_mem x ha)

variable [DecidableEq β]

def pop (next : Pointers β) (b : β) : Pointers β := update next none (next (some b))

theorem Linked.pop (h : Linked next none (b :: l)) : Linked (LinkedRing.pop next b) none l := by
  have hs := h.2
  cases l with
  | nil => simpa [Linked, LinkedRing.pop] using hs
  | cons a l =>
    refine ⟨by simpa [LinkedRing.pop] using hs.1, hs.2.frame ?_⟩
    intro c hc
    obtain ⟨d, -, rfl⟩ := List.mem_map.mp (show c ∈ (a :: l).map some from hc)
    simp [LinkedRing.pop]

def push (next : Pointers β) (n : ℕ) (b : β) : Pointers β :=
  let next' := update next (some b) none
  update next' (walk next' n (next' none)).getLast? (some b)

theorem Linked.snoc (h : Linked next x l) (hb : next (some b) = none) (hbl : b ∉ l) (hx : x ≠ some b)
    (hl : (x :: l.map some).Nodup) :
    Linked (update next ((l.getLast?.map some).getD x) (some b)) x (l ++ [b]) := by
  induction l generalizing x with
  | nil =>
    refine ⟨by simp, ?_⟩
    simp [Linked, update_of_ne hx.symm, hb]
  | cons a l ih =>
    have hlast : (((a :: l).getLast?).map some).getD x = (l.getLast?.map some).getD (some a) := by
      rw [List.getLast?_cons]
      cases l.getLast? <;> rfl
    have hmem : (l.getLast?.map some).getD (some a) ∈ (a :: l).map some := by
      cases hg : l.getLast? with
      | none => simp
      | some c => simpa using Or.inr (List.mem_of_getLast? hg)
    rw [hlast]
    refine ⟨?_, ih h.2 (fun hm => hbl (List.mem_cons_of_mem a hm)) ?_ (List.nodup_cons.mp hl).2⟩
    · rw [update_of_ne, h.1]
      rintro rfl
      exact (List.nodup_cons.mp hl).1 hmem
    · rintro hab
      exact hbl (by simp [Option.some.inj hab])

theorem Linked.push (h : Linked next none l) (hl : l.Nodup) (hb : b ∉ l) {n : ℕ} (hn : l.length ≤ n) :
    Linked (LinkedRing.push next n b) none (l ++ [b]) := by
  have h' : Linked (update next (some b) none) none l := by
    apply h.frame
    intro a ha
    apply update_of_ne
    rintro rfl
    exact hb (by simpa using ha)
  have hlast : (l.getLast?.map some).getD none = l.getLast? := by cases l.getLast? <;> rfl
  simp only [LinkedRing.push, h'.walk_eq hn]
  rw [← hlast]
  apply h'.snoc (by simp) hb (by simp)
  rw [List.nodup_cons]
  exact ⟨by simp, hl.map (Option.some_injective β)⟩

end Xv6.LinkedRing
