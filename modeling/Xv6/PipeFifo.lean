import Xv6.Pipe
import Xv6.RingBuffer

namespace Xv6.PipeCalls

open Transition RingBuffer

variable {P : Type} {s t : Sys P} {e : Event P} {p : P} {l : List UInt8}

structure Queue (s : Sys P) (l : List UInt8) : Prop where
  holds : Holds PIPESIZE (2 ^ 32) s.pipe.data s.pipe.nread.toNat s.pipe.nwrite.toNat l
  history : s.stored = s.delivered ++ l

theorem Queue.isEmpty_iff (h : Queue s l) : s.pipe.isEmpty ↔ l = [] := by
  rw [← h.holds.eq_nil_iff (by decide), Pipe.isEmpty, UInt32.toNat_inj]

theorem Queue.isFull_iff (h : Queue s l) : s.pipe.isFull ↔ l.length = PIPESIZE := by
  rw [← h.holds.full_iff (by decide), Pipe.isFull, ← UInt32.toNat_inj, UInt32.toNat_add]
  rfl

theorem Queue.put (h : Queue s l) (hfull : ¬ s.pipe.isFull) (b : UInt8) :
    Queue { s with pipe := s.pipe.put b, stored := s.stored ++ [b] } (l ++ [b]) := by
  have hroom := h.holds.room
  have hlen : l.length < PIPESIZE := lt_of_le_of_ne hroom fun he => hfull (h.isFull_iff.mpr he)
  refine ⟨?_, by simp [h.history]⟩
  have hpush := h.holds.push (a := b) (by decide) hlen
  simp only [Pipe.put, UInt32.toNat_add]
  exact hpush

theorem Queue.take (h : Queue s l) (hempty : ¬ s.pipe.isEmpty) :
    ∃ l', Queue { s with pipe := s.pipe.drop, delivered := s.delivered ++ [s.pipe.front] } l' := by
  cases l with
  | nil => exact absurd (h.isEmpty_iff.mpr rfl) hempty
  | cons a l =>
    obtain ⟨hfront, hrest⟩ := h.holds.pop (by decide)
    refine ⟨l, ?_, ?_⟩
    · simp only [Pipe.drop, UInt32.toNat_add]
      exact hrest
    · simp only [Pipe.front, hfront, h.history, List.append_assoc, List.singleton_append]

theorem opened_queue (data : ℕ → UInt8) : Queue (opened data : Sys P) [] :=
  ⟨Holds.nil (UInt32.toNat_lt _), rfl⟩

variable [DecidableEq P]

theorem writeByte_queue (h : Queue s l) (b : UInt8) (src : List UInt8) (k : ℕ) :
    ∃ l', Queue (writeByte s p b src k) l' := by
  rw [writeByte]
  split_ifs with hfull hfail
  · exact ⟨l, h.holds, h.history⟩
  · exact ⟨l, h.holds, h.history⟩
  · obtain ⟨h1, h2⟩ := h.put hfull b
    exact ⟨_, h1, h2⟩

theorem readTest_queue (h : Queue s l) (n : ℕ) : Queue (readTest s p n) l := by
  rw [readTest]
  split_ifs <;> exact ⟨h.holds, h.history⟩

theorem readByte_queue (h : Queue s l) (n : ℕ) : ∃ l', Queue (readByte s p n) l' := by
  rw [readByte]
  split_ifs with hstop
  · exact ⟨l, h.holds, h.history⟩
  · obtain ⟨l', h1, h2⟩ := h.take fun he => hstop (Or.inr he)
    exact ⟨l', h1, h2⟩

theorem closeEnd_queue (h : Queue s l) (writable : Bool) : Queue (closeEnd s p writable) l := by
  cases writable <;> exact ⟨h.holds, h.history⟩

theorem holderStep_queue (h : Queue s l) (hs : holderStep s p = some t) : ∃ l', Queue t l' := by
  rw [holderStep] at hs
  split at hs <;> cases hs
  · exact writeByte_queue h ..
  · exact ⟨l, h.holds, h.history⟩
  · exact ⟨l, h.holds, h.history⟩
  · exact ⟨l, readTest_queue h _⟩
  · exact readByte_queue h _
  · exact ⟨l, closeEnd_queue h _⟩
  · exact ⟨l, h.holds, h.history⟩

theorem call_queue {x : Pc} (h : Queue s l) (hs : call s p x = some (.ok t)) : Queue t l := by
  rw [call] at hs
  split_ifs at hs
  cases hs
  exact ⟨h.holds, h.history⟩

theorem acquire_queue {x : Pc} (h : Queue s l) (hs : acquire s p x = some (.ok t)) : Queue t l := by
  rw [acquire] at hs
  split_ifs at hs
  cases hs
  exact ⟨h.holds, h.history⟩

theorem step_queue (h : Queue s l) (hs : pipeStep s e = some (.ok t)) : ∃ l', Queue t l' := by
  cases e with
  | write p src => exact ⟨l, call_queue h hs⟩
  | read p n => exact ⟨l, call_queue h hs⟩
  | close p writable => exact ⟨l, call_queue h hs⟩
  | acquire p =>
    simp only [pipeStep] at hs
    split at hs
    · exact ⟨l, acquire_queue h hs⟩
    · exact ⟨l, acquire_queue h hs⟩
    · exact ⟨l, acquire_queue h hs⟩
    · cases hs
  | advance p =>
    simp only [pipeStep] at hs
    split_ifs at hs
    obtain ⟨u, hu, he⟩ := Option.map_eq_some_iff.mp hs
    cases he
    exact holderStep_queue h hu
  | kill p =>
    cases hs
    exact ⟨l, h.holds, h.history⟩

theorem run_queue {data : ℕ → UInt8} {es : List (Event P)} (h : Run (Steps pipeStep) (opened data) es s) :
    ∃ l, Queue s l :=
  h.always (I := fun s => ∃ l, Queue s l) (fun _ _ _ ⟨_, hl⟩ hs => step_queue hl hs) ⟨[], opened_queue data⟩

/-- In every run the counters stay at most `PIPESIZE` apart, and what has been stored is what has been delivered and
then what lies between the counters. -/
theorem pipe_fifo (data : ℕ → UInt8) (es : List (Event P)) (s : Sys P)
    (h : Run (Steps pipeStep) (opened data) es s) :
    (s.pipe.nwrite - s.pipe.nread).toNat ≤ PIPESIZE ∧ s.delivered <+: s.stored ∧
      s.stored = s.delivered ++
        window PIPESIZE s.pipe.data s.pipe.nread.toNat (s.pipe.nwrite - s.pipe.nread).toNat := by
  obtain ⟨l, hl⟩ := run_queue h
  have hread := hl.holds.read
  have hlen : (s.pipe.nwrite - s.pipe.nread).toNat = l.length := by
    rw [UInt32.toNat_sub, Nat.add_comm, ← Nat.add_sub_assoc hread.le, ← hl.holds.length_eq (by decide)]
  rw [hlen, ← hl.holds.cells]
  exact ⟨hl.holds.room, ⟨l, hl.history.symm⟩, hl.history⟩

/-- A write of two bytes and a read of one. -/
theorem pipe_fifo_write_read : ∃ s : Sys Bool,
    Run (Steps pipeStep) (opened fun _ => 0) [.write true [7, 8], .read false 1, .acquire true, .advance true,
      .advance true, .advance true, .advance true, .acquire false, .advance false, .advance false] s ∧
    s.delivered = [7] ∧ s.stored = [7, 8] ∧ s.delivered <+: s.stored := by
  have h : (exec pipeStep (opened fun _ => 0 : Sys Bool) [.write true [7, 8], .read false 1, .acquire true,
      .advance true, .advance true, .advance true, .advance true, .acquire false, .advance false, .advance false]).map
      (fun s => (s.delivered, s.stored)) = some ([7], [7, 8]) := by
    decide +kernel
  obtain ⟨s, he, hs⟩ := Option.map_eq_some_iff.mp h
  obtain ⟨hd, ht⟩ := Prod.mk.inj hs
  exact ⟨s, run_of_exec he, hd, ht, (pipe_fifo _ _ s (run_of_exec he)).2.1⟩

end Xv6.PipeCalls
