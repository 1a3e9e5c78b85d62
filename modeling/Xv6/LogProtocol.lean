import Xv6.RedoLog
import Xv6.Transition

namespace Xv6.LogProtocol

open RedoLog

inductive Phase
  | outside
  | asleep
  | awake
  | inOp (blocks : Finset UInt32)
  | writing (blocks : Finset UInt32) (b : UInt32)
  | committing
  | committed

structure Sys where
  log : Log
  phase : ℕ → Phase

inductive Event
  | beginOp (p : ℕ)
  | logWrite (p : ℕ) (b : UInt32)
  | record (p : ℕ) (b : UInt32)
  | endOp (p : ℕ)
  | commit (p : ℕ)
  | finish (p : ℕ)
  deriving DecidableEq

def start (l : Log) : Sys := ⟨{ l with outstanding := 0, committing := false, block := [] }, fun _ => .outside⟩

def set (s : Sys) (p : ℕ) (l : Log) (x : Phase) : Sys := ⟨l, Function.update s.phase p x⟩

def Phase.wake : Phase → Phase
  | .asleep => .awake
  | x => x

def wakeup (s : Sys) : Sys := { s with phase := fun p => (s.phase p).wake }

def beginOp (s : Sys) (p : ℕ) : Sys :=
  if s.log.committing then set s p s.log .asleep
  else if (LOGSIZE : ℤ) < s.log.block.length + (s.log.outstanding + 1) * MAXOPBLOCKS then set s p s.log .asleep
  else set s p { s.log with outstanding := s.log.outstanding + 1 } (.inOp ∅)

def endOp (s : Sys) (p : ℕ) : Outcome Sys :=
  let l := { s.log with outstanding := s.log.outstanding - 1 }
  if l.committing then .error "log.committing"
  else if l.outstanding = 0 then .ok (set s p { l with committing := true } .committing)
  else .ok (wakeup (set s p l .outside))

def logWriteTests (s : Sys) (p : ℕ) (blocks : Finset UInt32) (b : UInt32) : Outcome Sys :=
  if LOGSIZE ≤ s.log.block.length ∨ s.log.size - 1 ≤ s.log.block.length then .error "too big a transaction"
  else if s.log.outstanding < 1 then .error "log_write outside of trans"
  else .ok (set s p s.log (.writing blocks b))

def step (s : Sys) : Event → Option (Outcome Sys)
  | .beginOp p =>
    match s.phase p with
    | .outside => some (.ok (beginOp s p))
    | .awake => some (.ok (beginOp s p))
    | _ => none
  | .logWrite p b =>
    match s.phase p with
    | .inOp blocks => some (logWriteTests s p blocks b)
    | _ => none
  | .record p b =>
    match s.phase p with
    | .writing blocks c =>
      if c = b then some (.ok (set s p { s.log with block := absorb s.log.block b } (.inOp (insert b blocks))))
      else none
    | _ => none
  | .endOp p =>
    match s.phase p with
    | .inOp _ => some (endOp s p)
    | _ => none
  | .commit p =>
    match s.phase p with
    | .committing => some (.ok (set s p { s.log with block := [] } .committed))
    | _ => none
  | .finish p =>
    match s.phase p with
    | .committed => some (.ok (wakeup (set s p { s.log with committing := false } .outside)))
    | _ => none

theorem step_cases {s t : Sys} {e : Event} (h : Transition.Steps step s e t) :
    (∃ p, e = .beginOp p ∧ (s.phase p = .outside ∨ s.phase p = .awake) ∧ t = beginOp s p) ∨
    (∃ p b B, e = .logWrite p b ∧ s.phase p = .inOp B ∧ t = set s p s.log (.writing B b) ∧
      s.log.block.length < LOGSIZE ∧ (s.log.block.length : ℤ) < s.log.size - 1) ∨
    (∃ p b B, e = .record p b ∧ s.phase p = .writing B b ∧
      t = set s p { s.log with block := absorb s.log.block b } (.inOp (insert b B))) ∨
    (∃ p B, e = .endOp p ∧ s.phase p = .inOp B ∧ s.log.committing = false ∧ s.log.outstanding - 1 = 0 ∧
      t = set s p { s.log with outstanding := s.log.outstanding - 1, committing := true } .committing) ∨
    (∃ p B, e = .endOp p ∧ s.phase p = .inOp B ∧ s.log.committing = false ∧ s.log.outstanding - 1 ≠ 0 ∧
      t = wakeup (set s p { s.log with outstanding := s.log.outstanding - 1 } .outside)) ∨
    (∃ p, e = .commit p ∧ s.phase p = .committing ∧ t = set s p { s.log with block := [] } .committed) ∨
    (∃ p, e = .finish p ∧ s.phase p = .committed ∧
      t = wakeup (set s p { s.log with committing := false } .outside)) := by
  cases e with
  | beginOp p =>
    left
    simp only [Transition.Steps, step] at h
    split at h <;> cases h
    · exact ⟨p, rfl, Or.inl (by assumption), rfl⟩
    · exact ⟨p, rfl, Or.inr (by assumption), rfl⟩
  | logWrite p b =>
    right; left
    simp only [Transition.Steps, step] at h
    split at h
    · rename_i B hB
      simp only [logWriteTests] at h
      split_ifs at h with h1 h2
      · cases h
      · cases h
      · cases h
        obtain ⟨hn, hs⟩ := not_or.mp h1
        exact ⟨p, b, B, rfl, hB, rfl, by omega, by omega⟩
    · cases h
  | record p b =>
    right; right; left
    simp only [Transition.Steps, step] at h
    split at h
    · rename_i B c hB
      split_ifs at h with hc
      subst hc
      cases h
      exact ⟨p, c, B, rfl, hB, rfl⟩
    · cases h
  | endOp p =>
    simp only [Transition.Steps, step] at h
    split at h
    · rename_i B hB
      simp only [endOp] at h
      split_ifs at h with h1 h2
      · cases h
      · cases h
        right; right; right; left
        exact ⟨p, B, rfl, hB, by simpa using h1, h2, rfl⟩
      · cases h
        right; right; right; right; left
        exact ⟨p, B, rfl, hB, by simpa using h1, h2, rfl⟩
    · cases h
  | commit p =>
    simp only [Transition.Steps, step] at h
    split at h <;> cases h
    exact Or.inr (Or.inr (Or.inr (Or.inr (Or.inr (Or.inl ⟨p, rfl, by assumption, rfl⟩)))))
  | finish p =>
    simp only [Transition.Steps, step] at h
    split at h <;> cases h
    exact Or.inr (Or.inr (Or.inr (Or.inr (Or.inr (Or.inr ⟨p, rfl, by assumption, rfl⟩)))))

theorem panic_cases {s : Sys} {e : Event} {m : String} (h : step s e = some (.error m)) :
    (∃ p b B, e = .logWrite p b ∧ s.phase p = .inOp B ∧ m = "too big a transaction" ∧
      (LOGSIZE ≤ s.log.block.length ∨ s.log.size - 1 ≤ s.log.block.length)) ∨
    (∃ p b B, e = .logWrite p b ∧ s.phase p = .inOp B ∧ m = "log_write outside of trans" ∧
      s.log.outstanding < 1) ∨
    (∃ p B, e = .endOp p ∧ s.phase p = .inOp B ∧ m = "log.committing" ∧ s.log.committing = true) := by
  cases e with
  | logWrite p b =>
    simp only [step] at h
    split at h
    · rename_i B hB
      simp only [logWriteTests] at h
      split_ifs at h with h1 h2 <;> cases h
      · exact Or.inl ⟨p, b, B, rfl, hB, rfl, h1⟩
      · exact Or.inr (Or.inl ⟨p, b, B, rfl, hB, rfl, h2⟩)
    · cases h
  | endOp p =>
    simp only [step] at h
    split at h
    · rename_i B hB
      simp only [endOp] at h
      split_ifs at h with h1 h2 <;> cases h
      exact Or.inr (Or.inr ⟨p, B, rfl, hB, rfl, h1⟩)
    · cases h
  | record p b =>
    simp only [step] at h
    split at h
    · split_ifs at h
      cases h
    · cases h
  | beginOp p | commit p | finish p => simp only [step] at h; split at h <;> cases h

end Xv6.LogProtocol
