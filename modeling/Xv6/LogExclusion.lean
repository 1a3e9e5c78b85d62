import Xv6.LogReservation

namespace Xv6.LogProtocol

open RedoLog Transition

variable {s t : Sys} {S : Finset ℕ} {e : Event} {p : ℕ}

theorem step_ops (h : Ops s S) (ht : Steps step s e t) : ∃ T, Ops t T := by
  obtain ⟨p, rfl, hp, rfl⟩ | ⟨p, b, B, rfl, hp, rfl, _, _⟩ | ⟨p, b, B, rfl, hp, rfl⟩ |
    ⟨p, B, rfl, hp, hc, hlast, rfl⟩ | ⟨p, B, rfl, hp, hc, hmore, rfl⟩ | ⟨p, rfl, hp, rfl⟩ |
    ⟨p, rfl, hp, rfl⟩ := step_cases ht
  · have hact := not_active_of_begin hp
    unfold beginOp
    split_ifs with hc
    · exact ⟨S, h.sleep hact⟩
    · exact ⟨S, h.sleep hact⟩
    · exact ⟨insert p S, h.enter hact (by simpa using hc)⟩
  · exact ⟨S, h.test hp⟩
  · exact ⟨S, h.record hp⟩
  · exact ⟨S.erase p, endOp_last_ops h hp hlast⟩
  · exact ⟨S.erase p, (endOp_more_ops h hp).wakeup⟩
  · have hbusy : (s.phase p).Busy := by simp [hp, Phase.Busy]
    exact ⟨∅, commit_ops h hbusy (by simp [Phase.Active]) rfl List.nodup_nil rfl (fun _ => h.busy p hbusy)⟩
  · have hbusy : (s.phase p).Busy := by simp [hp, Phase.Busy]
    refine ⟨∅, Ops.wakeup ?_⟩
    exact commit_ops h hbusy (by simp [Phase.Active]) rfl h.nodup rfl (by simp [Phase.Busy])

def MustWait (l : Log) : Prop :=
  l.committing = true ∨ (LOGSIZE : ℤ) < l.block.length + (l.outstanding + 1) * MAXOPBLOCKS

def Needed (s : Sys) : Prop := ∀ p, s.phase p = .asleep → MustWait s.log

theorem needed_wakeup (s : Sys) : Needed (wakeup s) := by
  intro p hp
  have hwake : (s.phase p).wake = .asleep := hp
  cases hx : s.phase p <;> simp [hx, Phase.wake] at hwake

theorem Needed.set (h : Needed s) {l : Log} {x : Phase} (hx : x = .asleep → MustWait l)
    (hl : MustWait s.log → MustWait l) : Needed (set s p l x) := by
  intro q hq
  simp only [LogProtocol.set] at hq ⊢
  by_cases he : q = p
  · rw [he, Function.update_self] at hq
    exact hx hq
  · rw [Function.update_of_ne he] at hq
    exact hl (h q hq)

theorem absorb_length_ge (bs : List UInt32) (b : UInt32) : bs.length ≤ (absorb bs b).length := by
  unfold absorb
  split_ifs <;> simp

theorem beginOp_needed (h : Needed s) : Needed (beginOp s p) := by
  unfold beginOp
  split_ifs with hc hfull
  · exact h.set (fun _ => Or.inl hc) id
  · exact h.set (fun _ => Or.inr hfull) id
  · apply h.set
    · intro hx
      cases hx
    · intro hw
      rcases hw with hw | hw
      · exact absurd hw hc
      · exact absurd hw hfull

theorem step_needed (hn : Needed s) (h : Ops s S) (ht : Steps step s e t) : Needed t := by
  obtain ⟨p, rfl, hp, rfl⟩ | ⟨p, b, B, rfl, hp, rfl, _, _⟩ | ⟨p, b, B, rfl, hp, rfl⟩ |
    ⟨p, B, rfl, hp, hc, hlast, rfl⟩ | ⟨p, B, rfl, hp, hc, hmore, rfl⟩ | ⟨p, rfl, hp, rfl⟩ |
    ⟨p, rfl, hp, rfl⟩ := step_cases ht
  · exact beginOp_needed hn
  · exact hn.set (by rintro ⟨⟩) id
  · apply hn.set
    · intro hx
      cases hx
    · intro hw
      apply hw.imp_right
      intro hlt
      have := absorb_length_ge s.log.block b
      dsimp only
      omega
  · exact hn.set (by rintro ⟨⟩) fun _ => Or.inl rfl
  · exact needed_wakeup _
  · -- `commit` empties the header while `committing` is still set
    exact hn.set (by rintro ⟨⟩) fun _ => Or.inl (h.busy p (by simp [hp, Phase.Busy]))
  · exact needed_wakeup _

theorem run_ops {l : Log} {es : List Event} (h : Run (Steps step) (start l) es s) : (∃ S, Ops s S) ∧ Needed s := by
  refine h.always (I := fun s => (∃ S, Ops s S) ∧ Needed s) ?_ ⟨⟨∅, ops_start l⟩, ?_⟩
  · rintro s e t ⟨⟨S, ho⟩, hn⟩ ht
    exact ⟨step_ops ho ht, step_needed hn ho ht⟩
  · intro p hp
    simp [start] at hp

def Event.logs : Event → Bool
  | .logWrite .. | .record .. => true
  | _ => false

theorem active_of_logs (h : (step s e).isSome = true) (he : e.logs = true) : ∃ p, (s.phase p).Active := by
  cases e with
  | logWrite p b | record p b =>
    refine ⟨p, ?_⟩
    cases hx : s.phase p <;> simp [step, hx] at h
    trivial
  | beginOp | endOp | commit | finish => cases he

theorem log_protocol (l : Log) (es : List Event) (s : Sys) (h : Run (Steps step) (start l) es s) :
    (s.log.committing = true → s.log.outstanding = 0) ∧
    (∀ p q, (s.phase p).Busy → (s.phase q).Busy → p = q) ∧
    (∀ e p, (step s e).isSome = true → e.logs = true → s.log.committing = false ∧ ¬ (s.phase p).Busy) ∧
    (∀ p, (s.phase p).blocks ⊆ s.log.block.toFinset) ∧
    s.log.block.Nodup ∧
    (∀ e, step s e ≠ some (.error "log.committing")) ∧
    ∀ p, s.phase p = .asleep →
      ¬ (s.log.committing = false ∧ (s.log.block.length : ℤ) + (s.log.outstanding + 1) * MAXOPBLOCKS ≤ LOGSIZE) := by
  obtain ⟨⟨S, ho⟩, hn⟩ := run_ops h
  have hidle : ∀ p, (s.phase p).Active → s.log.committing = false := fun p hp => ho.committing ((ho.mem p).mpr hp)
  refine ⟨?_, ho.alone, ?_, ho.blocks, ho.nodup, ?_, ?_⟩
  · intro hc
    rw [ho.outstanding, ho.idle hc]
    rfl
  · intro e p he hlog
    obtain ⟨q, hq⟩ := active_of_logs he hlog
    exact ⟨hidle q hq, ho.not_busy (hidle q hq) p⟩
  · intro e he
    obtain ⟨p, b, B, -, -, hm, -⟩ | ⟨p, b, B, -, -, hm, -⟩ | ⟨p, B, -, hp, -, hc⟩ := panic_cases he
    · exact absurd hm (by decide)
    · exact absurd hm (by decide)
    · rw [hidle p (by simp [hp, Phase.Active])] at hc
      cases hc
  · rintro p hp ⟨hc, hroom⟩
    rcases hn p hp with hw | hw
    · rw [hc] at hw
      cases hw
    · omega

/-- Three operations fill the log's reservations, and one of them logs the same block twice. -/
theorem log_protocol_absorb : ∃ s, Run (Steps step) (start ⟨2, nlog, 0, false, []⟩)
      [.beginOp 0, .beginOp 1, .beginOp 2, .beginOp 3, .logWrite 0 40, .record 0 40, .logWrite 0 40, .record 0 40] s ∧
    s.log.outstanding = 3 ∧ s.log.block = [40] ∧ s.log.block.Nodup := by
  have h : (exec step (start ⟨2, nlog, 0, false, []⟩)
      [.beginOp 0, .beginOp 1, .beginOp 2, .beginOp 3, .logWrite 0 40, .record 0 40, .logWrite 0 40, .record 0 40]).map
      (fun s => (s.log.outstanding, s.log.block)) = some (3, [40]) := by
    decide +kernel
  obtain ⟨s, he, hs⟩ := Option.map_eq_some_iff.mp h
  obtain ⟨ho, hb⟩ := Prod.mk.inj hs
  exact ⟨s, run_of_exec he, ho, hb, (log_protocol _ _ s (run_of_exec he)).2.2.2.2.1⟩

end Xv6.LogProtocol
