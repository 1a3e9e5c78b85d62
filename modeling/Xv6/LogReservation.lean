import Xv6.LogCrash
import Xv6.LogProtocol

namespace Xv6.LogProtocol

open RedoLog Transition
open Function (update update_self update_of_ne)

def Phase.Active : Phase → Prop
  | .inOp _ => True
  | .writing _ _ => True
  | _ => False

def Phase.Busy : Phase → Prop
  | .committing => True
  | .committed => True
  | _ => False

def Phase.blocks : Phase → Finset UInt32
  | .inOp B => B
  | .writing B _ => B
  | _ => ∅

def Phase.unused (x : Phase) : ℕ := MAXOPBLOCKS - x.blocks.card

@[simp] theorem Phase.active_wake (x : Phase) : x.wake.Active ↔ x.Active := by
  cases x <;> simp [Phase.wake, Phase.Active]

@[simp] theorem Phase.busy_wake (x : Phase) : x.wake.Busy ↔ x.Busy := by
  cases x <;> simp [Phase.wake, Phase.Busy]

@[simp] theorem Phase.blocks_wake (x : Phase) : x.wake.blocks = x.blocks := by
  cases x <;> rfl

structure Ops (s : Sys) (S : Finset ℕ) : Prop where
  mem : ∀ p, p ∈ S ↔ (s.phase p).Active
  outstanding : s.log.outstanding = S.card
  idle : s.log.committing = true → S = ∅
  busy : ∀ p, (s.phase p).Busy → s.log.committing = true
  alone : ∀ p q, (s.phase p).Busy → (s.phase q).Busy → p = q
  nodup : s.log.block.Nodup
  blocks : ∀ p, (s.phase p).blocks ⊆ s.log.block.toFinset

variable {s : Sys} {S : Finset ℕ} {p : ℕ} {l : Log} {x : Phase} {B : Finset UInt32}

theorem Ops.wakeup (h : Ops s S) : Ops (wakeup s) S := by
  refine ⟨?_, h.outstanding, h.idle, ?_, ?_, h.nodup, ?_⟩
  · intro p
    simpa [LogProtocol.wakeup] using h.mem p
  · intro p hp
    exact h.busy p (by simpa [LogProtocol.wakeup] using hp)
  · intro p q hp hq
    exact h.alone p q (by simpa [LogProtocol.wakeup] using hp) (by simpa [LogProtocol.wakeup] using hq)
  · intro p
    simpa [LogProtocol.wakeup] using h.blocks p

theorem ops_start (l : Log) : Ops (start l) ∅ := by
  refine ⟨?_, rfl, fun _ => rfl, ?_, ?_, List.nodup_nil, ?_⟩
  · intro p; simp [start, Phase.Active]
  · intro p hp; simp [start, Phase.Busy] at hp
  · intro p q hp; simp [start, Phase.Busy] at hp
  · intro p; simp [start, Phase.blocks]

theorem Ops.set {S T : Finset ℕ} (h : Ops s S)
    (hmem : ∀ q, q ∈ T ↔ if q = p then x.Active else q ∈ S) (hout : l.outstanding = T.card)
    (hidle : l.committing = true → T = ∅)
    (hbusy : ∀ q, (if q = p then x.Busy else (s.phase q).Busy) → l.committing = true)
    (halone : x.Busy → ∀ q, (s.phase q).Busy → q = p) (hnodup : l.block.Nodup) (hx : x.blocks ⊆ l.block.toFinset)
    (hsub : ∀ q, q ≠ p → (s.phase q).blocks ⊆ l.block.toFinset) : Ops (set s p l x) T := by
  have hphase : ∀ q, (LogProtocol.set s p l x).phase q = if q = p then x else s.phase q := by
    intro q
    by_cases hq : q = p
    · subst hq; simp [LogProtocol.set]
    · simp [LogProtocol.set, hq]
  refine ⟨?_, hout, hidle, ?_, ?_, hnodup, ?_⟩
  · intro q
    rw [hmem, hphase]
    split_ifs
    · rfl
    · exact h.mem q
  · intro q hq
    apply hbusy q
    rw [hphase] at hq
    split_ifs with hp
    · rwa [if_pos hp] at hq
    · rwa [if_neg hp] at hq
  · intro q r hq hr
    rw [hphase] at hq hr
    split_ifs at hq hr with h1 h2
    · rw [h1, h2]
    · rw [h1, halone hq r hr]
    · rename_i h3
      rw [h3, halone hr q hq]
    · exact h.alone q r hq hr
  · intro q
    rw [hphase]
    split_ifs with hq
    · exact hx
    · exact hsub q hq

structure Reserved (s : Sys) (S : Finset ℕ) : Prop where
  room : s.log.block.length + ∑ p ∈ S, (s.phase p).unused ≤ LOGSIZE
  budget : ∀ p B b, s.phase p = .writing B b → (insert b B).card ≤ MAXOPBLOCKS

theorem Reserved.wakeup (h : Reserved s S) : Reserved (wakeup s) S := by
  refine ⟨?_, ?_⟩
  · simpa only [LogProtocol.wakeup, Phase.unused, Phase.blocks_wake] using h.room
  · intro p B b hp
    apply h.budget p B b
    simp only [LogProtocol.wakeup] at hp
    cases hx : s.phase p <;> simp [hx, Phase.wake] at hp ⊢
    exact hp

theorem Reserved.set {S T : Finset ℕ} (h : Reserved s S)
    (hroom : l.block.length + ∑ q ∈ T, (update s.phase p x q).unused ≤ LOGSIZE)
    (hx : ∀ B b, x = .writing B b → (insert b B).card ≤ MAXOPBLOCKS) : Reserved (set s p l x) T := by
  refine ⟨hroom, ?_⟩
  intro q B b hq
  by_cases hp : q = p
  · subst hp
    simp only [LogProtocol.set, update_self] at hq
    exact hx B b hq
  · simp only [LogProtocol.set, update_of_ne hp] at hq
    exact h.budget q B b hq

theorem sum_unused_update_mem (hp : p ∈ S) (f : ℕ → Phase) (x : Phase) :
    ∑ q ∈ S, (update f p x q).unused + (f p).unused = ∑ q ∈ S, (f q).unused + x.unused := by
  rw [← Finset.add_sum_erase S _ hp, ← Finset.add_sum_erase S (fun q => (f q).unused) hp]
  have he : ∑ q ∈ S.erase p, (update f p x q).unused = ∑ q ∈ S.erase p, (f q).unused := by
    apply Finset.sum_congr rfl
    intro q hq
    rw [update_of_ne (Finset.ne_of_mem_erase hq)]
  rw [he, update_self]
  omega

theorem sum_unused_update_notMem (hp : p ∉ S) (f : ℕ → Phase) (x : Phase) :
    ∑ q ∈ S, (update f p x q).unused = ∑ q ∈ S, (f q).unused := by
  apply Finset.sum_congr rfl
  intro q hq
  have hqp : q ≠ p := fun he => hp (he ▸ hq)
  rw [update_of_ne hqp]

theorem sum_unused_le (S : Finset ℕ) (f : ℕ → Phase) : ∑ q ∈ S, (f q).unused ≤ S.card * MAXOPBLOCKS := by
  calc ∑ q ∈ S, (f q).unused ≤ ∑ _q ∈ S, MAXOPBLOCKS := Finset.sum_le_sum (fun q _ => Nat.sub_le _ _)
    _ = S.card * MAXOPBLOCKS := by simp

def Inv (s : Sys) : Prop := ∃ S, Ops s S ∧ Reserved s S

def Budgeted (s : Sys) : Event → Prop
  | .logWrite p b =>
    match s.phase p with
    | .inOp B => (insert b B).card ≤ MAXOPBLOCKS
    | _ => True
  | _ => True

theorem inv_start (l : Log) : Inv (start l) :=
  ⟨∅, ops_start l, by simp [start], by intro p B b hp; simp [start] at hp⟩

theorem Ops.notMem (h : Ops s S) (hp : ¬ (s.phase p).Active) : p ∉ S :=
  fun hm => hp ((h.mem p).mp hm)

theorem Ops.not_busy (h : Ops s S) (hc : s.log.committing = false) (q : ℕ) : ¬ (s.phase q).Busy := by
  intro hq
  rw [h.busy q hq] at hc
  cases hc

theorem Ops.committing (h : Ops s S) (hp : p ∈ S) : s.log.committing = false := by
  cases hc : s.log.committing with
  | false => rfl
  | true => simp [h.idle hc] at hp

section Ops

variable {b : UInt32}

theorem Ops.move (h : Ops s S) {l : Log} {x : Phase} (hact : x.Active ↔ (s.phase p).Active) (hx : ¬ x.Busy)
    (hout : l.outstanding = s.log.outstanding) (hcom : l.committing = s.log.committing) (hnodup : l.block.Nodup)
    (hsub : s.log.block ⊆ l.block) (hblocks : x.blocks ⊆ l.block.toFinset) : Ops (LogProtocol.set s p l x) S := by
  refine h.set ?_ (hout.trans h.outstanding) (hcom ▸ h.idle) ?_ (fun hb => absurd hb hx) hnodup hblocks ?_
  · intro q
    split_ifs with hq
    · rw [hq, h.mem, hact]
    · rfl
  · intro q hq
    rw [hcom]
    split_ifs at hq
    · exact absurd hq hx
    · exact h.busy q hq
  · intro q _ c hc
    exact List.mem_toFinset.mpr (hsub (List.mem_toFinset.mp (h.blocks q hc)))

theorem Ops.sleep (h : Ops s S) (hp : ¬ (s.phase p).Active) : Ops (LogProtocol.set s p s.log .asleep) S :=
  h.move ⟨False.elim, hp⟩ (by simp [Phase.Busy]) rfl rfl h.nodup (List.Subset.refl _) (by simp [Phase.blocks])

theorem Ops.enter (h : Ops s S) (hp : ¬ (s.phase p).Active) (hc : s.log.committing = false) :
    Ops (LogProtocol.set s p { s.log with outstanding := s.log.outstanding + 1 } (.inOp ∅)) (insert p S) := by
  refine h.set ?_ ?_ ?_ ?_ ?_ h.nodup ?_ (fun q _ => h.blocks q)
  · intro q
    split_ifs with hq
    · simp [hq, Phase.Active]
    · simp [hq]
  · rw [Finset.card_insert_of_notMem (h.notMem hp), h.outstanding]
    simp
  · intro hx
    rw [show s.log.committing = true from hx] at hc
    cases hc
  · intro q hq
    split_ifs at hq
    · simp [Phase.Busy] at hq
    · exact h.busy q hq
  · intro hx
    simp [Phase.Busy] at hx
  · simp [Phase.blocks]

theorem Ops.test (h : Ops s S) (hp : s.phase p = .inOp B) : Ops (LogProtocol.set s p s.log (.writing B b)) S := by
  have hB := h.blocks p
  rw [hp] at hB
  exact h.move (by simp [hp, Phase.Active]) (by simp [Phase.Busy]) rfl rfl h.nodup (List.Subset.refl _) hB

theorem Ops.record (h : Ops s S) (hp : s.phase p = .writing B b) :
    Ops (LogProtocol.set s p { s.log with block := absorb s.log.block b } (.inOp (insert b B))) S := by
  have hsub : s.log.block ⊆ absorb s.log.block b := fun x hx => (mem_absorb _ _ _).mpr (Or.inl hx)
  have hB := h.blocks p
  simp only [hp, Phase.blocks] at hB
  refine h.move (by simp [hp, Phase.Active]) (by simp [Phase.Busy]) rfl rfl (absorb_nodup h.nodup b) hsub ?_
  intro c hc
  rw [List.mem_toFinset]
  simp only [Phase.blocks, Finset.mem_insert] at hc
  rcases hc with rfl | hc
  · exact (mem_absorb _ _ _).mpr (Or.inr rfl)
  · exact hsub (List.mem_toFinset.mp (hB hc))

end Ops

theorem not_active_of_begin (hp : s.phase p = .outside ∨ s.phase p = .awake) : ¬ (s.phase p).Active := by
  rcases hp with hp | hp <;> simp [hp, Phase.Active]

theorem beginOp_inv (h : Inv s) (hp : s.phase p = .outside ∨ s.phase p = .awake) : Inv (beginOp s p) := by
  obtain ⟨S, ho, hr⟩ := h
  have hact := not_active_of_begin hp
  have hpS := ho.notMem hact
  have hsleep : Inv (set s p s.log .asleep) := by
    refine ⟨S, ho.sleep hact, hr.set ?_ ?_⟩
    · rw [sum_unused_update_notMem hpS]; exact hr.room
    · intro B b hx; simp at hx
  unfold beginOp
  split_ifs with hc hfull
  · exact hsleep
  · exact hsleep
  · have hcard : (insert p S).card = S.card + 1 := Finset.card_insert_of_notMem hpS
    refine ⟨insert p S, ho.enter hact (by simpa using hc), hr.set ?_ ?_⟩
    · have hle := sum_unused_le (insert p S) (update s.phase p (.inOp ∅))
      rw [hcard] at hle
      have ho' := ho.outstanding
      change s.log.block.length + _ ≤ LOGSIZE
      have hz : (s.log.block.length : ℤ) + ((S.card : ℤ) + 1) * MAXOPBLOCKS ≤ LOGSIZE := by
        rw [← ho']; omega
      have hn : s.log.block.length + (S.card + 1) * MAXOPBLOCKS ≤ LOGSIZE := by exact_mod_cast hz
      omega
    · intro B b hx; simp at hx

theorem logWrite_inv {b : UInt32} (h : Inv s) (hp : s.phase p = .inOp B)
    (hb : (insert b B).card ≤ MAXOPBLOCKS) : Inv (set s p s.log (.writing B b)) := by
  obtain ⟨S, ho, hr⟩ := h
  have hpS : p ∈ S := (ho.mem p).mpr (by simp [hp, Phase.Active])
  refine ⟨S, ho.test hp, hr.set ?_ ?_⟩
  · have hsum := sum_unused_update_mem hpS s.phase (.writing B b)
    have he : (s.phase p).unused = (Phase.writing B b).unused := by simp [hp, Phase.unused, Phase.blocks]
    have := hr.room
    omega
  · intro B' b' hx
    cases hx
    exact hb

theorem record_inv {b : UInt32} (h : Inv s) (hp : s.phase p = .writing B b) :
    Inv (set s p { s.log with block := absorb s.log.block b } (.inOp (insert b B))) := by
  obtain ⟨S, ho, hr⟩ := h
  have hpS : p ∈ S := (ho.mem p).mpr (by simp [hp, Phase.Active])
  have hB := ho.blocks p
  simp only [hp, Phase.blocks] at hB
  refine ⟨S, ho.record hp, hr.set ?_ ?_⟩
  · -- a new log entry uses up a block of the reservation of `p`
    have hsum := sum_unused_update_mem hpS s.phase (.inOp (insert b B))
    have hroom := hr.room
    have hbud := hr.budget p B b hp
    have hold : (s.phase p).unused = MAXOPBLOCKS - B.card := by simp [hp, Phase.unused, Phase.blocks]
    have hnew : (Phase.inOp (insert b B)).unused = MAXOPBLOCKS - (insert b B).card := rfl
    change (absorb s.log.block b).length + _ ≤ _
    have hle : B.card ≤ (insert b B).card := Finset.card_le_card (Finset.subset_insert b B)
    by_cases hb : b ∈ s.log.block
    · rw [absorb, if_pos hb]
      omega
    · have hbB : b ∉ B := fun hm => hb (List.mem_toFinset.mp (hB hm))
      have hc : (insert b B).card = B.card + 1 := Finset.card_insert_of_notMem hbB
      rw [absorb, if_neg hb, List.length_append, List.length_singleton]
      omega
  · intro B' b' hx; simp at hx

theorem endOp_ops (ho : Ops s S) (hpS : p ∈ S) (hx : ¬ x.Active) (hxb : x.blocks = ∅) (hblock : l.block = s.log.block)
    (hout : l.outstanding = s.log.outstanding - 1) (hidle : l.committing = true → S.erase p = ∅)
    (hbusy : x.Busy → l.committing = true) : Ops (set s p l x) (S.erase p) := by
  have hc := ho.committing hpS
  refine ho.set ?_ ?_ hidle ?_ ?_ (by rw [hblock]; exact ho.nodup) (by simp [hxb]) ?_
  · intro q
    split_ifs with hq
    · simp [hq, hx]
    · simp [hq]
  · rw [hout, ho.outstanding, Finset.card_erase_of_mem hpS]
    have := Finset.card_pos.mpr ⟨p, hpS⟩
    omega
  · intro q hq
    split_ifs at hq
    · exact hbusy hq
    · exact absurd hq (ho.not_busy hc q)
  · intro _ q hq
    exact absurd hq (ho.not_busy hc q)
  · intro q _
    rw [hblock]
    exact ho.blocks q

theorem endOp_last_ops (ho : Ops s S) (hp : s.phase p = .inOp B) (hlast : s.log.outstanding - 1 = 0) :
    Ops (set s p { s.log with outstanding := s.log.outstanding - 1, committing := true } .committing) (S.erase p) := by
  have hpS : p ∈ S := (ho.mem p).mpr (by simp [hp, Phase.Active])
  refine endOp_ops ho hpS (by simp [Phase.Active]) rfl rfl rfl ?_ (fun _ => rfl)
  intro _
  rw [← Finset.card_eq_zero, Finset.card_erase_of_mem hpS]
  have := ho.outstanding
  omega

theorem endOp_more_ops (ho : Ops s S) (hp : s.phase p = .inOp B) :
    Ops (set s p { s.log with outstanding := s.log.outstanding - 1 } .outside) (S.erase p) := by
  have hpS : p ∈ S := (ho.mem p).mpr (by simp [hp, Phase.Active])
  refine endOp_ops ho hpS (by simp [Phase.Active]) rfl rfl rfl ?_ (by simp [Phase.Busy])
  intro hx
  have hc := ho.committing hpS
  rw [show s.log.committing = true from hx] at hc
  cases hc

theorem endOp_reserved (hr : Reserved s S)
    (hpS : p ∈ S) (hblock : l.block = s.log.block) (hx : ∀ B b, x ≠ .writing B b) :
    Reserved (set s p l x) (S.erase p) := by
  refine hr.set ?_ (fun B b h => absurd h (hx B b))
  rw [sum_unused_update_notMem (Finset.notMem_erase p S), hblock]
  have hsum := Finset.add_sum_erase S (fun q => (s.phase q).unused) hpS
  have hroom := hr.room
  omega

theorem commit_ops (ho : Ops s S)
    (hp : (s.phase p).Busy) (hx : ¬ x.Active) (hxb : x.blocks = ∅) (hnodup : l.block.Nodup)
    (hout : l.outstanding = s.log.outstanding) (hbusy : x.Busy → l.committing = true) : Ops (set s p l x) ∅ := by
  have hS : S = ∅ := ho.idle (ho.busy p hp)
  subst hS
  refine ho.set ?_ (by rw [hout, ho.outstanding]) (fun _ => rfl) ?_ ?_ hnodup (by simp [hxb]) ?_
  · intro q
    split_ifs with hq
    · simp [hx]
    · rfl
  · intro q hq
    split_ifs at hq with he
    · exact hbusy hq
    · exact absurd (ho.alone q p hq hp) he
  · intro _ q hq
    exact ho.alone q p hq hp
  · intro q _
    have hq : ¬ (s.phase q).Active := fun ha => by simpa using (ho.mem q).mpr ha
    have he : (s.phase q).blocks = ∅ := by
      cases hx : s.phase q <;> simp [hx, Phase.Active] at hq <;> rfl
    simp [he]

theorem commit_inv (h : Inv s) (hp : (s.phase p).Busy) (hx : ¬ x.Active) (hxb : x.blocks = ∅) (hnodup : l.block.Nodup)
    (hlen : l.block.length ≤ s.log.block.length)
    (hout : l.outstanding = s.log.outstanding) (hbusy : x.Busy → l.committing = true) : Inv (set s p l x) := by
  obtain ⟨S, ho, hr⟩ := h
  refine ⟨∅, commit_ops ho hp hx hxb hnodup hout hbusy, hr.set ?_ ?_⟩
  · have := hr.room
    simp only [Finset.sum_empty]
    omega
  · rintro B b rfl
    exact absurd trivial hx

theorem step_inv {s t : Sys} {e : Event} (h : Inv s) (hb : Budgeted s e) (ht : Steps step s e t) : Inv t := by
  obtain ⟨p, rfl, hp, rfl⟩ | ⟨p, b, B, rfl, hp, rfl, _, _⟩ | ⟨p, b, B, rfl, hp, rfl⟩ |
    ⟨p, B, rfl, hp, hc, ho1, rfl⟩ | ⟨p, B, rfl, hp, hc, ho1, rfl⟩ | ⟨p, rfl, hp, rfl⟩ |
    ⟨p, rfl, hp, rfl⟩ := step_cases ht
  · exact beginOp_inv h hp
  · exact logWrite_inv h hp (by simpa [Budgeted, hp] using hb)
  · exact record_inv h hp
  · obtain ⟨S, ho, hr⟩ := h
    have hpS : p ∈ S := (ho.mem p).mpr (by simp [hp, Phase.Active])
    exact ⟨S.erase p, endOp_last_ops ho hp ho1, endOp_reserved hr hpS rfl (by simp)⟩
  · obtain ⟨S, ho, hr⟩ := h
    have hpS : p ∈ S := (ho.mem p).mpr (by simp [hp, Phase.Active])
    exact ⟨S.erase p, (endOp_more_ops ho hp).wakeup, Reserved.wakeup (endOp_reserved hr hpS rfl (by simp))⟩
  · have hbusy : (s.phase p).Busy := by simp [hp, Phase.Busy]
    obtain ⟨S, ho, _⟩ := id h
    exact commit_inv h hbusy (by simp [Phase.Active]) rfl List.nodup_nil (by simp) rfl
      (fun _ => ho.busy p hbusy)
  · have hbusy : (s.phase p).Busy := by simp [hp, Phase.Busy]
    obtain ⟨S, ho, hr⟩ := commit_inv h hbusy (l := { s.log with committing := false }) (x := .outside)
      (by simp [Phase.Active]) rfl (by obtain ⟨S, ho, _⟩ := h; exact ho.nodup) (Nat.le_refl _) rfl
      (by simp [Phase.Busy])
    exact ⟨S, ho.wakeup, hr.wakeup⟩

theorem Inv.length_le (h : Inv s) : s.log.block.length ≤ LOGSIZE := by
  obtain ⟨S, _, hr⟩ := h
  have := hr.room
  omega

end Xv6.LogProtocol
