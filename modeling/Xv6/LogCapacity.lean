import Xv6.LogReservation

namespace Xv6.LogProtocol

open RedoLog Transition

def Possible (s : Sys) (e : Event) : Prop := Budgeted s e ∧ (step s e).isSome

def Trouble (s : Sys) (e : Event) : Prop :=
  stopped (step s e) = some "too big a transaction" ∨
    ∃ p, e = .commit p ∧ ∃ i < s.log.block.length, ¬ InLog s.log (slot s.log.start i)

def logged (B : Finset UInt32) : Event → Finset UInt32
  | .record _ b => insert b B
  | .commit _ => ∅
  | _ => B

def RoomFor (B : Finset UInt32) : Event → Prop
  | .logWrite _ _ => B.card + 1 < nlog
  | .commit _ => B.card < nlog
  | _ => True

def Roomy : Finset UInt32 → List Event → Prop
  | _, [] => True
  | B, e :: es => RoomFor B e ∧ Roomy (logged B e) es

variable {s : Sys} {e : Event}

theorem logged_step {s t : Sys} (h : Steps step s e t) : t.log.block.toFinset = logged s.log.block.toFinset e := by
  obtain ⟨p, rfl, hp, rfl⟩ | ⟨p, b, B, rfl, hp, rfl, _, _⟩ | ⟨p, b, B, rfl, hp, rfl⟩ |
    ⟨p, B, rfl, hp, hc, ho1, rfl⟩ | ⟨p, B, rfl, hp, hc, ho1, rfl⟩ | ⟨p, rfl, hp, rfl⟩ |
    ⟨p, rfl, hp, rfl⟩ := step_cases h
  · simp only [beginOp, logged]
    split_ifs <;> rfl
  · rfl
  · ext c
    simp only [set, logged, List.mem_toFinset, mem_absorb, Finset.mem_insert]
    tauto
  · rfl
  · rfl
  · rfl
  · rfl

theorem area_step {s t : Sys} (h : Steps step s e t) : t.log.start = s.log.start ∧ t.log.size = s.log.size := by
  obtain ⟨p, rfl, hp, rfl⟩ | ⟨p, b, B, rfl, hp, rfl, _, _⟩ | ⟨p, b, B, rfl, hp, rfl⟩ |
    ⟨p, B, rfl, hp, hc, ho1, rfl⟩ | ⟨p, B, rfl, hp, hc, ho1, rfl⟩ | ⟨p, rfl, hp, rfl⟩ |
    ⟨p, rfl, hp, rfl⟩ := step_cases h
  · simp only [beginOp]
    split_ifs <;> exact ⟨rfl, rfl⟩
  all_goals exact ⟨rfl, rfl⟩

structure Area (s : Sys) : Prop where
  size : s.log.size = nlog
  fits : s.log.start.toNat + nlog ≤ 2 ^ 32

theorem slots_inLog_iff (ha : Area s) :
    (∀ i < s.log.block.length, InLog s.log (slot s.log.start i)) ↔ s.log.block.length < nlog := by
  have hn : nlog = 30 := rfl
  have hfit := ha.fits
  have hsize := ha.size
  constructor
  · intro h
    by_contra hlt
    have hi := h (nlog - 1) (by omega)
    simp only [InLog, slot, UInt32.toNat_add, UInt32.toNat_ofNat', hsize] at hi
    omega
  · intro h i hi
    have hs : (slot s.log.start i).toNat = s.log.start.toNat + i + 1 := slot_toNat (by omega)
    simp only [InLog, hs, hsize]
    omega

theorem tooBig_iff (ha : Area s) (he : (step s e).isSome) :
    stopped (step s e) = some "too big a transaction" ↔ ∃ p b, e = .logWrite p b ∧ nlog ≤ s.log.block.length + 1 := by
  have hL : LOGSIZE = nlog := rfl
  have hsize := ha.size
  rw [stopped_eq_some]
  constructor
  · intro h
    obtain ⟨p, b, B, rfl, _, _, hn⟩ | ⟨p, b, B, rfl, _, hm, _⟩ | ⟨p, B, rfl, _, hm, _⟩ := panic_cases h
    · exact ⟨p, b, rfl, by omega⟩
    · simp at hm
    · simp at hm
  · rintro ⟨p, b, rfl, hn⟩
    simp only [step] at he ⊢
    split at he
    · simp only [logWriteTests]
      rw [if_pos (by omega)]
    · cases he

theorem trouble_iff (h : Inv s) (ha : Area s) (he : (step s e).isSome) :
    ¬ Trouble s e ↔ RoomFor s.log.block.toFinset e := by
  obtain ⟨S, ho, hr⟩ := h
  have hcard : s.log.block.toFinset.card = s.log.block.length := List.toFinset_card_of_nodup ho.nodup
  rw [Trouble, tooBig_iff ha he]
  cases e with
  | logWrite p b =>
    simp only [RoomFor, hcard, reduceCtorEq, false_and, exists_false, or_false, Event.logWrite.injEq]
    constructor
    · intro h
      by_contra hn
      exact h ⟨p, b, ⟨rfl, rfl⟩, by omega⟩
    · rintro hn ⟨_, _, _, hlen⟩
      omega
  | commit p =>
    simp only [RoomFor, hcard, reduceCtorEq, false_and, exists_false, false_or, ← slots_inLog_iff ha]
    constructor
    · intro h i hi
      by_contra hn
      exact h ⟨p, rfl, i, hi, hn⟩
    · rintro h ⟨_, _, i, hi, hn⟩
      exact hn (h i hi)
  | beginOp p => simp [RoomFor]
  | record p b => simp [RoomFor]
  | endOp p | finish p => simp [RoomFor]

theorem step_ok (h : Inv s) (he : (step s e).isSome) (ht : ¬ Trouble s e) : ∃ t, Steps step s e t := by
  obtain ⟨r, hr⟩ := Option.isSome_iff_exists.mp he
  cases r with
  | ok t => exact ⟨t, hr⟩
  | error m =>
    obtain ⟨S, ho, _⟩ := h
    have hin : ∀ {p B}, s.phase p = .inOp B → p ∈ S := fun hp => (ho.mem _).mpr (by simp [hp, Phase.Active])
    obtain ⟨p, b, B, rfl, _, rfl, _⟩ | ⟨p, b, B, rfl, hp, _, hn⟩ | ⟨p, B, rfl, hp, _, hc⟩ := panic_cases hr
    · exact absurd (Or.inl (stopped_eq_some.mpr hr)) ht
    · have := Finset.card_pos.mpr ⟨p, hin hp⟩
      have := ho.outstanding
      omega
    · rw [ho.committing (hin hp)] at hc
      cases hc

theorem safe_iff_roomy (es : List Event) (h : Inv s) (ha : Area s) (hp : Along (Steps step) Possible s es) :
    Along (Steps step) (fun s e => ¬ Trouble s e) s es ↔ Roomy s.log.block.toFinset es := by
  induction es generalizing s with
  | nil => simp [Along, Roomy]
  | cons e es ih =>
    obtain ⟨⟨hb, he⟩, hrest⟩ := hp
    simp only [Along, Roomy]
    rw [trouble_iff h ha he]
    apply and_congr_right
    intro hroom
    obtain ⟨t, ht⟩ := step_ok h he ((trouble_iff h ha he).mpr hroom)
    have ha' : Area t := by
      obtain ⟨h1, h2⟩ := area_step ht
      exact ⟨h2 ▸ ha.size, h1 ▸ ha.fits⟩
    rw [← logged_step ht, ← ih (step_inv h hb ht) ha' (hrest t ht)]
    constructor
    · intro hall
      exact hall t ht
    · intro hall u hu
      rw [Steps, ht] at hu
      cases hu
      exact hall

theorem log_capacity (l : Log) (es : List Event) (hsize : l.size = nlog) (harea : l.start.toNat + nlog ≤ 2 ^ 32)
    (hp : Along (Steps step) Possible (start l) es) :
    (Along (Steps step) (fun s e => ¬ Trouble s e) (start l) es ↔ Roomy ∅ es) ∧
      Along (Steps step) (fun s _ => s.log.block.length ≤ LOGSIZE) (start l) es :=
  ⟨safe_iff_roomy es (inv_start l) ⟨hsize, harea⟩ hp,
    hp.invariant (fun _ _ _ hs hc ht => step_inv hs hc.1 ht) (fun _ _ hs _ => hs.length_le) (inv_start l)⟩

instance (s : Sys) (e : Event) : Decidable (Budgeted s e) := by
  unfold Budgeted
  split
  · split <;> infer_instance
  · infer_instance

instance (s : Sys) (e : Event) : Decidable (Possible s e) := inferInstanceAs (Decidable (_ ∧ _))

instance (B : Finset UInt32) (e : Event) : Decidable (RoomFor B e) := by
  unfold RoomFor
  split <;> infer_instance

instance decidableRoomy : (B : Finset UInt32) → (es : List Event) → Decidable (Roomy B es)
  | _, [] => .isTrue trivial
  | B, e :: es =>
    have := decidableRoomy (logged B e) es
    inferInstanceAs (Decidable (_ ∧ _))

def threeOps (n : ℕ) : List Event :=
  [.beginOp 0, .beginOp 1, .beginOp 2] ++
    (List.range (3 * n)).flatMap (fun i =>
      [.logWrite (i / n) (UInt32.ofNat (100 + i)), .record (i / n) (UInt32.ofNat (100 + i))])

def mkfsLog : Log := ⟨2, nlog, 0, false, []⟩

theorem log_capacity_threeOps :
    Along (Steps step) (fun s e => ¬ Trouble s e) (start mkfsLog) (threeOps 2) := by
  refine (log_capacity mkfsLog (threeOps 2) rfl (by decide) ?_).1.mpr ?_
  · decide
  · decide

theorem log_capacity_exhausted :
    Along (Steps step) Possible (start mkfsLog) (threeOps MAXOPBLOCKS) ∧
      ¬ Along (Steps step) (fun s e => ¬ Trouble s e) (start mkfsLog) (threeOps MAXOPBLOCKS) := by
  have hp : Along (Steps step) Possible (start mkfsLog) (threeOps MAXOPBLOCKS) := by decide +kernel
  refine ⟨hp, ?_⟩
  rw [safe_iff_roomy _ (inv_start mkfsLog) ⟨rfl, by decide⟩ hp]
  decide +kernel

end Xv6.LogProtocol
