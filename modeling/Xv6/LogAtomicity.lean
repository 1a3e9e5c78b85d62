import Xv6.LogCrash

namespace Xv6.RedoLog

open ByteMemory CrashWrites

structure Quiet (s : State) : Prop where
  area : s.log.start.toNat + s.log.size ≤ 2 ^ 32
  header : word (s.disk s.log.start) 0 = 0
  block : s.log.block = []
  cache : ∀ b buf, s.cache b = some buf → buf.data = s.disk b
  writes : s.writes = []

theorem Quiet.view {s : State} (h : Quiet s) : view s = s.disk := by
  funext b
  cases hb : s.cache b with
  | none => simp [RedoLog.view, hb]
  | some buf => simp [RedoLog.view, hb, h.cache b buf hb]

structure Recorded (s : State) (us : List (UInt32 × Bytes)) (t : State) : Prop where
  disk : t.disk = s.disk
  writes : t.writes = s.writes
  view : view t = apply (view s) us
  start : t.log.start = s.log.start
  size : t.log.size = s.log.size
  nodup : t.log.block.Nodup
  mem : ∀ b, b ∈ t.log.block ↔ b ∈ us.map Prod.fst
  logsize : t.log.block.length ≤ LOGSIZE
  length : t.log.block = [] ∨ (t.log.block.length : ℤ) ≤ s.log.size - 1

theorem logWrite_recorded {s t u : State} {us : List (UInt32 × Bytes)} {b : UInt32} {data : Bytes}
    (h : Recorded s us t) (hw : logWrite t b data = .ok u) : Recorded s (us ++ [(b, data)]) u := by
  simp only [logWrite] at hw
  split_ifs at hw with hbig hout
  obtain ⟨hn, hsize⟩ := not_or.mp hbig
  cases hw
  have hlen := absorb_length t.log.block b
  have hsz := h.size
  refine ⟨h.disk, h.writes, ?_, h.start, h.size, absorb_nodup h.nodup b, ?_, ?_, Or.inr ?_⟩
  · funext c
    rw [apply_append, ← h.view]
    by_cases hc : c = b
    · subst hc; simp [RedoLog.view]
    · simp [RedoLog.view, Function.update_of_ne hc]
  · intro c
    rw [mem_absorb, h.mem]
    simp
  · change (absorb t.log.block b).length ≤ LOGSIZE
    omega
  · change ((absorb t.log.block b).length : ℤ) ≤ _
    omega

theorem logWriteAll_recorded {s t u : State} {us vs : List (UInt32 × Bytes)}
    (h : Recorded s us t) (hw : logWriteAll t vs = .ok u) : Recorded s (us ++ vs) u := by
  induction vs generalizing t us with
  | nil =>
    cases hw
    simpa using h
  | cons w vs ih =>
    simp only [logWriteAll, bind, Except.bind] at hw
    cases hl : logWrite t w.1 w.2 with
    | error e => simp [hl] at hw
    | ok t' =>
      rw [hl] at hw
      have hr := ih (logWrite_recorded h hl) hw
      simpa only [List.append_assoc, List.singleton_append] using hr

theorem Quiet.recorded {s : State} (h : Quiet s) : Recorded s [] s :=
  ⟨rfl, rfl, rfl, rfl, rfl, by simp [h.block], by simp [h.block], by simp [h.block], Or.inl h.block⟩

theorem inLog_congr {l m : Log} (hs : m.start = l.start) (hz : m.size = l.size) (b : UInt32) :
    InLog m b ↔ InLog l b := by
  simp only [InLog, hs, hz]

theorem Recorded.view_other {s t : State} {us : List (UInt32 × Bytes)} (h : Quiet s) (hr : Recorded s us t)
    {b : UInt32} (hb : b ∉ t.log.block) : RedoLog.view t b = s.disk b := by
  rw [hr.view, h.view]
  apply apply_other
  rintro u hu rfl
  exact hb ((hr.mem _).mpr (List.mem_map.mpr ⟨u, hu, rfl⟩))

section Transaction

variable {s t : State} {us : List (UInt32 × Bytes)} (h : Quiet s) (hr : Recorded s us t)
  (hus : ∀ u ∈ us, ¬ InLog s.log u.1)

include h hr hus

theorem Recorded.fits (hne : t.log.block ≠ []) : Fits t.log t.log.block := by
  refine ⟨?_, List.length_pos_iff.mpr hne, ?_, hr.logsize, hr.nodup, ?_⟩
  · rw [hr.start, hr.size]
    exact h.area
  · rw [hr.size]
    exact hr.length.resolve_left hne
  · intro b hb
    rw [inLog_congr hr.start hr.size]
    obtain ⟨u, hu, rfl⟩ := List.mem_map.mp ((hr.mem b).mp hb)
    exact hus u hu

theorem Recorded.crash_before (hne : t.log.block ≠ []) (k : ℕ) :
    Clean t.log s.disk (crashed s.disk (slotWrites t.log.start (RedoLog.view t) 0 t.log.block) k) := by
  have hf := hr.fits h hus hne
  have hslots : ∀ b, (∀ i, i < t.log.block.length → slot t.log.start i ≠ b) →
      crashed s.disk (slotWrites t.log.start (RedoLog.view t) 0 t.log.block) k b = s.disk b := by
    intro b hb
    apply crashed_other
    intro w hw he
    obtain ⟨i, _, hi, hw⟩ := mem_slotWrites hw
    exact hb i (by omega) (hw.symm.trans he)
  constructor
  · rw [hslots _ (fun i hi => hf.slot_ne_start hi), hr.start]
    exact h.header
  · intro b hb
    exact hslots b (fun i hi he => hb (he ▸ hf.slot_inLog hi))

theorem Recorded.crash_after (hne : t.log.block ≠ []) (k : ℕ) :
    let D := crashed s.disk (commitWrites t.log (RedoLog.view t) t.log.block) (t.log.block.length + 1 + k)
    Committed t.log (RedoLog.view t) t.log.block D ∨ Clean t.log (RedoLog.view t) D := by
  have hf := hr.fits h hus hne
  set v := RedoLog.view t with hv
  set E := Function.update (apply s.disk (slotWrites t.log.start v 0 t.log.block)) t.log.start
    (putHeader (v t.log.start) t.log.block) with hE
  have hstart : E t.log.start = putHeader (v t.log.start) t.log.block := by simp [hE]
  have hE' : Committed t.log v t.log.block E := by
    refine ⟨?_, ?_, ?_⟩
    · rw [hstart]
      exact getHeader_putHeader _ _ hf.logsize
    · intro i hi
      rw [hE, Function.update_of_ne (hf.slot_ne_start hi)]
      exact hf.slotWrites_get _ _ hi
    · intro b hb hm
      have hne : b ≠ t.log.start := fun he => hb (he ▸ hf.start_inLog)
      rw [hE, Function.update_of_ne hne, hv, hr.view_other h hm]
      apply apply_other
      intro w hw he
      obtain ⟨i, _, hi, hw⟩ := mem_slotWrites hw
      exact hb (he ▸ hw ▸ hf.slot_inLog (by omega))
  -- from the commit point on, commit writes what a recovery would write
  have hcrash : crashed s.disk (commitWrites t.log v t.log.block) (t.log.block.length + 1 + k) =
      crashed E (recoverWrites t.log E) k := by
    rw [hE'.recoverWrites hf, hstart, commitWrites, crashed_append_ge _ _ _ (by rw [slotWrites_length]; omega),
      crashed_append_ge _ _ _ (by rw [slotWrites_length, List.length_singleton]; omega)]
    rw [slotWrites_length, List.length_singleton, apply_cons, apply_nil]
    congr 1
    omega
  dsimp only
  rw [hcrash]
  exact hE'.crashed hf k

end Transaction

theorem homeEq_congr {l m : Log} (hs : m.start = l.start) (hz : m.size = l.size) {D E : UInt32 → Bytes}
    (h : HomeEq m D E) : HomeEq l D E :=
  fun b hb => h b (fun hm => hb ((inLog_congr hs hz b).mp hm))

theorem recoverWrites_congr {l m : Log} (hs : m.start = l.start) (hz : m.size = l.size) :
    recoverWrites m = recoverWrites l := by
  funext D
  simp only [recoverWrites, hs, hz]

theorem commit_crash_atomic (s t : State) (us : List (UInt32 × Bytes)) (k : ℕ) (D : UInt32 → Bytes)
    (h : Quiet s) (hus : ∀ u ∈ us, ¬ InLog s.log u.1) (ht : logWriteAll s us = .ok t)
    (hD : Recovers (recoverWrites s.log) (crashed s.disk (commit t).writes k) D) :
    (HomeEq s.log D s.disk ∨ HomeEq s.log D (apply s.disk us)) ∧
      ((writeHead (writeLog t)).writes.length ≤ k → HomeEq s.log D (apply s.disk us)) ∧
      (recoverFromLog (boot s.log.start s.log.size D)).disk = D := by
  have hr : Recorded s us t := logWriteAll_recorded h.recorded ht
  have hview : view t = apply s.disk us := by rw [hr.view, h.view]
  rw [← recoverWrites_congr hr.start hr.size] at hD
  rw [← hr.start, ← hr.size]
  by_cases hne : t.log.block = []
  · -- nothing was recorded, so commit does nothing
    have hus : us = [] := by
      cases us with
      | nil => rfl
      | cons u us =>
        have := (hr.mem u.1).mpr (by simp)
        simp [hne] at this
    have hw : (commit t).writes = [] := by rw [commit, if_neg (by simp [hne]), hr.writes, h.writes]
    have hc : Clean t.log s.disk s.disk := ⟨by rw [hr.start]; exact h.header, fun _ _ => rfl⟩
    rw [hw, crashed_nil] at hD
    have hclean := recovers_clean hc hD
    have hhome := homeEq_congr hr.start hr.size hclean.home
    exact ⟨Or.inl hhome, fun _ => by rw [hus]; exact hhome, hclean.recovered⟩
  · have hf := hr.fits h hus hne
    have hw : (commit t).writes = commitWrites t.log (view t) t.log.block := by
      rw [(commit_traced t hf).writes, hr.writes, h.writes, List.nil_append]
    have hp : (writeHead (writeLog t)).writes.length = t.log.block.length + 1 := by
      rw [(writeHead_writeLog_traced t hf).writes, hr.writes, h.writes]
      simp [slotWrites_length]
    rw [hw] at hD
    by_cases hk : k ≤ t.log.block.length
    · rw [commitWrites, crashed_append_le _ _ _ (by rw [slotWrites_length]; exact hk)] at hD
      have hclean := recovers_clean (hr.crash_before h hus hne k) hD
      exact ⟨Or.inl (homeEq_congr hr.start hr.size hclean.home), fun hk' => by omega, hclean.recovered⟩
    · obtain ⟨j, rfl⟩ : ∃ j, k = t.log.block.length + 1 + j := ⟨k - (t.log.block.length + 1), by omega⟩
      have hclean := recovers_committed hf (hr.crash_after h hus hne j) hD
      have hhome := homeEq_congr hr.start hr.size hclean.home
      rw [hview] at hhome
      exact ⟨Or.inr hhome, fun _ => hhome, hclean.recovered⟩

def zeroed : State := ⟨fun _ => zero, fun _ => none, ⟨2, nlog, 1, false, []⟩, []⟩

theorem zeroed_quiet : Quiet zeroed :=
  ⟨by decide, word_zero 0, rfl, by intro b buf hb; simp [zeroed] at hb, rfl⟩

def twoBlocks : List (UInt32 × Bytes) := [(100, fill 7), (101, fill 8), (100, fill 9)]

theorem commit_crash_atomic_zeroed : ∃ t, logWriteAll zeroed twoBlocks = .ok t ∧ t.log.block.length = 2 ∧
    ∀ k, let crash := crashed zeroed.disk (commit t).writes k
      let D := (recoverFromLog (boot zeroed.log.start zeroed.log.size crash)).disk
      (HomeEq zeroed.log D zeroed.disk ∨ HomeEq zeroed.log D (apply zeroed.disk twoBlocks)) ∧
        (3 ≤ k → HomeEq zeroed.log D (apply zeroed.disk twoBlocks)) := by
  refine ⟨_, rfl, rfl, fun k => ?_⟩
  have hus : ∀ u ∈ twoBlocks, ¬ InLog zeroed.log u.1 := by
    simp only [twoBlocks, List.forall_mem_cons, InLog]
    decide
  dsimp only
  rw [recover_disk]
  obtain ⟨hatomic, hdone, -⟩ := commit_crash_atomic zeroed _ twoBlocks k _ zeroed_quiet hus rfl (.finish _)
  exact ⟨hatomic, fun hk => hdone (le_trans (by decide) hk)⟩

end Xv6.RedoLog
