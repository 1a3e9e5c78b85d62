import Xv6.RedoLog

namespace Xv6.RedoLog

open ByteMemory CrashWrites

def view (s : State) : UInt32 → Bytes := fun b => (s.cache b).elim (s.disk b) Buf.data

structure Traced (s t : State) (ws : List (UInt32 × Bytes)) : Prop where
  disk : t.disk = apply s.disk ws
  view : view t = apply (view s) ws
  writes : t.writes = s.writes ++ ws

theorem Traced.refl (s : State) : Traced s s [] := ⟨rfl, rfl, by simp⟩

variable {s : State} {v D : UInt32 → Bytes} {start : UInt32}

theorem Traced.trans {s t u : State} {ws vs : List (UInt32 × Bytes)}
    (h : Traced s t ws) (h' : Traced t u vs) : Traced s u (ws ++ vs) := by
  refine ⟨?_, ?_, ?_⟩
  · rw [h'.disk, h.disk, apply_append]
  · rw [h'.view, h.view, apply_append]
  · rw [h'.writes, h.writes, List.append_assoc]

theorem bread_fst (s : State) (b : UInt32) : (bread s b).1 = view s b := by
  unfold bread view
  cases h : s.cache b <;> simp

theorem bread_log (s : State) (b : UInt32) : (bread s b).2.log = s.log := by
  unfold bread
  cases h : s.cache b <;> rfl

theorem bread_traced (s : State) (b : UInt32) : Traced s (bread s b).2 [] := by
  unfold bread
  cases h : s.cache b with
  | some buf => exact .refl s
  | none =>
    refine ⟨rfl, ?_, by simp⟩
    funext c
    by_cases hc : c = b
    · subst hc; simp [view, h]
    · simp [view, Function.update_of_ne hc]

theorem bread_view (s : State) (b : UInt32) : view (bread s b).2 = view s := (bread_traced s b).view

theorem bwrite_traced (s : State) (b : UInt32) (data : Bytes) : Traced s (bwrite s b data) [(b, data)] := by
  refine ⟨rfl, ?_, rfl⟩
  funext c
  by_cases hc : c = b
  · subst hc; simp [view, bwrite]
  · simp [view, bwrite, Function.update_of_ne hc]

theorem bwrite_log (s : State) (b : UInt32) (data : Bytes) : (bwrite s b data).log = s.log := rfl

def slotWrites (start : UInt32) (v : UInt32 → Bytes) (tail : ℕ) : List UInt32 → List (UInt32 × Bytes)
  | [] => []
  | b :: bs => (slot start tail, v b) :: slotWrites start v (tail + 1) bs

def homeWrites (start : UInt32) (v : UInt32 → Bytes) (tail : ℕ) : List UInt32 → List (UInt32 × Bytes)
  | [] => []
  | b :: bs => (b, v (slot start tail)) :: homeWrites start v (tail + 1) bs

theorem slotWrites_length (start : UInt32) (v : UInt32 → Bytes) (tail : ℕ) (bs : List UInt32) :
    (slotWrites start v tail bs).length = bs.length := by
  induction bs generalizing tail with
  | nil => rfl
  | cons b bs ih => simp [slotWrites, ih]

theorem slotWrites_congr (start : UInt32) {v w : UInt32 → Bytes} (tail : ℕ) (bs : List UInt32)
    (h : ∀ b ∈ bs, v b = w b) : slotWrites start v tail bs = slotWrites start w tail bs := by
  induction bs generalizing tail with
  | nil => rfl
  | cons b bs ih =>
    simp only [slotWrites]
    rw [h b List.mem_cons_self, ih _ (fun c hc => h c (List.mem_cons_of_mem _ hc))]

theorem homeWrites_congr (start : UInt32) {v w : UInt32 → Bytes} (tail : ℕ) (bs : List UInt32)
    (h : ∀ i, tail ≤ i → i < tail + bs.length → v (slot start i) = w (slot start i)) :
    homeWrites start v tail bs = homeWrites start w tail bs := by
  induction bs generalizing tail with
  | nil => rfl
  | cons b bs ih =>
    simp only [homeWrites, List.length_cons] at h ⊢
    rw [h tail (Nat.le_refl _) (by omega), ih _ (fun i hi hj => h i (by omega) (by omega))]

theorem homeWrites_eq_map (v w : UInt32 → Bytes) (cs : List UInt32) (tail : ℕ)
    (h : ∀ k (hk : k < cs.length), w (slot start (tail + k)) = v cs[k]) :
    homeWrites start w tail cs = cs.map (fun b => (b, v b)) := by
  induction cs generalizing tail with
  | nil => rfl
  | cons c cs ih =>
    have h0 := h 0 (by simp)
    simp only [homeWrites, List.map_cons]
    rw [ih (tail + 1) (fun k hk => by
      have := h (k + 1) (by simpa using hk)
      rw [show tail + 1 + k = tail + (k + 1) by omega, this]
      simp)]
    simpa using h0

theorem mem_slotWrites {tail : ℕ} {bs : List UInt32} {w : UInt32 × Bytes}
    (h : w ∈ slotWrites start v tail bs) : ∃ i, tail ≤ i ∧ i < tail + bs.length ∧ w.1 = slot start i := by
  induction bs generalizing tail with
  | nil => simp [slotWrites] at h
  | cons b bs ih =>
    rcases List.mem_cons.mp h with rfl | h
    · exact ⟨tail, Nat.le_refl _, by simp, rfl⟩
    · obtain ⟨i, hi, hj, he⟩ := ih h
      exact ⟨i, by omega, by simp only [List.length_cons]; omega, he⟩

def Apart (start : UInt32) (tail : ℕ) (bs : List UInt32) : Prop :=
  ∀ b ∈ bs, ∀ i, tail ≤ i → i < tail + bs.length → b ≠ slot start i

theorem Apart.tail {tail : ℕ} {b : UInt32} {bs : List UInt32}
    (h : Apart start tail (b :: bs)) : Apart start (tail + 1) bs := by
  intro c hc i hi hj
  exact h c (List.mem_cons_of_mem _ hc) i (by omega) (by simp only [List.length_cons]; omega)

theorem writeLogLoop_log (s : State) (tail : ℕ) (bs : List UInt32) :
    (writeLogLoop s tail bs).log = s.log := by
  induction bs generalizing s tail with
  | nil => rfl
  | cons b bs ih => simp only [writeLogLoop, ih, bwrite_log, bread_log]

theorem writeLogLoop_traced (s : State) (tail : ℕ) (bs : List UInt32) (h : Apart s.log.start tail bs) :
    Traced s (writeLogLoop s tail bs) (slotWrites s.log.start (view s) tail bs) := by
  induction bs generalizing s tail with
  | nil => exact .refl s
  | cons b bs ih =>
    simp only [writeLogLoop, slotWrites, bread_fst, bread_view]
    set f := bread (bread s (slot s.log.start tail)).2 b with hf
    have hlog : f.2.log = s.log := by rw [hf, bread_log, bread_log]
    have hread : Traced s f.2 [] := (bread_traced s _).trans (bread_traced _ _)
    have hstep := hread.trans (bwrite_traced f.2 (slot s.log.start tail) (view s b))
    have hrest := ih (bwrite f.2 (slot s.log.start tail) (view s b)) (tail + 1)
      (by rw [bwrite_log, hlog]; exact h.tail)
    rw [bwrite_log, hlog] at hrest
    -- the write to the slot is not seen by the reads of the blocks still to be logged
    have hview : slotWrites s.log.start (view (bwrite f.2 (slot s.log.start tail) (view s b))) (tail + 1) bs =
        slotWrites s.log.start (view s) (tail + 1) bs := by
      apply slotWrites_congr
      intro c hc
      rw [hstep.view]
      apply apply_other
      intro w hw
      simp only [List.nil_append, List.mem_singleton] at hw
      subst hw
      exact Ne.symm (h c (List.mem_cons_of_mem _ hc) tail (Nat.le_refl _) (by simp))
    rw [hview] at hrest
    exact hstep.trans hrest

theorem installTransLoop_log (s : State) (tail : ℕ) (bs : List UInt32) :
    (installTransLoop s tail bs).log = s.log := by
  induction bs generalizing s tail with
  | nil => rfl
  | cons b bs ih => simp only [installTransLoop, ih, bwrite_log, bread_log]

theorem installTransLoop_traced (s : State) (tail : ℕ) (bs : List UInt32) (h : Apart s.log.start tail bs) :
    Traced s (installTransLoop s tail bs) (homeWrites s.log.start (view s) tail bs) := by
  induction bs generalizing s tail with
  | nil => exact .refl s
  | cons b bs ih =>
    simp only [installTransLoop, homeWrites, bread_fst]
    set d := bread (bread s (slot s.log.start tail)).2 b with hd
    have hlog : d.2.log = s.log := by rw [hd, bread_log, bread_log]
    have hread : Traced s d.2 [] := (bread_traced s _).trans (bread_traced _ _)
    have hstep := hread.trans (bwrite_traced d.2 b (view s (slot s.log.start tail)))
    have hrest := ih (bwrite d.2 b (view s (slot s.log.start tail))) (tail + 1)
      (by rw [bwrite_log, hlog]; exact h.tail)
    rw [bwrite_log, hlog] at hrest
    have hview : homeWrites s.log.start (view (bwrite d.2 b (view s (slot s.log.start tail)))) (tail + 1) bs =
        homeWrites s.log.start (view s) (tail + 1) bs := by
      apply homeWrites_congr
      intro i hi hj
      rw [hstep.view]
      apply apply_other
      intro w hw
      simp only [List.nil_append, List.mem_singleton] at hw
      subst hw
      exact h b List.mem_cons_self i (by omega) (by simp only [List.length_cons]; omega)
    rw [hview] at hrest
    exact hstep.trans hrest

def Journalled (D : UInt32 → Bytes) (s : State) : Prop := s.disk = apply D s.writes

theorem Traced.journalled {s t : State} {ws : List (UInt32 × Bytes)}
    (h : Traced s t ws) (hs : Journalled D s) : Journalled D t := by
  rw [Journalled, h.disk, h.writes, hs, apply_append]

theorem installTransLoop_journalled (hs : Journalled D s) (tail : ℕ)
    (bs : List UInt32) : Journalled D (installTransLoop s tail bs) := by
  induction bs generalizing s tail with
  | nil => exact hs
  | cons b bs ih =>
    exact ih ((bwrite_traced _ _ _).journalled ((bread_traced _ _).journalled ((bread_traced _ _).journalled hs))) _

theorem readHead_traced (s : State) : Traced s (readHead s) [] := by
  have h := bread_traced s s.log.start
  exact ⟨h.disk, h.view, h.writes⟩

theorem readHead_log (s : State) :
    (readHead s).log = { s.log with block := getHeader (view s s.log.start) } := by
  simp only [readHead, bread_log, bread_fst]

theorem clearHead_traced (s : State) : Traced s (clearHead s) [] := ⟨rfl, rfl, by simp [clearHead]⟩

theorem writeHead_traced (s : State) :
    Traced s (writeHead s) [(s.log.start, putHeader (view s s.log.start) s.log.block)] := by
  simp only [writeHead, bread_fst]
  exact (bread_traced s s.log.start).trans (bwrite_traced _ _ _)

theorem recoverFromLog_journalled (hs : Journalled D s) : Journalled D (recoverFromLog s) := by
  have h1 := (readHead_traced s).journalled hs
  have h2 : Journalled D (installTrans (readHead s)) := installTransLoop_journalled h1 _ _
  exact (writeHead_traced _).journalled ((clearHead_traced _).journalled h2)

theorem writeHead_log (s : State) : (writeHead s).log = s.log := by
  simp only [writeHead, bwrite_log, bread_log]

end Xv6.RedoLog
