import Xv6.LogTrace

namespace Xv6.RedoLog

open ByteMemory CrashWrites

theorem putBlocks_word_le (h : Bytes) (bs : List UInt32) {i j : ℕ} (hj : j ≤ i) :
    word (putBlocks h i bs) j = word h j := by
  induction bs generalizing h i with
  | nil => rfl
  | cons b bs ih =>
    rw [putBlocks, ih _ (by omega), word_setWord_ne _ _ (by omega)]

theorem putBlocks_word (h : Bytes) (bs : List UInt32) (i k : ℕ) (hk : k < bs.length) :
    word (putBlocks h i bs) (i + 1 + k) = (bs[k]).toNat := by
  induction bs generalizing h i k with
  | nil => simp at hk
  | cons b bs ih =>
    cases k with
    | zero =>
      rw [putBlocks, putBlocks_word_le _ _ (by omega)]
      exact word_setWord_same _ _ b.toNat_lt
    | succ k =>
      have hk' : k < bs.length := by simpa using hk
      rw [putBlocks, show i + 1 + (k + 1) = i + 1 + 1 + k by omega, ih _ _ _ hk', List.getElem_cons_succ]

theorem getHeader_putHeader (h : Bytes) (bs : List UInt32) (hb : bs.length ≤ LOGSIZE) :
    getHeader (putHeader h bs) = bs := by
  have hL : LOGSIZE = 30 := rfl
  have hn : headerCount (putHeader h bs) = bs.length := by
    have hw : word (putHeader h bs) 0 = bs.length := by
      rw [putHeader, putBlocks_word_le _ _ (Nat.le_refl 0), word_setWord_same _ _ (by omega)]
    simp only [headerCount, hw]
    rw [if_pos (by omega)]
  apply List.ext_getElem
  · simp [getHeader, hn]
  · intro k h1 h2
    simp only [getHeader, List.getElem_map, List.getElem_range]
    have hw := putBlocks_word (setWord h 0 bs.length) bs 0 k h2
    rw [show k + 1 = 0 + 1 + k by omega]
    rw [putHeader, hw]
    exact UInt32.ofNat_toNat

theorem putHeader_nil_word (h : Bytes) : word (putHeader h []) 0 = 0 :=
  word_setWord_same h 0 (by decide)

theorem putHeader_nil_of_empty {h : Bytes} (hw : word h 0 = 0) : putHeader h [] = h := by
  have he := setWord_word h 0
  rw [hw] at he
  exact he

theorem getHeader_of_empty {h : Bytes} (hw : word h 0 = 0) : getHeader h = [] := by
  simp [getHeader, headerCount, hw]

def InLog (l : Log) (b : UInt32) : Prop := l.start.toNat ≤ b.toNat ∧ (b.toNat : ℤ) < l.start.toNat + l.size

def HomeEq (l : Log) (D E : UInt32 → Bytes) : Prop := ∀ b, ¬ InLog l b → D b = E b

theorem slot_toNat {start : UInt32} {i : ℕ} (h : start.toNat + i + 1 < 2 ^ 32) :
    (slot start i).toNat = start.toNat + i + 1 := by
  rw [slot, UInt32.toNat_add, UInt32.toNat_ofNat']
  omega

structure Fits (l : Log) (bs : List UInt32) : Prop where
  area : l.start.toNat + l.size ≤ 2 ^ 32
  pos : 0 < bs.length
  length : (bs.length : ℤ) ≤ l.size - 1
  logsize : bs.length ≤ LOGSIZE
  nodup : bs.Nodup
  home : ∀ b ∈ bs, ¬ InLog l b

section Fits

variable {l : Log} {bs : List UInt32} (hf : Fits l bs)

include hf

theorem Fits.slot_toNat {i : ℕ} (hi : i < bs.length) : (slot l.start i).toNat = l.start.toNat + i + 1 := by
  have h1 := hf.area
  have h2 := hf.length
  exact RedoLog.slot_toNat (by omega)

theorem Fits.slot_inLog {i : ℕ} (hi : i < bs.length) : InLog l (slot l.start i) := by
  have h1 := hf.length
  simp only [InLog, hf.slot_toNat hi]
  omega

theorem Fits.start_inLog : InLog l l.start := by
  have h1 := hf.length
  have h2 := hf.pos
  simp only [InLog]
  omega

theorem Fits.slot_ne_start {i : ℕ} (hi : i < bs.length) : slot l.start i ≠ l.start := by
  intro he
  have h1 := hf.slot_toNat hi
  rw [he] at h1
  omega

theorem Fits.slot_injective {i j : ℕ} (hi : i < bs.length) (hj : j < bs.length)
    (he : slot l.start i = slot l.start j) : i = j := by
  have h1 := hf.slot_toNat hi
  have h2 := hf.slot_toNat hj
  rw [he] at h1
  omega

theorem Fits.apart : Apart l.start 0 bs := by
  intro b hb i _ hi he
  exact hf.home b hb (he ▸ hf.slot_inLog (by omega))

theorem Fits.start_ne {b : UInt32} (hb : b ∈ bs) : b ≠ l.start := by
  intro he
  exact hf.home b hb (he ▸ hf.start_inLog)

theorem Fits.slotWrites_get (v d : UInt32 → Bytes) {i : ℕ} (hi : i < bs.length) :
    apply d (slotWrites l.start v 0 bs) (slot l.start i) = v bs[i] := by
  have hgen : ∀ (tail : ℕ) (cs : List UInt32) (d : UInt32 → Bytes), tail + cs.length ≤ bs.length →
      ∀ k (hk : k < cs.length), apply d (slotWrites l.start v tail cs) (slot l.start (tail + k)) = v cs[k] := by
    intro tail cs
    induction cs generalizing tail with
    | nil => intro d _ k hk; simp at hk
    | cons c cs ih =>
      intro d hlen k hk
      simp only [List.length_cons] at hlen hk
      cases k with
      | zero =>
        rw [slotWrites, apply_cons, apply_other]
        · simp
        · intro w hw he
          obtain ⟨j, hj1, hj2, hj⟩ := mem_slotWrites hw
          have := hf.slot_injective (by omega) (by omega) (hj.symm.trans he)
          omega
      | succ k =>
        rw [slotWrites, apply_cons, show tail + (k + 1) = tail + 1 + k by omega, ih _ _ (by omega) _ (by omega)]
        simp
  simpa using hgen 0 bs d (by omega) i hi

end Fits

def commitWrites (l : Log) (v : UInt32 → Bytes) (bs : List UInt32) : List (UInt32 × Bytes) :=
  slotWrites l.start v 0 bs ++ ([(l.start, putHeader (v l.start) bs)] ++
    (bs.map (fun b => (b, v b)) ++ [(l.start, putHeader (putHeader (v l.start) bs) [])]))

variable {l : Log} {bs : List UInt32} {v D : UInt32 → Bytes}

theorem slotWrites_start (hf : Fits l bs) (v d : UInt32 → Bytes) :
    apply d (slotWrites l.start v 0 bs) l.start = d l.start := by
  apply apply_other
  intro w hw he
  obtain ⟨i, _, hi, hw⟩ := mem_slotWrites hw
  exact hf.slot_ne_start (by omega) (hw.symm.trans he)

theorem homeWrites_start (hf : Fits l bs) (v d : UInt32 → Bytes) :
    apply d (bs.map (fun b => (b, v b))) l.start = d l.start := by
  apply apply_other
  intro w hw he
  obtain ⟨b, hb, rfl⟩ := List.mem_map.mp hw
  exact hf.start_ne hb he

theorem writeHead_writeLog_traced (s : State) (hf : Fits s.log s.log.block) :
    Traced s (writeHead (writeLog s)) (slotWrites s.log.start (view s) 0 s.log.block ++
      [(s.log.start, putHeader (view s s.log.start) s.log.block)]) := by
  have h1 : Traced s (writeLog s) (slotWrites s.log.start (view s) 0 s.log.block) :=
    writeLogLoop_traced s 0 s.log.block hf.apart
  have hlog : (writeLog s).log = s.log := writeLogLoop_log s 0 s.log.block
  have h2 := writeHead_traced (writeLog s)
  rw [hlog, h1.view, slotWrites_start hf] at h2
  exact h1.trans h2

theorem commit_traced (s : State) (hf : Fits s.log s.log.block) :
    Traced s (commit s) (commitWrites s.log (view s) s.log.block) := by
  set t := writeHead (writeLog s) with ht
  have h1 := writeHead_writeLog_traced s hf
  have hlog : t.log = s.log := by rw [ht, writeHead_log]; exact writeLogLoop_log s 0 s.log.block
  have h2 : Traced t (installTrans t) (homeWrites t.log.start (view t) 0 t.log.block) :=
    installTransLoop_traced t 0 t.log.block (by rw [hlog]; exact hf.apart)
  -- each log slot now holds the contents of the block recorded for it
  have hslots : homeWrites t.log.start (view t) 0 t.log.block =
      s.log.block.map (fun b => (b, view s b)) := by
    rw [hlog]
    apply homeWrites_eq_map
    intro k hk
    rw [h1.view, Nat.zero_add, apply_append, apply_cons, apply_nil,
      Function.update_of_ne (hf.slot_ne_start hk), hf.slotWrites_get _ _ hk]
  rw [hslots] at h2
  have h3 := clearHead_traced (installTrans t)
  have h4 := writeHead_traced (clearHead (installTrans t))
  have hstart : (clearHead (installTrans t)).log.start = s.log.start := by
    change (installTrans t).log.start = _
    rw [installTrans, installTransLoop_log, hlog]
  have hhead : view (clearHead (installTrans t)) s.log.start = putHeader (view s s.log.start) s.log.block := by
    rw [h3.view, apply_nil, h2.view, homeWrites_start hf, h1.view, apply_append]
    simp
  have hblock : (clearHead (installTrans t)).log.block = [] := rfl
  rw [hstart, hhead, hblock] at h4
  have h := (h1.trans h2).trans (h3.trans h4)
  have hc : commit s = writeHead (clearHead (installTrans t)) := by
    rw [commit, if_pos hf.pos]
  rw [hc]
  simpa only [commitWrites, List.append_assoc, List.nil_append] using h

def recoverWrites (l : Log) (D : UInt32 → Bytes) : List (UInt32 × Bytes) :=
  (recoverFromLog (boot l.start l.size D)).writes

theorem recover_disk (l : Log) (D : UInt32 → Bytes) :
    (recoverFromLog (boot l.start l.size D)).disk = apply D (recoverWrites l D) :=
  recoverFromLog_journalled (by rfl)

theorem recover_traced (start : UInt32) (size : ℤ) (D : UInt32 → Bytes)
    (h : Apart start 0 (getHeader (D start))) :
    Traced (boot start size D) (recoverFromLog (boot start size D))
      (homeWrites start D 0 (getHeader (D start)) ++
        [(start, putHeader (apply D (homeWrites start D 0 (getHeader (D start))) start) [])]) := by
  set s := boot start size D with hs
  have hv : view s = D := rfl
  have h1 := readHead_traced s
  have hlog : (readHead s).log = { s.log with block := getHeader (D start) } := readHead_log s
  have h2 : Traced (readHead s) (installTrans (readHead s))
      (homeWrites (readHead s).log.start (view (readHead s)) 0 (readHead s).log.block) := by
    apply installTransLoop_traced
    rw [hlog]
    exact h
  have hs0 : s.log.start = start := rfl
  rw [hlog, h1.view, apply_nil, hv, hs0] at h2
  have h12 := h1.trans h2
  have h3 := clearHead_traced (installTrans (readHead s))
  have h4 := writeHead_traced (clearHead (installTrans (readHead s)))
  have hstart : (clearHead (installTrans (readHead s))).log.start = start := by
    change (installTrans (readHead s)).log.start = _
    rw [installTrans, installTransLoop_log, hlog]
    rfl
  have hblock : (clearHead (installTrans (readHead s))).log.block = [] := rfl
  rw [hstart, hblock, h3.view, apply_nil, h12.view, hv] at h4
  have h := h12.trans (h3.trans h4)
  simp only [List.nil_append] at h
  exact h

structure Clean (l : Log) (v : UInt32 → Bytes) (D : UInt32 → Bytes) : Prop where
  header : word (D l.start) 0 = 0
  home : HomeEq l D v

structure Committed (l : Log) (v : UInt32 → Bytes) (bs : List UInt32) (D : UInt32 → Bytes) : Prop where
  header : getHeader (D l.start) = bs
  slots : ∀ i (hi : i < bs.length), D (slot l.start i) = v bs[i]
  home : ∀ b, ¬ InLog l b → b ∉ bs → D b = v b

theorem Clean.recoverWrites (h : Clean l v D) : recoverWrites l D = [(l.start, D l.start)] := by
  have hb := getHeader_of_empty h.header
  have ht := (recover_traced l.start l.size D (by rw [hb]; intro b hb; simp at hb)).writes
  rw [hb] at ht
  simpa [RedoLog.recoverWrites, boot, homeWrites, putHeader_nil_of_empty h.header] using ht

theorem Clean.crashed (h : Clean l v D) (k : ℕ) : crashed D (RedoLog.recoverWrites l D) k = D := by
  rw [h.recoverWrites]
  cases k with
  | zero => simp [CrashWrites.crashed]
  | succ k => simp [CrashWrites.crashed]

theorem Clean.recovered (h : Clean l v D) : (recoverFromLog (boot l.start l.size D)).disk = D := by
  rw [recover_disk, h.recoverWrites]
  simp

section Committed

variable {l : Log} {v D : UInt32 → Bytes} {bs : List UInt32} (hf : Fits l bs) (h : Committed l v bs D)

include hf h

theorem Committed.recoverWrites :
    recoverWrites l D = bs.map (fun b => (b, v b)) ++ [(l.start, putHeader (D l.start) [])] := by
  have hhome : homeWrites l.start D 0 bs = bs.map (fun b => (b, v b)) := by
    apply homeWrites_eq_map
    intro k hk
    simpa using h.slots k hk
  have ht := (recover_traced l.start l.size D (by rw [h.header]; exact hf.apart)).writes
  rw [h.header, hhome, homeWrites_start hf] at ht
  simpa [RedoLog.recoverWrites, boot] using ht

theorem Committed.install (k : ℕ) : Committed l v bs (CrashWrites.crashed D (bs.map (fun b => (b, v b))) k) := by
  have hother : ∀ c, c ∉ bs → CrashWrites.crashed D (bs.map (fun b => (b, v b))) k c = D c := by
    intro c hc
    apply crashed_other
    rintro w hw rfl
    obtain ⟨b, hb, rfl⟩ := List.mem_map.mp hw
    exact hc hb
  refine ⟨?_, ?_, ?_⟩
  · rw [hother _ (fun hm => hf.start_ne hm rfl)]
    exact h.header
  · intro i hi
    rw [hother _ (fun hm => hf.home _ hm (hf.slot_inLog hi))]
    exact h.slots i hi
  · intro b hb hm
    rw [hother b hm]
    exact h.home b hb hm

theorem Committed.finish : Clean l v (apply D (bs.map (fun b => (b, v b)) ++
    [(l.start, putHeader (D l.start) [])])) := by
  constructor
  · rw [apply_append]
    simpa using putHeader_nil_word (D l.start)
  · intro b hb
    have hne : b ≠ l.start := fun he => hb (he ▸ hf.start_inLog)
    rw [apply_append, apply_cons, apply_nil, Function.update_of_ne hne]
    by_cases hm : b ∈ bs
    · apply apply_eq_of_mem
      · simpa [Function.comp_def] using hf.nodup
      · exact List.mem_map.mpr ⟨b, hm, rfl⟩
    · rw [apply_other]
      · exact h.home b hb hm
      · rintro w hw rfl
        obtain ⟨c, hc, rfl⟩ := List.mem_map.mp hw
        exact hm hc

theorem Committed.crashed (k : ℕ) :
    Committed l v bs (CrashWrites.crashed D (RedoLog.recoverWrites l D) k) ∨
      Clean l v (CrashWrites.crashed D (RedoLog.recoverWrites l D) k) := by
  rw [h.recoverWrites hf]
  by_cases hk : k ≤ bs.length
  · left
    rw [crashed_append_le _ _ _ (by simpa using hk)]
    exact h.install hf k
  · right
    rw [crashed_of_length_le _ _ (by simp; omega)]
    exact h.finish hf

end Committed

theorem recovers_clean {v D E : UInt32 → Bytes} (h : Clean l v D)
    (hr : Recovers (recoverWrites l) D E) : Clean l v E := by
  refine Recovers.rule (P := Clean l v) ?_ ?_ hr h
  · intro d k hd
    rw [hd.crashed k]
    exact hd
  · intro d hd
    rw [hd.recoverWrites]
    simpa using hd

theorem recovers_committed {v D E : UInt32 → Bytes} (hf : Fits l bs)
    (h : Committed l v bs D ∨ Clean l v D) (hr : Recovers (recoverWrites l) D E) : Clean l v E := by
  refine Recovers.rule (P := fun d => Committed l v bs d ∨ Clean l v d) ?_ ?_ hr h
  · rintro d k (hd | hd)
    · exact hd.crashed hf k
    · right
      rw [hd.crashed k]
      exact hd
  · rintro d (hd | hd)
    · rw [hd.recoverWrites hf]
      exact hd.finish hf
    · exact recovers_clean hd (.finish d)

end Xv6.RedoLog
