import Xv6.BlockMap

/-!
What a file holds, as bytes: the abstract file behind an inode, and `readi` and `writei` as
operations on it.
-/

namespace Xv6.Fs

open ByteMemory Contract Ownership
open Function (update_self update_of_ne update_eq_self)

structure File where
  type : FType
  major : Int16
  minor : Int16
  nlink : Int16
  bytes : List UInt8
  deriving DecidableEq, Repr

def fileByte (fs : State) (i p : ℕ) : UInt8 := fs.data (blk fs.data (cur fs i) (p / BSIZE)) (p % BSIZE)

def contents (fs : State) (i : ℕ) : List UInt8 := (List.range (cur fs i).size).map (fileByte fs i)

def file (fs : State) (i : ℕ) : Option File :=
  if (cur fs i).type = .free then none
  else some ⟨(cur fs i).type, (cur fs i).major, (cur fs i).minor, (cur fs i).nlink, contents fs i⟩

def blocksOf (size : ℕ) : ℕ := (size + (BSIZE - 1)) / BSIZE

structure Inv (fs : State) : Prop where
  core : Core fs
  filled : ∀ i, (cur fs i).type ≠ .free → Filled fs.data (cur fs i) (blocksOf (cur fs i).size)
  bound : ∀ i, (cur fs i).type ≠ .free → (cur fs i).size ≤ MAXFILE * BSIZE
  sync : ∀ i, fs.valid i = true → fs.inode i = fs.dinode i
  typed : ∀ i, fs.valid i = true → (fs.dinode i).type ≠ .free

variable {fs fs' : State} {i j c off n : ℕ} {src : List UInt8}

theorem length_contents (fs : State) (i : ℕ) : (contents fs i).length = (cur fs i).size := by
  simp [contents]

theorem blocksOf_le {size k : ℕ} (h : size ≤ k * BSIZE) : blocksOf size ≤ k := by
  simp only [blocksOf, BSIZE] at *
  omega

theorem lt_blocksOf {size p : ℕ} (h : p < size) : p / BSIZE < blocksOf size := by
  simp only [blocksOf, BSIZE]
  omega

theorem Inv.slot_of_byte (h : Inv fs) {p : ℕ} (ht : (cur fs j).type ≠ .free) (hp : p < (cur fs j).size) :
    slotRef fs (.block j (p / BSIZE)) = some (blk fs.data (cur fs j) (p / BSIZE)) := by
  have hk := lt_blocksOf hp
  have hmax : p / BSIZE < MAXFILE := hk.trans_le (blocksOf_le (h.bound j ht))
  rw [slotRef_eq_some, slotNumber]
  simp only [Slot.inum, Slot.number, if_neg ht, if_pos hmax]
  exact ⟨trivial, ((h.filled j ht).blocks _ hmax).mpr hk⟩

theorem file_congr (h : Inv fs) (hc : cur fs' j = cur fs j)
    (hs : ∀ bn b, slotRef fs (.block j bn) = some b → slotRef fs' (.block j bn) = some b ∧ fs'.data b = fs.data b) :
    file fs' j = file fs j := by
  simp only [file, hc]
  split_ifs with ht
  · rfl
  · have hbytes : contents fs' j = contents fs j := by
      simp only [contents, hc]
      apply List.map_congr_left
      intro p hp
      have hslot := h.slot_of_byte ht (List.mem_range.mp hp)
      obtain ⟨hslot', hdata⟩ := hs _ _ hslot
      have hmax : p / BSIZE < MAXFILE :=
        (lt_blocksOf (List.mem_range.mp hp)).trans_le (blocksOf_le (h.bound j ht))
      rw [slotRef_eq_some, slotNumber] at hslot'
      simp only [Slot.inum, Slot.number, hc, if_neg ht, if_pos hmax] at hslot'
      simp only [fileByte, hc, hslot'.1, hdata]
    rw [hbytes]

theorem Grown.cur_ne (h : Grown fs fs' i) (hj : j ≠ i) : cur fs' j = cur fs j := by
  simp only [cur, h.valid, h.dinode, h.inode j hj]

theorem range_split {m n : ℕ} (h : m ≤ n) : List.range n = List.range m ++ (List.range (n - m)).map (m + ·) := by
  rw [← List.range_add, Nat.add_sub_cancel' h]

theorem block_offset {off k : ℕ} (h : k < BSIZE - off % BSIZE) :
    (off + k) / BSIZE = off / BSIZE ∧ (off + k) % BSIZE = off % BSIZE + k := by
  simp only [BSIZE] at *
  omega

theorem readLoop_eq (hv : fs.valid i = true) (hfill : Filled fs.data (fs.inode i) c) (hc : c ≤ MAXFILE)
    (hn : off + n ≤ c * BSIZE) :
    readLoop fs i off n = .ok ((List.range n).map (fun k => fileByte fs i (off + k)), fs) := by
  induction n using Nat.strong_induction_on generalizing off with
  | _ n ih =>
    rw [readLoop]
    by_cases h0 : n = 0
    · simp [h0]
    · have hbn : off / BSIZE < c := by
        simp only [BSIZE] at *
        omega
      have hblk := (hfill.blocks _ (hbn.trans_le hc)).mpr hbn
      have hm : 0 < min n (BSIZE - off % BSIZE) := by
        simp only [BSIZE]
        omega
      rw [if_neg h0, bmap_of_blk (hbn.trans_le hc) hblk, Outcome.ok_bind]
      dsimp only
      rw [ih _ (by omega) (by omega), Outcome.ok_bind]
      dsimp only
      rw [range_split (min_le_left n (BSIZE - off % BSIZE)), List.map_append, List.map_map]
      congr 3
      · simp only [slice]
        apply List.map_congr_left
        intro k hk
        have hk' := block_offset (lt_of_lt_of_le (List.mem_range.mp hk) (min_le_right _ _))
        simp only [fileByte, hk'.1, hk'.2, cur_of_valid hv]
      · apply List.map_congr_left
        intro k _
        simp only [Function.comp_apply, Nat.add_assoc]

theorem contents_slice (off n : ℕ) (h : off + n ≤ (cur fs i).size) :
    (List.range n).map (fun k => fileByte fs i (off + k)) = ((contents fs i).drop off).take n := by
  apply List.ext_getElem
  · simp only [List.length_map, List.length_range, List.length_take, List.length_drop, length_contents]
    omega
  · intro k h1 h2
    simp [contents]

theorem readi_eq (h : Inv fs) (hv : fs.valid i = true) (hd : (fs.inode i).type ≠ .dev)
    (hs : ¬ ((fs.inode i).size < off ∨ 2 ^ 32 ≤ off + n)) :
    readi fs i off n = .ok (some (((contents fs i).drop off).take n), fs) := by
  have hcur := cur_of_valid hv
  have ht : (cur fs i).type ≠ .free := by
    rw [hcur, h.sync i hv]
    exact h.typed i hv
  have hsz : (cur fs i).size = (fs.inode i).size := by rw [hcur]
  rw [readi, if_neg hd, if_neg hs]
  dsimp only
  generalize hn' : (if (fs.inode i).size < off + n then (fs.inode i).size - off else n) = n'
  have hle : off + n' ≤ (fs.inode i).size := by
    split_ifs at hn' <;> omega
  have hfill := h.filled i ht
  rw [hcur] at hfill
  rw [readLoop_eq hv hfill (blocksOf_le (by rw [← hsz]; exact h.bound i ht))
    (by simp only [blocksOf, BSIZE]; omega), Outcome.ok_bind]
  dsimp only
  rw [contents_slice off n' (by rw [hsz]; exact hle)]
  congr 3
  split_ifs at hn' with hlt
  · have hlen : ((contents fs i).drop off).length = n' := by
      rw [List.length_drop, length_contents, hsz, hn']
    rw [List.take_of_length_le (by omega), List.take_of_length_le (by omega)]
  · rw [hn']

theorem setData_block (hc : Core fs) {bn a : ℕ} (ha : slotRef fs (.block i bn) = some a) (bs : Bytes) :
    Core (setData fs a bs) ∧ Grown fs (setData fs a bs) i ∧ ∀ s, slotRef (setData fs a bs) s = slotRef fs s := by
  have hslots : ∀ s, slotRef (setData fs a bs) s = slotRef fs s := by
    intro s
    refine slotRef_frame rfl fun x hx => update_of_ne ?_ _ _
    rintro rfl
    cases hc.ledger.inj _ _ x hx ha
  refine ⟨⟨hc.room, hc.small, hc.ledger.congr hslots⟩, ⟨rfl, rfl, rfl, rfl, fun _ _ => rfl, rfl,
    fun s b hs => (hslots s).trans hs, fun s _ => hslots s, ?_⟩, hslots⟩
  intro k bn' x hk hx
  refine update_of_ne ?_ _ _
  rintro rfl
  cases hc.ledger.inj _ _ x hx ha
  exact hk rfl

theorem blk_of_slot (hv : fs.valid i = true) (ht : (fs.inode i).type ≠ .free) {bn a : ℕ} (hbn : bn < MAXFILE) :
    slotRef fs (.block i bn) = some a ↔ blk fs.data (fs.inode i) bn = a ∧ a ≠ 0 := by
  rw [slotRef_eq_some, slotRef_own hv ht rfl, Slot.number, if_pos hbn]

structure Written (fs : State) (i c off : ℕ) (src : List UInt8) (fs' : State) : Prop where
  core : Core fs'
  grown : Grown fs fs' i
  filled : Filled fs'.data (fs'.inode i) (max c (blocksOf (off + src.length)))
  bytes : ∀ p, p < c * BSIZE ∨ (off ≤ p ∧ p < off + src.length) → fileByte fs' i p =
    if off ≤ p ∧ p < off + src.length then src.getD (p - off) 0 else fileByte fs i p
  same : off + src.length ≤ c * BSIZE → fs'.inode i = fs.inode i

theorem blk_setData_block (hc : Core fs) (hv : fs.valid i = true) (ht : (fs.inode i).type ≠ .free) {bn a : ℕ}
    (ha : slotRef fs (.block i bn) = some a) (bs : Bytes) (k : ℕ) :
    blk (setData fs a bs).data (fs.inode i) k = blk fs.data (fs.inode i) k := by
  apply blk_congr
  intro h0
  refine update_of_ne ?_ _ _
  intro he
  have hind := slotRef_indirect hv ht h0
  rw [he] at hind
  cases hc.ledger.inj _ _ a hind ha

theorem write_one (src : List UInt8) (hv : fs.valid i = true) (ht : (fs.inode i).type ≠ .free)
    (hfill : Filled fs.data (fs.inode i) c) {r : ℕ × State} {m : ℕ} (hmax : off / BSIZE < MAXFILE)
    (hm : m ≤ BSIZE - off % BSIZE) (hlen : m ≤ src.length) (hcm : c ≤ MAXFILE) (hr : Mapped fs i c (off / BSIZE) r) :
    let fs2 := setData r.2 r.1 (store (r.2.data r.1) (off % BSIZE) (src.take m))
    Core fs2 ∧ Grown fs fs2 i ∧ Filled fs2.data (fs2.inode i) (max c (off / BSIZE + 1)) ∧
      ∀ p, p < c * BSIZE ∨ (off ≤ p ∧ p < off + m) → fileByte fs2 i p =
        if off ≤ p ∧ p < off + m then src.getD (p - off) 0 else fileByte fs i p := by
  intro fs2
  obtain ⟨hc2, hg2, -⟩ := setData_block hr.core hr.result (store (r.2.data r.1) (off % BSIZE) (src.take m))
  have hv1 : r.2.valid i = true := by rw [hr.grown.valid]; exact hv
  have ht1 : (r.2.inode i).type ≠ .free := by rw [hr.grown.type]; exact ht
  have hv2 : fs2.valid i = true := hv1
  have hin : fs2.inode i = r.2.inode i := rfl
  have hblk : ∀ k, blk fs2.data (r.2.inode i) k = blk r.2.data (r.2.inode i) k :=
    blk_setData_block hr.core hv1 ht1 hr.result _
  have htake : (src.take m).length = m := by rw [List.length_take]; omega
  refine ⟨hc2, hr.grown.trans hg2, ⟨?_, hr.filled.indirect⟩, ?_⟩
  · intro k hk
    rw [hin, hblk k]
    exact hr.filled.blocks k hk
  intro p hp
  have hbyte : ∀ k b, slotRef r.2 (.block i k) = some b → p / BSIZE = k → k < MAXFILE →
      fileByte fs2 i p = fs2.data b (p % BSIZE) := by
    intro k b hb hpk hk
    rw [fileByte, cur_of_valid hv2, hin, hblk, hpk, ((blk_of_slot hv1 ht1 hk).mp hb).1]
  split_ifs with hin'
  · -- the byte comes from `src`
    obtain ⟨q, rfl⟩ : ∃ q, p = off + q := ⟨p - off, by omega⟩
    obtain ⟨hq1, hq2⟩ := block_offset (by omega : q < BSIZE - off % BSIZE)
    rw [hbyte _ _ hr.result hq1 hmax, hq2]
    simp only [fs2, setData, update_self]
    rw [store_apply_mem (by omega), Nat.add_sub_cancel_left, List.getD_eq_getElem?_getD, List.getD_eq_getElem?_getD,
      List.getElem?_take_of_lt (by omega)]
  · -- the byte was there before
    have hpc : p / BSIZE < c := by
      rcases hp with hp | hp
      · simp only [BSIZE] at *
        omega
      · exact absurd hp hin'
    have hslot := slotRef_block hv ht (hpc.trans_le hcm) ((hfill.blocks _ (hpc.trans_le hcm)).mpr hpc)
    set b := blk fs.data (fs.inode i) (p / BSIZE) with hb
    rw [hbyte _ b (hr.grown.kept _ _ hslot) rfl (hpc.trans_le hcm), fileByte, cur_of_valid hv, ← hb,
      ← hr.own _ _ hslot]
    by_cases he : b = r.1
    · have hpk : p / BSIZE = off / BSIZE := by
        have h := hr.core.ledger.inj _ _ b (hr.grown.kept _ _ hslot) (he ▸ hr.result)
        exact (Slot.block.inj h).2
      simp only [fs2, setData, he, update_self]
      apply store_apply_not_mem
      rw [htake]
      intro hmem
      apply hin'
      have h1 := Nat.div_add_mod p BSIZE
      have h2 := Nat.div_add_mod off BSIZE
      rw [hpk] at h1
      omega
    · simp only [fs2, setData, update_of_ne he]

theorem Written.after {fs2 : State} {m : ℕ} (hm : 0 < m) (hlen : m ≤ src.length) (hmod : m ≤ BSIZE - off % BSIZE)
    (hg : Grown fs fs2 i) (hs : off / BSIZE < c → fs2.inode i = fs.inode i)
    (hb : ∀ p, p < c * BSIZE ∨ (off ≤ p ∧ p < off + m) → fileByte fs2 i p =
      if off ≤ p ∧ p < off + m then src.getD (p - off) 0 else fileByte fs i p)
    (hw : Written fs2 i (max c (off / BSIZE + 1)) (off + m) (src.drop m) fs') : Written fs i c off src fs' := by
  have hdrop : off + m + (src.drop m).length = off + src.length := by
    rw [List.length_drop]
    omega
  have hb' := hw.bytes
  have hf' := hw.filled
  rw [hdrop] at hb' hf'
  refine ⟨hw.core, hg.trans hw.grown, ?_, ?_, ?_⟩
  · have hle : off / BSIZE + 1 ≤ blocksOf (off + src.length) := by
      simp only [blocksOf, BSIZE]
      omega
    rwa [max_assoc, max_eq_right hle] at hf'
  · intro p hp
    have hc1 : p < c * BSIZE ∨ p < off + m → p < max c (off / BSIZE + 1) * BSIZE := by
      have h1 := Nat.mul_le_mul_right BSIZE (le_max_left c (off / BSIZE + 1))
      have h2 := Nat.mul_le_mul_right BSIZE (le_max_right c (off / BSIZE + 1))
      have h3 := Nat.div_add_mod off BSIZE
      simp only [BSIZE] at *
      omega
    rw [hb' p (by omega)]
    by_cases hlater : off + m ≤ p ∧ p < off + src.length
    · rw [if_pos hlater, if_pos (by omega), List.getD_eq_getElem?_getD, List.getElem?_drop, List.getD_eq_getElem?_getD,
        show m + (p - (off + m)) = p - off by omega]
    · rw [if_neg hlater, hb p (by omega)]
      by_cases hnow : off ≤ p ∧ p < off + m
      · rw [if_pos hnow, if_pos (by omega)]
      · rw [if_neg hnow, if_neg (by omega)]
  · intro hle
    have hlt : off / BSIZE < c := by
      simp only [BSIZE] at *
      omega
    rw [← hs hlt]
    apply hw.same
    rw [hdrop, max_eq_left hlt]
    exact hle

theorem chunk_end {n off : ℕ} (hn : n ≤ BSIZE - off % BSIZE) (c : ℕ) : off + n ≤ max c (off / BSIZE + 1) * BSIZE := by
  have h1 : off / BSIZE + 1 ≤ max c (off / BSIZE + 1) := le_max_right _ _
  have h2 := Nat.mul_le_mul_right BSIZE h1
  have h3 := Nat.div_add_mod off BSIZE
  simp only [BSIZE] at *
  omega

theorem writeLoop_spec (hc : Core fs) (hv : fs.valid i = true) (ht : (fs.inode i).type ≠ .free)
    (hfill : Filled fs.data (fs.inode i) c) (hcm : c ≤ MAXFILE) (hoff : off ≤ c * BSIZE)
    (hlen : off + src.length ≤ MAXFILE * BSIZE) :
    Sat (writeLoop fs i off src) (· = "balloc: out of blocks") (Written fs i c off src) := by
  induction hn : src.length using Nat.strong_induction_on generalizing fs c off src with
  | _ n ih =>
    rw [writeLoop]
    by_cases h0 : src.length = 0
    · rw [if_pos h0, sat_ok]
      refine ⟨hc, Grown.refl fs i, ?_, ?_, fun _ => rfl⟩
      · rw [h0, max_eq_left (blocksOf_le (by omega))]
        exact hfill
      · intro p _
        rw [if_neg (by omega)]
    · rw [if_neg h0]
      set m := min src.length (BSIZE - off % BSIZE) with hm
      have hm0 : 0 < m := by
        simp only [hm, BSIZE]
        omega
      have hbn : off / BSIZE ≤ c := by
        simp only [BSIZE] at *
        omega
      have hmax : off / BSIZE < MAXFILE := by
        simp only [BSIZE] at *
        omega
      refine (bmap_spec hc hv ht hfill hbn hmax).bind fun r hr => ?_
      obtain ⟨hc2, hg2, hf2, hb2⟩ := write_one src hv ht hfill hmax (by omega : m ≤ _) (by omega) hcm hr
      set fs2 := setData r.2 r.1 (store (r.2.data r.1) (off % BSIZE) (src.take m)) with hfs2
      have hend : off + m ≤ max c (off / BSIZE + 1) * BSIZE := chunk_end (by omega) c
      have hdrop : (src.drop m).length = src.length - m := List.length_drop ..
      refine (ih (src.drop m).length (by omega) hc2 (by rw [hg2.valid]; exact hv) (by rw [hg2.type]; exact ht) hf2
        (max_le hcm hmax) hend (by omega) rfl).post fun fs' hw => ?_
      exact hw.after hm0 (by omega) (by omega) hg2 (fun hlt => by rw [hfs2, hr.same hlt]; rfl) hb2

def splice (bs : List UInt8) (off : ℕ) (src : List UInt8) : List UInt8 :=
  bs.take off ++ src ++ bs.drop (off + src.length)

theorem length_splice {bs : List UInt8} (h : off ≤ bs.length) :
    (splice bs off src).length = max bs.length (off + src.length) := by
  simp only [splice, List.length_append, List.length_take, List.length_drop]
  omega

theorem getD_splice {bs : List UInt8} (h : off ≤ bs.length) (p : ℕ) :
    (splice bs off src).getD p 0 = if off ≤ p ∧ p < off + src.length then src.getD (p - off) 0 else bs.getD p 0 := by
  have hl : (bs.take off).length = off := by rw [List.length_take]; omega
  simp only [splice, List.append_assoc, List.getD_eq_getElem?_getD]
  by_cases h1 : p < off
  · rw [List.getElem?_append_left (by omega), List.getElem?_take_of_lt h1, if_neg (by omega)]
  · rw [List.getElem?_append_right (by omega), hl]
    by_cases h2 : p < off + src.length
    · rw [List.getElem?_append_left (by omega), if_pos (by omega)]
    · rw [List.getElem?_append_right (by omega), List.getElem?_drop, if_neg (by omega),
        show off + src.length + (p - off - src.length) = p by omega]

structure Frame (fs fs' : State) : Prop where
  sb : fs'.sb = fs.sb
  valid : fs'.valid = fs.valid
  ref : fs'.ref = fs.ref

theorem Inv.typed_inode (h : Inv fs) (hv : fs.valid i = true) : (fs.inode i).type ≠ .free := by
  rw [h.sync i hv]
  exact h.typed i hv

theorem Inv.cached (h : Inv fs) (hv : fs.valid i = true) : (fs.inode i).type ≠ .free ∧
    Filled fs.data (fs.inode i) (blocksOf (fs.inode i).size) ∧ (fs.inode i).size ≤ MAXFILE * BSIZE := by
  have ht := h.typed_inode hv
  rw [← cur_of_valid hv] at ht ⊢
  exact ⟨ht, h.filled i ht, h.bound i ht⟩

theorem blk_eq_of_slotRef {bn : ℕ} (hc : cur fs' j = cur fs j) (ht : (cur fs j).type ≠ .free) (hbn : bn < MAXFILE)
    (hs : slotRef fs' (.block j bn) = slotRef fs (.block j bn)) :
    blk fs'.data (cur fs j) bn = blk fs.data (cur fs j) bn := by
  have hn : ∀ gs, cur gs j = cur fs j → slotNumber gs (.block j bn) = blk gs.data (cur fs j) bn := by
    intro gs hgs
    simp only [slotNumber, Slot.inum, hgs, if_neg ht, Slot.number, if_pos hbn]
  rw [← hn fs' hc, ← hn fs rfl]
  simp only [slotRef] at hs
  split_ifs at hs with h1 h2 h2
  · rw [h1, h2]
  · exact Option.some.inj hs

theorem Filled.congr_ne (h : Filled fs.data (cur fs j) c) (hc : cur fs' j = cur fs j) (ht : (cur fs j).type ≠ .free)
    (hs : ∀ bn, slotRef fs' (.block j bn) = slotRef fs (.block j bn)) : Filled fs'.data (cur fs' j) c := by
  rw [hc]
  refine ⟨fun bn hbn => ?_, h.indirect⟩
  rw [blk_eq_of_slotRef hc ht hbn (hs bn)]
  exact h.blocks bn hbn

section Commit

variable {fs1 : State} {d : Dinode} (h : Inv fs) (hg : Grown fs fs1 i) (hv : fs.valid i = true)
include hg hv

theorem cur_commit (j : ℕ) : cur (commit fs1 i d) j = if j = i then d else cur fs j := by
  by_cases hj : j = i
  · subst hj
    simp [cur, commit, iupdate, setInode]
  · rw [if_neg hj, ← hg.cur_ne hj]
    simp [cur, commit, iupdate, setInode, hj]

theorem slotRef_commit (hd : d.addrs = (fs1.inode i).addrs) (ht : d.type ≠ .free) (ht1 : (fs.inode i).type ≠ .free)
    (s : Slot) : slotRef (commit fs1 i d) s = slotRef fs1 s := by
  apply slotRef_congr
  have hv1 : fs1.valid i = true := by rw [hg.valid]; exact hv
  by_cases hs : s.inum = i
  · rw [slotRef_own hv1 (by rw [hg.type]; exact ht1) hs, slotNumber, cur_commit hg hv, if_pos hs, if_neg ht]
    cases s with
    | indirect j => simp only [Slot.number, hd]
    | block j bn =>
      simp only [Slot.number, blk, hd]
      rfl
  · simp only [slotNumber, cur_commit hg hv, if_neg hs, hg.cur_ne hs]
    rfl

include h

theorem Inv.of_commit (hc : Core fs1) (hd : d.addrs = (fs1.inode i).addrs) (ht : d.type ≠ .free)
    (hfill : Filled fs1.data d (blocksOf d.size)) (hb : d.size ≤ MAXFILE * BSIZE) :
    Inv (commit fs1 i d) ∧ Frame fs (commit fs1 i d) ∧ ∀ j, j ≠ i → file (commit fs1 i d) j = file fs j := by
  have ht1 := h.typed_inode hv
  have hslots := slotRef_commit hg hv hd ht ht1
  have hcur := cur_commit (d := d) hg hv
  refine ⟨⟨⟨hc.room, hc.small, hc.ledger.congr hslots⟩, ?_, ?_, ?_, ?_⟩, ⟨hg.sb, hg.valid, hg.ref⟩, ?_⟩
  · intro j hj
    by_cases he : j = i
    · subst he
      rw [hcur, if_pos rfl]
      exact hfill
    · have hcj : cur (commit fs1 i d) j = cur fs j := by rw [hcur, if_neg he]
      rw [hcj] at hj
      have hf := (h.filled j hj).congr_ne hcj hj fun bn => (hslots _).trans (hg.others _ he)
      rwa [← hcj] at hf
  · intro j hj
    rw [hcur] at hj ⊢
    by_cases he : j = i
    · rw [if_pos he]
      exact hb
    · rw [if_neg he] at hj ⊢
      exact h.bound j hj
  · intro j hj
    by_cases he : j = i
    · subst he
      simp [commit, iupdate, setInode]
    · simp only [commit, iupdate, setInode, update_of_ne he, hg.inode j he, hg.dinode]
      exact h.sync j (by rw [← hg.valid]; exact hj)
  · intro j hj
    by_cases he : j = i
    · subst he
      simpa [commit, iupdate, setInode] using ht
    · simp only [commit, iupdate, setInode, update_of_ne he, hg.dinode]
      exact h.typed j (by rw [← hg.valid]; exact hj)
  · intro j hj
    refine file_congr h (by rw [hcur, if_neg hj]) fun bn b hb' => ⟨?_, hg.data j bn b hj hb'⟩
    rw [hslots]
    exact hg.kept _ b hb'

end Commit

theorem file_of_valid (hv : fs.valid i = true) (ht : (fs.inode i).type ≠ .free) : file fs i =
    some ⟨(fs.inode i).type, (fs.inode i).major, (fs.inode i).minor, (fs.inode i).nlink, contents fs i⟩ := by
  rw [file, cur_of_valid hv, if_neg ht]

theorem Filled.of_addrs {data : ℕ → Bytes} {d d' : Dinode} (h : Filled data d c) (ha : d'.addrs = d.addrs) :
    Filled data d' c := by
  refine ⟨fun bn hbn => ?_, by rw [ha]; exact h.indirect⟩
  rw [← h.blocks bn hbn]
  simp only [blk, ha]

theorem contents_getD {p : ℕ} (hp : p < (cur fs i).size) : (contents fs i).getD p 0 = fileByte fs i p := by
  rw [List.getD_eq_getElem _ _ (by rw [length_contents]; exact hp)]
  simp [contents]

theorem Written.commit_spec (h : Inv fs) (hv : fs.valid i = true) {fs1 : State} {size : ℕ}
    (hoff : off ≤ (fs.inode i).size) (hlen : off + src.length ≤ MAXFILE * BSIZE)
    (hsize : size = max (fs.inode i).size (off + src.length))
    (hw : Written fs i (blocksOf (fs.inode i).size) off src fs1) :
    let fs' := commit fs1 i { fs1.inode i with size := size }
    Inv fs' ∧ Frame fs fs' ∧ (∀ j, j ≠ i → file fs' j = file fs j) ∧
      file fs' i = some ⟨(fs.inode i).type, (fs.inode i).major, (fs.inode i).minor, (fs.inode i).nlink,
        splice (contents fs i) off src⟩ := by
  intro fs'
  have ht := h.typed_inode hv
  have hcur := cur_of_valid hv
  have ht1 : (fs1.inode i).type ≠ .free := by rw [hw.grown.type]; exact ht
  have hbound : (fs.inode i).size ≤ MAXFILE * BSIZE := by
    rw [← hcur]
    exact h.bound i (by rw [hcur]; exact ht)
  have hblocks : blocksOf size = max (blocksOf (fs.inode i).size) (blocksOf (off + src.length)) := by
    rw [hsize]
    simp only [blocksOf, BSIZE]
    omega
  have hfill : Filled fs1.data { fs1.inode i with size := size } (blocksOf size) := by
    rw [hblocks]
    exact hw.filled.of_addrs rfl
  obtain ⟨hinv, hframe, hothers⟩ := h.of_commit (d := { fs1.inode i with size := size }) hw.grown hv hw.core rfl ht1
    hfill (by simp only [hsize]; omega)
  refine ⟨hinv, hframe, hothers, ?_⟩
  have hcur' : cur fs' i = { fs1.inode i with size := size } := by rw [cur_commit hw.grown hv, if_pos rfl]
  have hlen' : (contents fs i).length = (fs.inode i).size := by rw [length_contents, hcur]
  have hbytes : contents fs' i = splice (contents fs i) off src := by
    apply List.ext_getElem
    · rw [length_contents, hcur', length_splice (by rw [hlen']; exact hoff), hlen', hsize]
    · intro p h1 h2
      have hp : p < (cur fs' i).size := by rwa [length_contents] at h1
      have hps : p < size := by rwa [hcur'] at hp
      have hbyte := hw.bytes p (by simp only [blocksOf, BSIZE]; omega)
      have hsame : fileByte fs' i p = fileByte fs1 i p := by
        rw [fileByte, fileByte, hcur', cur_of_valid (by rw [hw.grown.valid]; exact hv)]
        rfl
      rw [← List.getD_eq_getElem _ 0 h1, ← List.getD_eq_getElem _ 0 h2, contents_getD hp, hsame, hbyte,
        getD_splice (by rw [hlen']; exact hoff)]
      split_ifs with hin
      · rfl
      · rw [contents_getD (by rw [hcur]; omega)]
  rw [file, hcur', if_neg ht1, hbytes, hw.grown.fields]

theorem commit_self (h : fs.inode i = fs.dinode i) : commit fs i (fs.inode i) = fs := by
  simp only [commit, iupdate, setInode, update_eq_self]
  rw [h, update_eq_self]

structure Wrote (fs : State) (i off : ℕ) (src : List UInt8) (fs' : State) : Prop where
  inv : Inv fs'
  frame : Frame fs fs'
  others : ∀ j, j ≠ i → file fs' j = file fs j
  bytes : ∀ f, file fs i = some f → file fs' i = some { f with bytes := splice f.bytes off src }

theorem writei_spec (h : Inv fs) (hv : fs.valid i = true) (hd : (fs.inode i).type ≠ .dev) (src : List UInt8) (off : ℕ) :
    Sat (writei fs i src off) (· = "balloc: out of blocks") (fun r =>
      (r.1 = none ∧ r.2 = fs ∧ ((fs.inode i).size < off ∨ 2 ^ 32 ≤ off + src.length ∨
        MAXFILE * BSIZE < off + src.length)) ∨
      (r.1 = some src.length ∧ off ≤ (fs.inode i).size ∧ Wrote fs i off src r.2)) := by
  rw [writei, if_neg hd]
  refine sat_ite (fun hs => ?_) fun hs => sat_ite (fun hl => ?_) fun hl => ?_
  · rw [sat_ok]
    exact Or.inl ⟨rfl, rfl, by tauto⟩
  · rw [sat_ok]
    exact Or.inl ⟨rfl, rfl, by tauto⟩
  · obtain ⟨ht, hfill, hbound⟩ := h.cached hv
    have hoff : off ≤ (fs.inode i).size := by omega
    refine (writeLoop_spec h.core hv ht hfill (blocksOf_le hbound) (by simp only [blocksOf, BSIZE]; omega)
      (by omega)).bind fun fs1 hw => ?_
    have hsize : (fs1.inode i).size = (fs.inode i).size := by rw [hw.grown.fields]
    have hspec : ∀ fs', fs' = commit fs1 i { fs1.inode i with size := max (fs.inode i).size (off + src.length) } →
        Wrote fs i off src fs' := by
      rintro fs' rfl
      obtain ⟨h1, h2, h3, h4⟩ := hw.commit_spec h hv hoff (by omega) rfl
      refine ⟨h1, h2, h3, fun f hf => ?_⟩
      rw [file_of_valid hv ht] at hf
      rw [h4, ← Option.some.inj hf]
    dsimp only
    refine sat_ite (fun hgrow => ?_) fun hgrow => ?_
    · rw [sat_ok]
      refine Or.inr ⟨rfl, hoff, hspec _ ?_⟩
      rw [max_eq_right (by omega), commit]
    · rw [sat_ok]
      -- no block was added, so the copy on the disk is still the cached one
      have hsame : fs1.inode i = fs.inode i := hw.same (by simp only [blocksOf, BSIZE]; omega)
      have hdisk : fs1.inode i = fs1.dinode i := by rw [hsame, hw.grown.dinode, h.sync i hv]
      refine Or.inr ⟨rfl, hoff, hspec _ ?_⟩
      rw [max_eq_left (by omega), ← hsize, commit_self hdisk]

end Xv6.Fs
