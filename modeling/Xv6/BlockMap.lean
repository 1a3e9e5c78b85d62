import Xv6.Contract
import Xv6.Inode
import Xv6.Ownership

namespace Xv6.Fs

open ByteMemory Contract Ownership
open Function (update update_self update_of_ne update_eq_self update_apply)

def cur (fs : State) (i : ℕ) : Dinode := if fs.valid i then fs.inode i else fs.dinode i

def blk (data : ℕ → Bytes) (d : Dinode) (bn : ℕ) : ℕ :=
  if bn < NDIRECT then d.addrs bn
  else if d.addrs NDIRECT = 0 then 0
  else word (data (d.addrs NDIRECT)) (bn - NDIRECT)

inductive Slot where
  | block (i bn : ℕ)
  | indirect (i : ℕ)
  deriving DecidableEq, Repr

def Slot.inum : Slot → ℕ
  | block i _ => i
  | indirect i => i

def Slot.number (data : ℕ → Bytes) (d : Dinode) : Slot → ℕ
  | block _ bn => if bn < MAXFILE then blk data d bn else 0
  | indirect _ => d.addrs NDIRECT

def slotNumber (fs : State) (s : Slot) : ℕ :=
  if (cur fs s.inum).type = .free then 0 else s.number fs.data (cur fs s.inum)

def slotRef (fs : State) (s : Slot) : Option ℕ := if slotNumber fs s = 0 then none else some (slotNumber fs s)

def dataBlocks (sb : Superblock) : Set ℕ := {b | sb.nmeta ≤ b ∧ b < sb.size}

def freeBlocks (fs : State) : Set ℕ := {b | b < fs.sb.size ∧ fs.bitmap b = false}

structure Core (fs : State) : Prop where
  room : 0 < fs.sb.nmeta
  small : fs.sb.size ≤ 2 ^ 32
  ledger : Ledger (dataBlocks fs.sb) (freeBlocks fs) (slotRef fs)

structure Filled (data : ℕ → Bytes) (d : Dinode) (c : ℕ) : Prop where
  blocks : ∀ bn < MAXFILE, blk data d bn ≠ 0 ↔ bn < c
  indirect : d.addrs NDIRECT ≠ 0 ↔ NDIRECT < c

variable {fs fs' : State} {i b c : ℕ} {s : Slot}

theorem slotRef_eq_some : slotRef fs s = some b ↔ slotNumber fs s = b ∧ b ≠ 0 := by
  simp only [slotRef]
  split_ifs with h
  · simp only [false_iff, not_and]
    rintro rfl
    exact not_not.mpr h
  · simp only [Option.some.injEq]
    constructor
    · rintro rfl
      exact ⟨rfl, h⟩
    · exact fun hb => hb.1

theorem slotRef_eq_none : slotRef fs s = none ↔ slotNumber fs s = 0 := by
  simp only [slotRef]
  split_ifs with h <;> simp [h]

theorem slotRef_congr (h : slotNumber fs' s = slotNumber fs s) : slotRef fs' s = slotRef fs s := by
  simp only [slotRef, h]

variable {d : Dinode} {data data' : ℕ → Bytes} {fs1 : State} {bn : ℕ}

theorem blk_congr (h : d.addrs NDIRECT ≠ 0 → data' (d.addrs NDIRECT) = data (d.addrs NDIRECT)) (bn : ℕ) :
    blk data' d bn = blk data d bn := by
  simp only [blk]
  split_ifs with h1 h2
  · rfl
  · rfl
  · rw [h h2]

theorem slotRef_frame (hc : cur fs' s.inum = cur fs s.inum)
    (hd : ∀ b, slotRef fs (.indirect s.inum) = some b → fs'.data b = fs.data b) : slotRef fs' s = slotRef fs s := by
  apply slotRef_congr
  simp only [slotNumber, hc]
  split_ifs with hfree
  · rfl
  · cases s with
    | indirect j => rfl
    | block j bn =>
      simp only [Slot.number]
      split_ifs
      · apply blk_congr
        intro ha
        apply hd
        rw [slotRef_eq_some]
        exact ⟨if_neg hfree, ha⟩
      · rfl

theorem Core.mem_dataBlocks (hc : Core fs) (h : slotRef fs s = some b) : b ∈ dataBlocks fs.sb :=
  hc.ledger.mem_of_held h

theorem balloc_cases (fs : State) :
    (∃ b < fs.sb.size, fs.bitmap b = false ∧ balloc fs = .ok (b,
      { fs with bitmap := update fs.bitmap b true, data := update fs.data b zero })) ∨
      balloc fs = .error "balloc: out of blocks" := by
  simp only [balloc]
  cases hf : (List.range fs.sb.size).find? (fun b => !fs.bitmap b) with
  | none => exact Or.inr rfl
  | some b =>
    refine Or.inl ⟨b, List.mem_range.mp (List.mem_of_find?_eq_some hf), ?_, rfl⟩
    have h := List.find?_some hf
    simpa using h

structure Fresh (fs : State) (b : ℕ) (fs' : State) : Prop where
  eq : fs' = { fs with bitmap := update fs.bitmap b true, data := update fs.data b zero }
  mem : b ∈ dataBlocks fs.sb
  slots : ∀ s, slotRef fs' s = slotRef fs s
  unheld : ∀ s, slotRef fs s ≠ some b
  ledger : Ledger (dataBlocks fs.sb \ {b}) (freeBlocks fs') (slotRef fs')

theorem balloc_spec (hc : Core fs) :
    Sat (balloc fs) (· = "balloc: out of blocks") (fun r => Fresh fs r.1 r.2) := by
  rcases balloc_cases fs with ⟨b, hb, hf, he⟩ | he
  · rw [he, sat_ok]
    have hfree : b ∈ freeBlocks fs := ⟨hb, hf⟩
    have hun : ∀ s, slotRef fs s ≠ some b := fun s hs => hc.ledger.apart s b hs hfree
    have hslots : ∀ s, slotRef { fs with bitmap := update fs.bitmap b true, data := update fs.data b zero } s
        = slotRef fs s := by
      intro s
      refine slotRef_frame rfl fun x hx => update_of_ne ?_ _ _
      rintro rfl
      exact hun _ hx
    refine ⟨rfl, hc.ledger.mem_of_free hfree, hslots, hun, ?_⟩
    have hset : freeBlocks { fs with bitmap := update fs.bitmap b true, data := update fs.data b zero }
        = freeBlocks fs \ {b} := by
      ext x
      by_cases hx : x = b
      · subst hx
        simp [freeBlocks]
      · simp [freeBlocks, hx]
    rw [hset]
    exact (hc.ledger.pop hfree).congr hslots
  · rw [he, sat_error]

theorem Fresh.fill {fs1 fs2 : State} (hc : Core fs) (hf : Fresh fs b fs1) (hsb : fs2.sb = fs.sb)
    (hbit : fs2.bitmap = fs1.bitmap) (hnone : slotRef fs s = none) (hsome : slotRef fs2 s = some b)
    (hother : ∀ t, t ≠ s → slotRef fs2 t = slotRef fs t) : Core fs2 := by
  have hfree : freeBlocks fs2 = freeBlocks fs1 := by
    simp only [freeBlocks, hbit, hsb]
    rw [hf.eq]
  have hl := hf.ledger.assign (x := b) (r := s) (fun h => h.2 rfl) ((hf.slots s).trans hnone) hsome
    (fun t ht => (hother t ht).trans (hf.slots t).symm)
  rw [Set.insert_sdiff_singleton, Set.insert_eq_of_mem hf.mem] at hl
  exact ⟨hsb ▸ hc.room, hsb ▸ hc.small, by rw [hsb, hfree]; exact hl⟩

structure Grown (fs fs' : State) (i : ℕ) : Prop where
  sb : fs'.sb = fs.sb
  dinode : fs'.dinode = fs.dinode
  valid : fs'.valid = fs.valid
  ref : fs'.ref = fs.ref
  inode : ∀ j, j ≠ i → fs'.inode j = fs.inode j
  fields : fs'.inode i = { fs.inode i with addrs := (fs'.inode i).addrs }
  kept : ∀ s b, slotRef fs s = some b → slotRef fs' s = some b
  others : ∀ s, s.inum ≠ i → slotRef fs' s = slotRef fs s
  data : ∀ j bn b, j ≠ i → slotRef fs (.block j bn) = some b → fs'.data b = fs.data b

theorem Grown.refl (fs : State) (i : ℕ) : Grown fs fs i :=
  ⟨rfl, rfl, rfl, rfl, fun _ _ => rfl, rfl, fun _ _ h => h, fun _ _ => rfl, fun _ _ _ _ _ => rfl⟩

theorem Grown.trans {fs'' : State} (h : Grown fs fs' i) (h' : Grown fs' fs'' i) : Grown fs fs'' i where
  sb := h'.sb.trans h.sb
  dinode := h'.dinode.trans h.dinode
  valid := h'.valid.trans h.valid
  ref := h'.ref.trans h.ref
  inode j hj := (h'.inode j hj).trans (h.inode j hj)
  fields := by
    rw [h'.fields, h.fields]
  kept s b hs := h'.kept s b (h.kept s b hs)
  others s hs := (h'.others s hs).trans (h.others s hs)
  data j bn b hj hs := (h'.data j bn b hj (h.kept _ b hs)).trans (h.data j bn b hj hs)

def OwnData (fs fs' : State) (i : ℕ) : Prop := ∀ bn b, slotRef fs (.block i bn) = some b → fs'.data b = fs.data b

theorem cur_of_valid (hv : fs.valid i = true) : cur fs i = fs.inode i := by
  rw [cur, if_pos hv]

theorem slotRef_own (hv : fs.valid i = true) (ht : (fs.inode i).type ≠ .free) (hs : s.inum = i) :
    slotNumber fs s = s.number fs.data (fs.inode i) := by
  rw [slotNumber, hs, cur_of_valid hv, if_neg ht]

theorem slotRef_block (hv : fs.valid i = true) (ht : (fs.inode i).type ≠ .free) (hbn : bn < MAXFILE)
    (hb : blk fs.data (fs.inode i) bn ≠ 0) : slotRef fs (.block i bn) = some (blk fs.data (fs.inode i) bn) := by
  rw [slotRef_eq_some, slotRef_own hv ht rfl, Slot.number, if_pos hbn]
  exact ⟨rfl, hb⟩

theorem slotRef_indirect (hv : fs.valid i = true) (ht : (fs.inode i).type ≠ .free)
    (hb : (fs.inode i).addrs NDIRECT ≠ 0) : slotRef fs (.indirect i) = some ((fs.inode i).addrs NDIRECT) := by
  rw [slotRef_eq_some, slotRef_own hv ht rfl]
  exact ⟨rfl, hb⟩

theorem blk_direct (h : bn < NDIRECT) : blk data d bn = d.addrs bn :=
  if_pos h

theorem blk_indirect (h : ¬ bn < NDIRECT) (h0 : d.addrs NDIRECT ≠ 0) :
    blk data d bn = word (data (d.addrs NDIRECT)) (bn - NDIRECT) := by
  rw [blk, if_neg h, if_neg h0]

theorem blk_indirect_zero (h : ¬ bn < NDIRECT) (h0 : d.addrs NDIRECT = 0) : blk data d bn = 0 := by
  rw [blk, if_neg h, if_pos h0]

theorem bmap_of_blk (hbn : bn < MAXFILE) (hb : blk fs.data (fs.inode i) bn ≠ 0) :
    bmap fs i bn = .ok (blk fs.data (fs.inode i) bn, fs) := by
  by_cases hd : bn < NDIRECT
  · rw [blk_direct hd] at hb ⊢
    rw [bmap, if_pos hd, if_neg hb]
  · by_cases h0 : (fs.inode i).addrs NDIRECT = 0
    · exact absurd (blk_indirect_zero hd h0) hb
    · rw [blk_indirect hd h0] at hb ⊢
      have hn : bn - NDIRECT < NINDIRECT := by
        simp only [MAXFILE] at hbn
        omega
      rw [bmap, if_neg hd, if_pos hn, if_neg h0, bmapEntry, if_neg hb]

theorem Fresh.ne_zero (hf : Fresh fs b fs1) (hc : Core fs) : b ≠ 0 := by
  have h := hf.mem.1
  have hr := hc.room
  omega

theorem Fresh.install (d2 : Dinode) (data2 : ℕ → Bytes) (hc : Core fs) (hv : fs.valid i = true)
    (ht : (fs.inode i).type ≠ .free) (hf : Fresh fs b fs1) (hs : s.inum = i)
    (hd2 : d2 = { fs.inode i with addrs := d2.addrs })
    (hnone : s.number fs.data (fs.inode i) = 0) (hnew : s.number data2 d2 = b)
    (hsame : ∀ t : Slot, t.inum = i → t ≠ s → t.number data2 d2 = t.number fs.data (fs.inode i))
    (hdata : ∀ t x, slotRef fs t = some x → t ≠ .indirect i → data2 x = fs.data x) :
    let fs2 := { fs1 with data := data2, inode := update fs.inode i d2 }
    Core fs2 ∧ Grown fs fs2 i ∧ OwnData fs fs2 i ∧ slotRef fs2 s = some b := by
  intro fs2
  have hb := hf.ne_zero hc
  have heq := hf.eq
  have hv2 : fs2.valid i = true := by
    simp only [fs2, heq]
    exact hv
  have hd : fs2.inode i = d2 := update_self ..
  have ht2 : (fs2.inode i).type ≠ .free := by
    rw [hd, hd2]
    exact ht
  have hother : ∀ t, t ≠ s → slotRef fs2 t = slotRef fs t := by
    intro t hts
    by_cases hti : t.inum = i
    · apply slotRef_congr
      rw [slotRef_own hv2 ht2 hti, slotRef_own hv ht hti, hd]
      exact hsame t hti hts
    · refine slotRef_frame ?_ fun x hx => hdata _ x hx ?_
      · simp only [cur, fs2, heq, update_of_ne hti]
      · rintro hi
        exact hti (Slot.indirect.inj hi)
  have hsome : slotRef fs2 s = some b := by
    rw [slotRef_eq_some, slotRef_own hv2 ht2 hs, hd]
    exact ⟨hnew, hb⟩
  have hnone' : slotRef fs s = none := by
    rw [slotRef_eq_none, slotRef_own hv ht hs, hnone]
  have hsb : fs2.sb = fs.sb := by simp only [fs2, heq]
  refine ⟨hf.fill hc hsb rfl hnone' hsome hother, ⟨hsb, ?_, ?_, ?_, ?_, ?_, ?_, ?_, ?_⟩, ?_, hsome⟩
  · simp only [fs2, heq]
  · simp only [fs2, heq]
  · simp only [fs2, heq]
  · exact fun j hj => update_of_ne hj _ _
  · rw [hd]
    exact hd2
  · intro t x hx
    have hts : t ≠ s := by
      rintro rfl
      rw [hnone'] at hx
      cases hx
    rw [hother t hts, hx]
  · intro t hne
    exact hother t fun he => hne (he ▸ hs)
  · exact fun j bn x _ hx => hdata _ x hx (by simp)
  · exact fun bn x hx => hdata _ x hx (by simp)

theorem Fresh.data_eq (hf : Fresh fs b fs1) {x : ℕ} (hx : slotRef fs s = some x) : fs1.data x = fs.data x := by
  rw [hf.eq]
  refine update_of_ne ?_ _ _
  rintro rfl
  exact hf.unheld s hx

theorem Fresh.data_self (hf : Fresh fs b fs1) : fs1.data b = zero := by
  rw [hf.eq]
  exact update_self ..

theorem blk_update_direct {k : ℕ} (hk : k < NDIRECT)
    (hd : d.addrs NDIRECT ≠ 0 → data' (d.addrs NDIRECT) = data (d.addrs NDIRECT)) (bn : ℕ) :
    blk data' { d with addrs := update d.addrs k b } bn = if bn = k then b else blk data d bn := by
  have hne : NDIRECT ≠ k := by omega
  by_cases hbn : bn < NDIRECT
  · rw [blk_direct hbn, blk_direct hbn]
    exact update_apply ..
  · have hbk : bn ≠ k := by omega
    rw [if_neg hbk, ← blk_congr hd bn]
    simp only [blk, if_neg hbn, update_of_ne hne]

theorem blk_update_indirect (data : ℕ → Bytes) (h0 : d.addrs NDIRECT = 0)
    (hz : data' b = zero) (bn : ℕ) : blk data' { d with addrs := update d.addrs NDIRECT b } bn = blk data d bn := by
  by_cases hbn : bn < NDIRECT
  · rw [blk_direct hbn, blk_direct hbn]
    exact update_of_ne (by omega) _ _
  · rw [blk_indirect_zero hbn h0]
    simp only [blk, if_neg hbn, update_self, hz, word_zero, ite_self]

theorem blk_setWord (data : ℕ → Bytes) {j : ℕ} (h0 : d.addrs NDIRECT ≠ 0)
    (hb : b < 2 ^ 32) (hd : data' (d.addrs NDIRECT) = setWord (data (d.addrs NDIRECT)) j b) (bn : ℕ) :
    blk data' d bn = if bn = NDIRECT + j then b else blk data d bn := by
  by_cases hbn : bn < NDIRECT
  · rw [blk_direct hbn, blk_direct hbn, if_neg (by omega)]
  · rw [blk_indirect hbn h0, blk_indirect hbn h0, hd]
    by_cases he : bn = NDIRECT + j
    · subst he
      rw [if_pos rfl, Nat.add_sub_cancel_left, word_setWord_same _ _ hb]
    · rw [if_neg he, word_setWord_ne _ _ (by omega)]

structure Gained (fs : State) (i k b : ℕ) (fs' : State) : Prop where
  core : Core fs'
  grown : Grown fs fs' i
  own : OwnData fs fs' i
  number : ∀ bn, blk fs'.data (fs'.inode i) bn = if bn = k then b else blk fs.data (fs.inode i) bn

section Grow

variable {fs1 : State} (hc : Core fs) (hv : fs.valid i = true) (ht : (fs.inode i).type ≠ .free)
include hc hv ht

omit hc in
theorem Fresh.indirect_data (hf : Fresh fs b fs1) (h0 : (fs.inode i).addrs NDIRECT ≠ 0) :
    fs1.data ((fs.inode i).addrs NDIRECT) = fs.data ((fs.inode i).addrs NDIRECT) :=
  hf.data_eq (slotRef_indirect hv ht h0)

theorem Fresh.setAddr_direct (hf : Fresh fs b fs1) {k : ℕ} (hk : k < NDIRECT) (h0 : (fs.inode i).addrs k = 0) :
    Gained fs i k b (setAddr fs1 i k b) ∧ ((setAddr fs1 i k b).inode i).addrs NDIRECT = (fs.inode i).addrs NDIRECT := by
  have hi : fs1.inode = fs.inode := by rw [hf.eq]
  have hk' : k < MAXFILE := by
    simp only [MAXFILE]
    omega
  have hblk := blk_update_direct (b := b) hk (hf.indirect_data hv ht)
  obtain ⟨h1, h2, h3, -⟩ := hf.install (s := .block i k)
    { fs.inode i with addrs := update (fs.inode i).addrs k b } fs1.data hc hv ht rfl rfl
    (by simp [Slot.number, hk', blk_direct hk, h0]) (by simp [Slot.number, hk', hblk])
    (fun t hti hts => by
      cases t with
      | indirect j => exact update_of_ne (by omega) _ _
      | block j bn =>
        have hne : bn ≠ k := fun h => hts (by rw [h]; exact congrArg (Slot.block · k) hti)
        simp [Slot.number, hblk, hne])
    (fun t x hx _ => hf.data_eq hx)
  have he : setAddr fs1 i k b = { fs1 with
      inode := update fs.inode i { fs.inode i with addrs := update (fs.inode i).addrs k b } } := by
    simp only [setAddr, setInode, hi]
  have hin : (setAddr fs1 i k b).inode i = { fs.inode i with addrs := update (fs.inode i).addrs k b } := by
    rw [he]
    exact update_self ..
  refine ⟨⟨by rw [he]; exact h1, by rw [he]; exact h2, by rw [he]; exact h3, ?_⟩, ?_⟩
  · intro bn
    rw [hin]
    exact hblk bn
  · rw [hin]
    exact update_of_ne (by omega) _ _

theorem Fresh.setAddr_indirect (hf : Fresh fs b fs1) (h0 : (fs.inode i).addrs NDIRECT = 0) :
    Core (setAddr fs1 i NDIRECT b) ∧ Grown fs (setAddr fs1 i NDIRECT b) i ∧ OwnData fs (setAddr fs1 i NDIRECT b) i ∧
      (∀ bn, blk (setAddr fs1 i NDIRECT b).data ((setAddr fs1 i NDIRECT b).inode i) bn =
        blk fs.data (fs.inode i) bn) ∧ ((setAddr fs1 i NDIRECT b).inode i).addrs NDIRECT = b := by
  have hi : fs1.inode = fs.inode := by rw [hf.eq]
  have hblk := blk_update_indirect fs.data h0 hf.data_self
  obtain ⟨h1, h2, h3, -⟩ := hf.install (s := .indirect i)
    { fs.inode i with addrs := update (fs.inode i).addrs NDIRECT b } fs1.data hc hv ht rfl rfl h0
    (by simp [Slot.number])
    (fun t hti hts => by
      cases t with
      | indirect j => exact absurd (congrArg Slot.indirect hti) hts
      | block j bn => simp [Slot.number, hblk])
    (fun t x hx _ => hf.data_eq hx)
  have he : setAddr fs1 i NDIRECT b = { fs1 with
      inode := update fs.inode i { fs.inode i with addrs := update (fs.inode i).addrs NDIRECT b } } := by
    simp only [setAddr, setInode, hi]
  have hin : (setAddr fs1 i NDIRECT b).inode i =
      { fs.inode i with addrs := update (fs.inode i).addrs NDIRECT b } := by
    rw [he]
    exact update_self ..
  refine ⟨by rw [he]; exact h1, by rw [he]; exact h2, by rw [he]; exact h3, ?_, ?_⟩
  · intro bn
    rw [hin]
    exact hblk bn
  · rw [hin]
    simp only [update_self]

theorem Fresh.setData_entry (hf : Fresh fs b fs1) {bn : ℕ} (hbn : NDIRECT ≤ bn) (hmax : bn < MAXFILE)
    (h0 : (fs.inode i).addrs NDIRECT ≠ 0) (hz : blk fs.data (fs.inode i) bn = 0) :
    Gained fs i bn b (setData fs1 ((fs.inode i).addrs NDIRECT)
      (setWord (fs1.data ((fs.inode i).addrs NDIRECT)) (bn - NDIRECT) b)) ∧ fs1.inode i = fs.inode i := by
  have hi : fs1.inode = fs.inode := by rw [hf.eq]
  have hb : b < 2 ^ 32 := hf.mem.2.trans_le hc.small
  have hind := slotRef_indirect hv ht h0
  set a := (fs.inode i).addrs NDIRECT with ha
  set data2 := update fs1.data a (setWord (fs1.data a) (bn - NDIRECT) b) with hd2
  have hword : data2 a = setWord (fs.data a) (bn - NDIRECT) b := by
    rw [hd2, update_self, hf.data_eq hind]
  have hblk : ∀ k, blk data2 (fs.inode i) k = if k = bn then b else blk fs.data (fs.inode i) k := by
    have h := blk_setWord fs.data (d := fs.inode i) h0 hb hword
    rwa [show NDIRECT + (bn - NDIRECT) = bn by omega] at h
  obtain ⟨h1, h2, h3, -⟩ := hf.install (s := .block i bn) (fs.inode i) data2 hc hv ht rfl rfl
    (by simp [Slot.number, hz]) (by simp [Slot.number, hmax, hblk])
    (fun t hti hts => by
      cases t with
      | indirect j => rfl
      | block j k =>
        have hne : k ≠ bn := fun h => hts (by rw [h]; exact congrArg (Slot.block · bn) hti)
        simp [Slot.number, hblk, hne])
    (fun t x hx hti => by
      have hne : x ≠ a := fun h => hti (hc.ledger.inj t _ x hx (h ▸ hind))
      rw [hd2, update_of_ne hne, hf.data_eq hx])
  have he : setData fs1 a (setWord (fs1.data a) (bn - NDIRECT) b) =
      { fs1 with data := data2, inode := update fs.inode i (fs.inode i) } := by
    rw [setData, update_eq_self, ← hi]
  refine ⟨⟨by rw [he]; exact h1, by rw [he]; exact h2, by rw [he]; exact h3, ?_⟩, by rw [hi]⟩
  intro k
  rw [← hblk k]
  simp only [setData, hi, hd2]

end Grow

theorem Grown.type {fs' : State} (h : Grown fs fs' i) : (fs'.inode i).type = (fs.inode i).type := by
  rw [h.fields]

structure Mapped (fs : State) (i c bn : ℕ) (r : ℕ × State) : Prop where
  core : Core r.2
  grown : Grown fs r.2 i
  own : OwnData fs r.2 i
  filled : Filled r.2.data (r.2.inode i) (max c (bn + 1))
  result : slotRef r.2 (.block i bn) = some r.1
  same : bn < c → r.2 = fs

theorem Gained.mapped (hv : fs.valid i = true) (ht : (fs.inode i).type ≠ .free) (hb : b ≠ 0)
    (hfill : ∀ k < MAXFILE, blk fs.data (fs.inode i) k ≠ 0 ↔ k < bn) (hmax : bn < MAXFILE)
    (h : Gained fs i bn b fs') (hind : (fs'.inode i).addrs NDIRECT ≠ 0 ↔ NDIRECT < bn + 1) :
    Mapped fs i bn bn (b, fs') := by
  refine ⟨h.core, h.grown, h.own, ⟨?_, ?_⟩, ?_, fun hlt => absurd hlt (lt_irrefl bn)⟩
  · intro k hk
    rw [h.number k, max_eq_right (Nat.le_succ bn)]
    split_ifs with he
    · simp [he, hb]
    · rw [hfill k hk]
      omega
  · rwa [max_eq_right (Nat.le_succ bn)]
  · have hblk := h.number bn
    rw [if_pos rfl] at hblk
    have hr := slotRef_block (by rw [h.grown.valid]; exact hv) (by rw [h.grown.type]; exact ht) hmax
      (by rw [hblk]; exact hb)
    rwa [hblk] at hr

theorem bmapEntry_spec (bn : ℕ) (hc : Core fs) (hv : fs.valid i = true) (ht : (fs.inode i).type ≠ .free)
    (hfill : ∀ k < MAXFILE, blk fs.data (fs.inode i) k ≠ 0 ↔ k < bn) (hd : ¬ bn < NDIRECT) (hmax : bn < MAXFILE)
    (h0 : (fs.inode i).addrs NDIRECT ≠ 0) :
    Sat (bmapEntry fs ((fs.inode i).addrs NDIRECT) (bn - NDIRECT)) (· = "balloc: out of blocks")
    (Mapped fs i bn bn) := by
  have hz : blk fs.data (fs.inode i) bn = 0 := by
    by_contra hne
    exact absurd ((hfill bn hmax).mp hne) (lt_irrefl bn)
  have hw : word (fs.data ((fs.inode i).addrs NDIRECT)) (bn - NDIRECT) = 0 := by rwa [blk_indirect hd h0] at hz
  rw [bmapEntry, if_pos hw]
  refine (balloc_spec hc).bind fun r hf => ?_
  rw [sat_ok]
  obtain ⟨hg, hi⟩ := hf.setData_entry hc hv ht (by omega) hmax h0 hz
  refine hg.mapped hv ht (hf.ne_zero hc) hfill hmax ?_
  simp only [setData, hi]
  exact iff_of_true h0 (by omega)

theorem bmap_spec (hc : Core fs) (hv : fs.valid i = true) (ht : (fs.inode i).type ≠ .free)
    (hfill : Filled fs.data (fs.inode i) c) (hbn : bn ≤ c) (hmax : bn < MAXFILE) :
    Sat (bmap fs i bn) (· = "balloc: out of blocks") (Mapped fs i c bn) := by
  rcases Nat.lt_or_eq_of_le hbn with hlt | rfl
  · have hne := (hfill.blocks bn hmax).mpr hlt
    rw [bmap_of_blk hmax hne, sat_ok]
    exact ⟨hc, Grown.refl fs i, fun _ _ _ => rfl, by rwa [max_eq_left (by omega)], slotRef_block hv ht hmax hne,
      fun _ => rfl⟩
  · by_cases hd : bn < NDIRECT
    · have h0 : (fs.inode i).addrs bn = 0 := by
        by_contra hne
        exact absurd ((hfill.blocks bn hmax).mp (by rwa [blk_direct hd])) (lt_irrefl bn)
      rw [bmap, if_pos hd, if_pos h0]
      refine (balloc_spec hc).bind fun r hf => ?_
      rw [sat_ok]
      obtain ⟨hg, hi⟩ := hf.setAddr_direct hc hv ht hd h0
      refine hg.mapped hv ht (hf.ne_zero hc) hfill.blocks hmax ?_
      rw [hi, hfill.indirect]
      omega
    · have hn : bn - NDIRECT < NINDIRECT := by
        simp only [MAXFILE] at hmax
        omega
      rw [bmap, if_neg hd, if_pos hn]
      by_cases h0 : (fs.inode i).addrs NDIRECT = 0
      · -- the file has outgrown its direct slots: the indirect block comes first
        rw [if_pos h0]
        refine (balloc_spec hc).bind fun r hf => ?_
        obtain ⟨hc2, hg2, ho2, hblk, hi⟩ := hf.setAddr_indirect hc hv ht h0
        have hentry := bmapEntry_spec bn hc2 (by rw [hg2.valid]; exact hv) (by rw [hg2.type]; exact ht)
          (fun k hk => by rw [hblk k]; exact hfill.blocks k hk) hd hmax (by rw [hi]; exact hf.ne_zero hc)
        rw [hi] at hentry
        refine hentry.post fun r' hm => ⟨hm.core, hg2.trans hm.grown, ?_, hm.filled, hm.result,
          fun hlt => absurd hlt (lt_irrefl bn)⟩
        exact fun k x hx => (hm.own k x (hg2.kept _ x hx)).trans (ho2 k x hx)
      · rw [if_neg h0]
        exact bmapEntry_spec bn hc hv ht hfill.blocks hd hmax h0

end Xv6.Fs
