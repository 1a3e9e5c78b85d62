import Xv6.FileContents

/-!
The life of an inode: `ialloc` takes it, `ilock` reads it, `iput` truncates and frees it.
-/

namespace Xv6.Fs

open ByteMemory Contract Ownership
open Function (update update_self update_of_ne update_idem update_eq_self)

variable {fs fs' : State} {i j b : ℕ}

def clearBits (bitmap : ℕ → Bool) (bs : List ℕ) : ℕ → Bool := fun b => bitmap b && decide (b ∉ bs)

@[simp] theorem clearBits_nil (bitmap : ℕ → Bool) : clearBits bitmap [] = bitmap := by
  funext b
  simp [clearBits]

theorem clearBits_append (bitmap : ℕ → Bool) (bs cs : List ℕ) :
    clearBits (clearBits bitmap bs) cs = clearBits bitmap (bs ++ cs) := by
  funext b
  simp [clearBits, Bool.and_assoc]

theorem bfree_eq (h : fs.bitmap b = true) : bfree fs b = .ok { fs with bitmap := clearBits fs.bitmap [b] } := by
  rw [bfree, if_pos h]
  congr 2
  funext x
  by_cases hx : x = b
  · simp [clearBits, hx]
  · simp [clearBits, hx]

def nonzero (a : ℕ → ℕ) (ks : List ℕ) : List ℕ := (ks.map a).filter (· ≠ 0)

theorem nonzero_cons (a : ℕ → ℕ) (k : ℕ) (ks : List ℕ) :
    nonzero a (k :: ks) = if a k ≠ 0 then a k :: nonzero a ks else nonzero a ks := by
  by_cases h : a k = 0 <;> simp [nonzero, h]

def zeroOn (a : ℕ → ℕ) (ks : List ℕ) : ℕ → ℕ := fun k => if k ∈ ks then 0 else a k

@[simp] theorem zeroOn_nil (a : ℕ → ℕ) : zeroOn a [] = a := by
  funext k
  simp [zeroOn]

theorem zeroOn_cons (a : ℕ → ℕ) (k : ℕ) (ks : List ℕ) : zeroOn a (k :: ks) = zeroOn (update a k 0) ks := by
  funext x
  by_cases hx : x = k
  · simp [zeroOn, hx]
  · simp [zeroOn, hx]

theorem zeroOn_range_succ (a : ℕ → ℕ) (n : ℕ) :
    zeroOn a (List.range (n + 1)) = update (zeroOn a (List.range n)) n 0 := by
  funext k
  by_cases hk : k = n
  · simp [zeroOn, hk]
  · have hiff : k < n + 1 ↔ k < n := by omega
    simp [zeroOn, hk, hiff]

theorem nonzero_update {a : ℕ → ℕ} {k : ℕ} {ks : List ℕ} (hk : k ∉ ks) :
    nonzero (update a k 0) ks = nonzero a ks := by
  simp only [nonzero]
  congr 1
  apply List.map_congr_left
  intro x hx
  exact update_of_ne (by rintro rfl; exact hk hx) _ _

theorem clearBits_apply_of_notMem {bitmap : ℕ → Bool} {bs : List ℕ} (h : bitmap b = true) (hb : b ∉ bs) :
    clearBits bitmap bs b = true := by
  simp [clearBits, h, hb]

theorem truncIndirect_eq (a : Bytes) (js : List ℕ) (hn : (nonzero (word a) js).Nodup)
    (hb : ∀ b ∈ nonzero (word a) js, fs.bitmap b = true) :
    truncIndirect a fs js = .ok { fs with bitmap := clearBits fs.bitmap (nonzero (word a) js) } := by
  induction js generalizing fs with
  | nil => simp [truncIndirect, nonzero]
  | cons j js ih =>
    rw [truncIndirect]
    rw [nonzero_cons] at hn hb ⊢
    by_cases h0 : word a j ≠ 0
    · rw [if_pos h0] at hn hb ⊢
      rw [if_pos h0, bfree_eq (hb _ (List.mem_cons_self ..)), Outcome.ok_bind, ih (List.nodup_cons.mp hn).2,
          clearBits_append]
      · rfl
      · intro b hbm
        refine clearBits_apply_of_notMem (hb b (List.mem_cons_of_mem _ hbm)) ?_
        rw [List.mem_singleton]
        rintro rfl
        exact (List.nodup_cons.mp hn).1 hbm
    · rw [if_neg h0] at hn hb ⊢
      rw [if_neg h0, ih hn hb]

theorem truncDirect_eq (ks : List ℕ) (hk : ks.Nodup) (hn : (nonzero (fs.inode i).addrs ks).Nodup)
    (hb : ∀ b ∈ nonzero (fs.inode i).addrs ks, fs.bitmap b = true) :
    truncDirect fs i ks = .ok { setInode fs i { fs.inode i with addrs := zeroOn (fs.inode i).addrs ks } with
      bitmap := clearBits fs.bitmap (nonzero (fs.inode i).addrs ks) } := by
  induction ks generalizing fs with
  | nil => simp [truncDirect, nonzero, setInode]
  | cons k ks ih =>
    rw [truncDirect]
    rw [nonzero_cons] at hn hb ⊢
    by_cases h0 : (fs.inode i).addrs k ≠ 0
    · rw [if_pos h0] at hn hb ⊢
      rw [if_pos h0, bfree_eq (hb _ (List.mem_cons_self ..)), Outcome.ok_bind]
      have haddrs : ((setAddr { fs with bitmap := clearBits fs.bitmap [(fs.inode i).addrs k] } i k 0).inode i).addrs =
          update (fs.inode i).addrs k 0 := by
        simp only [setAddr, setInode, update_self]
      have hrest : nonzero
          ((setAddr { fs with bitmap := clearBits fs.bitmap [(fs.inode i).addrs k] } i k 0).inode i).addrs ks
          = nonzero (fs.inode i).addrs ks := by
        rw [haddrs, nonzero_update (List.nodup_cons.mp hk).1]
      rw [ih (List.nodup_cons.mp hk).2 (by rw [hrest]; exact (List.nodup_cons.mp hn).2) ?_, hrest, haddrs, zeroOn_cons]
      · simp only [setAddr, setInode, update_self, update_idem, clearBits_append, List.singleton_append]
      · intro b hbm
        rw [hrest] at hbm
        refine clearBits_apply_of_notMem (hb b (List.mem_cons_of_mem _ hbm)) ?_
        rw [List.mem_singleton]
        rintro rfl
        exact (List.nodup_cons.mp hn).1 hbm
    · rw [if_neg h0] at hn hb ⊢
      have hzero : update (fs.inode i).addrs k 0 = (fs.inode i).addrs := by
        rw [← not_not.mp h0, update_eq_self]
      rw [if_neg h0, ih (List.nodup_cons.mp hk).2 hn hb, zeroOn_cons, hzero]

def slotsOf (i : ℕ) : List Slot :=
  (List.range NDIRECT).map (Slot.block i) ++ (List.range NINDIRECT).map (fun j => Slot.block i (NDIRECT + j)) ++
    [Slot.indirect i]

def ownBlocks (fs : State) (i : ℕ) : List ℕ := (slotsOf i).filterMap (slotRef fs)

theorem mem_slotsOf {s : Slot} (hs : s.inum = i) {b : ℕ} (hb : slotRef fs s = some b) : s ∈ slotsOf i := by
  cases s with
  | indirect j =>
    obtain rfl : j = i := hs
    simp [slotsOf]
  | block j bn =>
    obtain rfl : j = i := hs
    have hbn : bn < MAXFILE := by
      by_contra hge
      rw [slotRef_eq_some, slotNumber] at hb
      simp only [Slot.number, if_neg hge, ite_self] at hb
      exact hb.2 hb.1.symm
    simp only [slotsOf, List.mem_append, List.mem_map, List.mem_range, Slot.block.injEq, true_and]
    by_cases hd : bn < NDIRECT
    · exact Or.inl (Or.inl ⟨bn, hd, rfl⟩)
    · refine Or.inl (Or.inr ⟨bn - NDIRECT, ?_, by omega⟩)
      simp only [MAXFILE] at hbn
      omega

theorem inum_of_mem_slotsOf {s : Slot} (hs : s ∈ slotsOf i) : s.inum = i := by
  simp only [slotsOf, List.mem_append, List.mem_map, List.mem_singleton] at hs
  rcases hs with (⟨_, _, rfl⟩ | ⟨_, _, rfl⟩) | rfl <;> rfl

theorem mem_ownBlocks : b ∈ ownBlocks fs i ↔ ∃ s : Slot, s.inum = i ∧ slotRef fs s = some b := by
  rw [ownBlocks, List.mem_filterMap]
  constructor
  · rintro ⟨s, hs, hb⟩
    exact ⟨s, inum_of_mem_slotsOf hs, hb⟩
  · rintro ⟨s, hs, hb⟩
    exact ⟨s, mem_slotsOf hs hb, hb⟩

theorem nodup_slotsOf (i : ℕ) : (slotsOf i).Nodup := by
  simp only [slotsOf, List.nodup_append, List.mem_append, List.mem_map, List.mem_range, List.mem_singleton]
  refine ⟨⟨?_, ?_, ?_⟩, List.nodup_singleton _, ?_⟩
  · exact List.nodup_range.map fun a b h => (Slot.block.inj h).2
  · exact List.nodup_range.map fun a b h => Nat.add_left_cancel (Slot.block.inj h).2
  · rintro _ ⟨a, ha, rfl⟩ _ ⟨c, _, rfl⟩ h
    have := (Slot.block.inj h).2
    omega
  · rintro _ (⟨a, _, rfl⟩ | ⟨a, _, rfl⟩) _ rfl <;> simp

theorem Core.nodup_ownBlocks (hc : Core fs) (i : ℕ) : (ownBlocks fs i).Nodup :=
  (nodup_slotsOf i).filterMap fun s t b hs ht => hc.ledger.inj s t b hs ht

theorem Core.bitmap_of_held (hc : Core fs) {s : Slot} (hs : slotRef fs s = some b) : fs.bitmap b = true := by
  by_contra hne
  have hmem := hc.mem_dataBlocks hs
  exact hc.ledger.apart s b hs ⟨hmem.2, by simpa using hne⟩

theorem filterMap_slotRef {f : ℕ → ℕ} {mk : ℕ → Slot} (ks : List ℕ) (h : ∀ k ∈ ks, slotNumber fs (mk k) = f k) :
    (ks.map mk).filterMap (slotRef fs) = nonzero f ks := by
  induction ks with
  | nil => rfl
  | cons k ks ih =>
    have hk := h k (List.mem_cons_self ..)
    rw [nonzero_cons, ← ih fun x hx => h x (List.mem_cons_of_mem _ hx), List.map_cons, List.filterMap_cons, slotRef, hk]
    by_cases h0 : f k = 0 <;> simp [h0]

section Trunc

variable (hv : fs.valid i = true) (ht : (fs.inode i).type ≠ .free)
include hv ht

theorem ownBlocks_eq : ownBlocks fs i = nonzero (fs.inode i).addrs (List.range NDIRECT) ++
    if (fs.inode i).addrs NDIRECT = 0 then []
    else nonzero (word (fs.data ((fs.inode i).addrs NDIRECT))) (List.range NINDIRECT) ++
    [(fs.inode i).addrs NDIRECT] := by
  have hown : ∀ bn < MAXFILE, slotNumber fs (.block i bn) = blk fs.data (fs.inode i) bn := by
    intro bn hbn
    rw [slotRef_own hv ht rfl, Slot.number, if_pos hbn]
  rw [ownBlocks, slotsOf, List.filterMap_append, List.filterMap_append, List.append_assoc]
  congr 1
  · apply filterMap_slotRef
    intro k hk
    have hk' := List.mem_range.mp hk
    rw [hown k (by simp only [MAXFILE]; omega), blk_direct hk']
  · rw [filterMap_slotRef (f := fun j => blk fs.data (fs.inode i) (NDIRECT + j)) _ fun j hj => hown _ (by
      have hj' := List.mem_range.mp hj
      simp only [MAXFILE]
      omega)]
    have hind : slotRef fs (.indirect i) =
        if (fs.inode i).addrs NDIRECT = 0 then none else some ((fs.inode i).addrs NDIRECT) := by
      rw [slotRef, slotRef_own hv ht rfl]
      rfl
    by_cases h0 : (fs.inode i).addrs NDIRECT = 0
    · simp [nonzero, hind, h0, blk]
    · have hb : (fun j => blk fs.data (fs.inode i) (NDIRECT + j)) = word (fs.data ((fs.inode i).addrs NDIRECT)) := by
        funext j
        rw [blk_indirect (by omega) h0, Nat.add_sub_cancel_left]
      rw [hb, if_neg h0]
      simp [hind, h0]

theorem itrunc_eq (hc : Core fs) :
    itrunc fs i = .ok (commit { fs with bitmap := clearBits fs.bitmap (ownBlocks fs i) } i
      { fs.inode i with size := 0, addrs := zeroOn (fs.inode i).addrs (List.range (NDIRECT + 1)) }) := by
  have hnodup := hc.nodup_ownBlocks i
  have hset : ∀ b ∈ ownBlocks fs i, fs.bitmap b = true := by
    intro b hb
    obtain ⟨s, _, hs⟩ := mem_ownBlocks.mp hb
    exact hc.bitmap_of_held hs
  have hown := ownBlocks_eq hv ht
  rw [hown, List.nodup_append] at hnodup
  rw [hown] at hset
  rw [itrunc, truncDirect_eq _ List.nodup_range hnodup.1 fun b hb => hset b (List.mem_append_left _ hb),
      Outcome.ok_bind]
  set a := (fs.inode i).addrs NDIRECT with ha
  set fs1 : State := { setInode fs i { fs.inode i with addrs := zeroOn (fs.inode i).addrs (List.range NDIRECT) } with
    bitmap := clearBits fs.bitmap (nonzero (fs.inode i).addrs (List.range NDIRECT)) } with hfs1
  have hin : fs1.inode i = { fs.inode i with addrs := zeroOn (fs.inode i).addrs (List.range NDIRECT) } :=
    update_self ..
  have hind : (fs1.inode i).addrs NDIRECT = a := by
    rw [hin]
    simp [zeroOn, ha]
  have hdata : fs1.data = fs.data := rfl
  rw [hown, zeroOn_range_succ]
  dsimp only
  rw [hind]
  by_cases h0 : a = 0
  · have hz : update (zeroOn (fs.inode i).addrs (List.range NDIRECT)) NDIRECT 0 =
        zeroOn (fs.inode i).addrs (List.range NDIRECT) := by
      rw [hin] at hind
      rw [← h0, ← hind, update_eq_self]
    rw [if_neg (not_not.mpr h0), Outcome.ok_bind, if_pos h0, List.append_nil, hz, hin]
    simp only [commit, iupdate, setInode, hfs1, update_idem, update_self]
  · rw [if_neg h0] at hnodup hset
    rw [if_pos h0, if_neg h0, hdata]
    have hleft : ∀ b ∈ nonzero (word (fs.data a)) (List.range NINDIRECT) ++ [a], fs1.bitmap b = true := by
      intro b hb
      refine clearBits_apply_of_notMem (hset b (List.mem_append_right _ hb)) fun hm => ?_
      exact hnodup.2.2 b hm b hb rfl
    have hnodup' := List.nodup_append.mp hnodup.2.1
    rw [truncIndirect_eq _ _ hnodup'.1 fun b hb => hleft b (List.mem_append_left _ hb), Outcome.ok_bind, bfree_eq ?_,
      Outcome.ok_bind, Outcome.ok_bind, clearBits_append]
    · simp only [commit, iupdate, setAddr, setInode, hfs1, update_idem, update_self, clearBits_append,
        List.append_assoc]
    · refine clearBits_apply_of_notMem (hleft a (by simp)) fun hm => ?_
      exact hnodup'.2.2 a hm a (List.mem_singleton_self a) rfl

end Trunc

theorem Core.of_reclaim (hc : Core fs) {fs' : State} (hsb : fs'.sb = fs.sb) (hdata : fs'.data = fs.data)
    (hbit : fs'.bitmap = clearBits fs.bitmap (ownBlocks fs i)) (hcur : ∀ j, j ≠ i → cur fs' j = cur fs j)
    (hnone : ∀ s : Slot, s.inum = i → slotRef fs' s = none) : Core fs' := by
  have hl := hc.ledger.reclaim {s | s.inum = i} hnone fun s hs =>
    slotRef_frame (hcur _ hs) fun b _ => by rw [hdata]
  refine ⟨hsb ▸ hc.room, hsb ▸ hc.small, ?_⟩
  have hfree : freeBlocks fs' = freeBlocks fs ∪ {b | ∃ s ∈ {s : Slot | s.inum = i}, slotRef fs s = some b} := by
    ext b
    have hiff : b ∈ {b | ∃ s ∈ {s : Slot | s.inum = i}, slotRef fs s = some b} ↔ b ∈ ownBlocks fs i :=
        mem_ownBlocks.symm
    rw [Set.mem_union, hiff]
    simp only [freeBlocks, hsb, hbit, clearBits, Set.mem_ofPred_eq, Bool.and_eq_false_iff, decide_eq_false_iff_not,
        not_not]
    constructor
    · rintro ⟨h1, h2 | h2⟩
      · exact Or.inl ⟨h1, h2⟩
      · exact Or.inr h2
    · rintro (⟨h1, h2⟩ | h2)
      · exact ⟨h1, Or.inl h2⟩
      · obtain ⟨s, _, hs⟩ := mem_ownBlocks.mp h2
        exact ⟨(hc.mem_dataBlocks hs).2, Or.inr h2⟩
  rw [hfree, hsb]
  exact hl


theorem Inv.cur_eq (h : Inv fs) (i : ℕ) : cur fs i = fs.dinode i := by
  rw [cur]
  split_ifs with hv
  · exact h.sync i hv
  · rfl

theorem Inv.of_cur (fs' : State) (h : Inv fs) (hsb : fs'.sb = fs.sb) (hbit : fs'.bitmap = fs.bitmap)
    (hdata : fs'.data = fs.data) (hcur : ∀ j, cur fs' j = cur fs j) (hsync : ∀ j, fs'.valid j = true →
      fs'.inode j = fs'.dinode j)
    (htyped : ∀ j, fs'.valid j = true → (fs'.dinode j).type ≠ .free) : Inv fs' ∧ ∀ j, file fs' j = file fs j := by
  have hslots : ∀ s, slotRef fs' s = slotRef fs s := fun s => slotRef_frame (hcur _) fun b _ => by rw [hdata]
  have hfree : freeBlocks fs' = freeBlocks fs := by simp only [freeBlocks, hsb, hbit]
  refine ⟨⟨⟨hsb ▸ h.core.room, hsb ▸ h.core.small, ?_⟩, ?_, ?_, hsync, htyped⟩, ?_⟩
  · rw [hsb, hfree]
    exact h.core.ledger.congr hslots
  · intro j hj
    rw [hcur] at hj ⊢
    rw [hdata]
    exact h.filled j hj
  · intro j hj
    rw [hcur] at hj ⊢
    exact h.bound j hj
  · exact fun j => file_congr h (hcur j) fun bn b hb => ⟨(hslots _).trans hb, by rw [hdata]⟩

theorem Inv.setRef (h : Inv fs) (r : ℕ → ℕ) : Inv { fs with ref := r } ∧ ∀ j, file { fs with ref := r } j = file fs j :=
  h.of_cur _ rfl rfl rfl (fun _ => rfl) h.sync h.typed

structure Freed (fs : State) (i : ℕ) (fs' : State) : Prop where
  inv : Inv fs'
  self : file fs' i = none
  others : ∀ j, j ≠ i → file fs' j = file fs j
  bitmap : ∀ b, fs'.bitmap b = true ↔ fs.bitmap b = true ∧ b ∉ ownBlocks fs i
  type : (fs'.dinode i).type = .free
  valid : fs'.valid = update fs.valid i false
  ref : fs'.ref = fs.ref
  sb : fs'.sb = fs.sb

theorem ifree_eq (hc : Core fs) (hv : fs.valid i = true) (ht : (fs.inode i).type ≠ .free) :
    ifree fs i = .ok { commit { fs with bitmap := clearBits fs.bitmap (ownBlocks fs i) } i
      { fs.inode i with type := .free, size := 0, addrs := zeroOn (fs.inode i).addrs (List.range (NDIRECT + 1)) } with
      valid := update fs.valid i false } := by
  rw [ifree, itrunc_eq hv ht hc, Outcome.ok_bind]
  simp only [commit, iupdate, setInode, update_self, update_idem]

theorem ifree_spec (h : Inv fs) (hv : fs.valid i = true) : ∃ fs', ifree fs i = .ok fs' ∧ Freed fs i fs' := by
  have ht := h.typed_inode hv
  refine ⟨_, ifree_eq h.core hv ht, ?_⟩
  set fs' : State := { commit { fs with bitmap := clearBits fs.bitmap (ownBlocks fs i) } i
      { fs.inode i with type := .free, size := 0, addrs := zeroOn (fs.inode i).addrs (List.range (NDIRECT + 1)) } with
      valid := update fs.valid i false } with hfs'
  have hself : cur fs' i =
      { fs.inode i with type := .free, size := 0, addrs := zeroOn (fs.inode i).addrs (List.range (NDIRECT + 1)) } := by
    simp [cur, hfs', commit, iupdate, setInode]
  have hother : ∀ j, j ≠ i → cur fs' j = cur fs j := by
    intro j hj
    simp [cur, hfs', commit, iupdate, setInode, hj]
  have hslots : ∀ s : Slot, s.inum ≠ i → slotRef fs' s = slotRef fs s :=
      fun s hs => slotRef_frame (hother _ hs) fun _ _ => rfl
  have hcore : Core fs' := by
    refine h.core.of_reclaim rfl rfl rfl hother fun s hs => ?_
    rw [slotRef_eq_none, slotNumber, hs, hself, if_pos rfl]
  refine ⟨⟨hcore, ?_, ?_, ?_, ?_⟩, by rw [file, hself, if_pos rfl], ?_, ?_, ?_, rfl, rfl, rfl⟩
  · intro j hj
    have hne : j ≠ i := by
      rintro rfl
      exact hj (by rw [hself])
    rw [hother j hne] at hj
    have hf := (h.filled j hj).congr_ne (hother j hne) hj fun bn => hslots _ hne
    rwa [← hother j hne] at hf
  · intro j hj
    have hne : j ≠ i := by
      rintro rfl
      exact hj (by rw [hself])
    rw [hother j hne] at hj ⊢
    exact h.bound j hj
  · intro j hj
    have hne : j ≠ i := by
      rintro rfl
      simp [hfs'] at hj
    simp only [hfs', commit, iupdate, setInode, update_of_ne hne] at hj ⊢
    exact h.sync j hj
  · intro j hj
    have hne : j ≠ i := by
      rintro rfl
      simp [hfs'] at hj
    simp only [hfs', commit, iupdate, setInode, update_of_ne hne] at hj ⊢
    exact h.typed j hj
  · exact fun j hj => file_congr h (hother j hj) fun bn b hb => ⟨(hslots (.block j bn) hj).trans hb, rfl⟩
  · intro b
    simp [hfs', commit, iupdate, setInode, clearBits]
  · simp [hfs', commit, iupdate, setInode]

def Last (fs : State) (i : ℕ) : Prop := fs.valid i = true ∧ (fs.inode i).nlink = 0 ∧ fs.ref i = 1

theorem iput_cases (h : Inv fs) (i : ℕ) :
    (Last fs i ∧ ∃ fs1, Freed fs i fs1 ∧ iput fs i = .ok (dropRef fs1 i)) ∨
      (¬ Last fs i ∧ iput fs i = .ok (dropRef fs i)) := by
  unfold Last
  by_cases hl : fs.valid i = true ∧ (fs.inode i).nlink = 0 ∧ fs.ref i = 1
  · obtain ⟨fs1, he, hf⟩ := ifree_spec h hl.1
    refine Or.inl ⟨hl, fs1, hf, ?_⟩
    rw [iput, if_pos hl, he]
    rfl
  · refine Or.inr ⟨hl, ?_⟩
    rw [iput, if_neg hl]
    rfl

theorem iput_spec (h : Inv fs) (i : ℕ) : ∃ fs', iput fs i = .ok fs' ∧ Inv fs' ∧
    fs'.ref = update fs.ref i (fs.ref i - 1) ∧ fs'.sb = fs.sb ∧ (∀ j, j ≠ i → fs'.valid j = fs.valid j) ∧
    ((∀ j, file fs' j = file fs j) ∧ fs'.valid i = fs.valid i ∧ ¬ Last fs i ∨
      (∀ j, j ≠ i → file fs' j = file fs j) ∧ file fs' i = none ∧ fs'.valid i = false ∧ Last fs i) := by
  rcases iput_cases h i with ⟨hl, fs1, hf, he⟩ | ⟨hl, he⟩
  · refine ⟨_, he, (hf.inv.setRef _).1, ?_, hf.sb, ?_, Or.inr ⟨?_, ?_, ?_, hl⟩⟩
    · simp only [dropRef, hf.ref]
    · intro j hj
      simp only [dropRef, hf.valid, update_of_ne hj]
    · exact fun j hj => ((hf.inv.setRef _).2 j).trans (hf.others j hj)
    · exact ((hf.inv.setRef _).2 i).trans hf.self
    · simp only [dropRef, hf.valid, update_self]
  · exact ⟨_, he, (h.setRef _).1, rfl, rfl, fun _ _ => rfl, Or.inl ⟨(h.setRef _).2, rfl, hl⟩⟩

structure Cached (fs fs' : State) : Prop where
  inv : Inv fs'
  files : ∀ j, file fs' j = file fs j
  sb : fs'.sb = fs.sb

theorem iget_spec (h : Inv fs) (i : ℕ) : Sat (iget fs i) (· = "iget: no inodes") (fun fs' => Cached fs fs' ∧
    fs'.ref = update fs.ref i (fs.ref i + 1) ∧ (∀ j, j ≠ i → fs'.valid j = fs.valid j) ∧
    (fs'.valid i = true → fs.valid i = true ∧ 0 < fs.ref i) ∧ (0 < fs.ref i → fs'.valid i = fs.valid i)) := by
  rw [iget]
  refine sat_ite (fun hr => ?_) fun hr => sat_ite (fun _ => ?_) fun _ => ?_
  · obtain ⟨h1, h2⟩ := h.setRef (update fs.ref i (fs.ref i + 1))
    exact ⟨⟨h1, h2, rfl⟩, rfl, fun _ _ => rfl, fun hv => ⟨hv, hr⟩, fun _ => rfl⟩
  · rw [sat_error]
  · have hr0 : fs.ref i = 0 := by omega
    set fs' : State := { fs with ref := update fs.ref i 1, valid := update fs.valid i false } with hfs'
    have hcur : ∀ j, cur fs' j = cur fs j := by
      intro j
      by_cases hj : j = i
      · subst hj
        rw [h.cur_eq]
        simp [cur, hfs']
      · simp [cur, hfs', hj]
    have hvalid : ∀ j, fs'.valid j = true → fs.valid j = true := by
      intro j hj
      by_cases he : j = i
      · subst he
        simp [hfs'] at hj
      · simpa [hfs', he] using hj
    obtain ⟨h1, h2⟩ := h.of_cur fs' rfl rfl rfl hcur (fun j hj => h.sync j (hvalid j hj))
      fun j hj => h.typed j (hvalid j hj)
    refine ⟨⟨h1, h2, rfl⟩, by simp only [hfs', hr0], fun j hj => ?_, fun hv => ?_, fun hp => absurd hp hr⟩
    · simp only [hfs', update_of_ne hj]
    · simp [hfs'] at hv

theorem ilock_spec (h : Inv fs) (i : ℕ) : Sat (ilock fs i)
    (fun e => (e = "ilock" ∧ fs.ref i < 1) ∨ (e = "ilock: no type" ∧ file fs i = none))
    (fun fs' => Cached fs fs' ∧ fs'.ref = fs.ref ∧ fs'.valid = update fs.valid i true) := by
  rw [ilock]
  refine sat_ite (fun hr => ?_) fun hr => sat_ite (fun hv => ?_) fun hv => sat_ite (fun ht => ?_) fun ht => ?_
  · rw [sat_error]
    exact Or.inl ⟨rfl, hr⟩
  · rw [sat_ok]
    refine ⟨⟨h, fun _ => rfl, rfl⟩, rfl, ?_⟩
    rw [← hv, update_eq_self]
  · rw [sat_error]
    refine Or.inr ⟨rfl, ?_⟩
    rw [file, h.cur_eq, if_pos ht]
  · set fs' : State := { setInode fs i (fs.dinode i) with valid := update fs.valid i true } with hfs'
    have hcur : ∀ j, cur fs' j = cur fs j := by
      intro j
      by_cases hj : j = i
      · subst hj
        rw [h.cur_eq]
        simp [cur, hfs', setInode]
      · simp [cur, hfs', setInode, hj]
    have hcases : ∀ j, fs'.valid j = true → fs'.inode j = fs.dinode j ∧ (fs.dinode j).type ≠ .free := by
      intro j hj
      by_cases he : j = i
      · subst he
        exact ⟨by simp [hfs', setInode], ht⟩
      · have hvj : fs.valid j = true := by simpa [hfs', he] using hj
        exact ⟨by simpa [hfs', setInode, he] using h.sync j hvj, h.typed j hvj⟩
    obtain ⟨h1, h2⟩ := h.of_cur fs' rfl rfl rfl hcur (fun j hj => (hcases j hj).1) fun j hj => (hcases j hj).2
    exact ⟨⟨h1, h2, rfl⟩, rfl, rfl⟩

def newDinode (type : FType) : Dinode := ⟨type, 0, 0, 0, 0, fun _ => 0⟩

theorem number_newDinode (data : ℕ → Bytes) (type : FType) (s : Slot) : s.number data (newDinode type) = 0 := by
  cases s with
  | indirect j => rfl
  | block j bn => simp [Slot.number, blk, newDinode]

theorem Inv.of_new (h : Inv fs) {type : FType} (hfree : (fs.dinode i).type = .free) (ht : type ≠ .free) :
    let fs' := { fs with dinode := update fs.dinode i (newDinode type) }
    Inv fs' ∧ (∀ j, j ≠ i → file fs' j = file fs j) ∧ file fs' i = some ⟨type, 0, 0, 0, []⟩ := by
  intro fs'
  have hv : ¬ fs.valid i = true := fun hv => h.typed i hv hfree
  have hself : cur fs' i = newDinode type := by
    simp [cur, fs', hv]
  have hother : ∀ j, j ≠ i → cur fs' j = cur fs j := by
    intro j hj
    simp [cur, fs', hj]
  have hslots : ∀ s, slotRef fs' s = slotRef fs s := by
    intro s
    by_cases hs : s.inum = i
    · have h1 : slotRef fs' s = none := by
        rw [slotRef_eq_none, slotNumber, hs, hself, number_newDinode, ite_self]
      have h2 : slotRef fs s = none := by
        rw [slotRef_eq_none, slotNumber, hs, h.cur_eq, if_pos hfree]
      rw [h1, h2]
    · exact slotRef_frame (hother _ hs) fun _ _ => rfl
  refine ⟨⟨⟨h.core.room, h.core.small, h.core.ledger.congr hslots⟩, ?_, ?_, ?_, ?_⟩, ?_, ?_⟩
  · intro j hj
    by_cases he : j = i
    · subst he
      rw [hself]
      exact ⟨fun bn _ => by simp [blk, newDinode, blocksOf, BSIZE], by simp [newDinode, blocksOf, BSIZE]⟩
    · rw [hother j he] at hj
      have hf := (h.filled j hj).congr_ne (hother j he) hj fun bn => hslots _
      rwa [← hother j he] at hf
  · intro j hj
    by_cases he : j = i
    · subst he
      simp [hself, newDinode]
    · rw [hother j he] at hj ⊢
      exact h.bound j hj
  · intro j hj
    have he : j ≠ i := by
      rintro rfl
      exact hv hj
    simp only [fs', update_of_ne he]
    exact h.sync j hj
  · intro j hj
    have he : j ≠ i := by
      rintro rfl
      exact hv hj
    simp only [fs', update_of_ne he]
    exact h.typed j hj
  · exact fun j hj => file_congr h (hother j hj) fun bn b hb => ⟨(hslots _).trans hb, rfl⟩
  · rw [file, hself, if_neg (by exact ht)]
    simp [newDinode, contents, hself]

theorem ialloc_spec (h : Inv fs) {type : FType} (ht : type ≠ .free) : Sat (ialloc fs type)
    (fun e => e = "ialloc: no inodes" ∨ e = "iget: no inodes")
    (fun r => file fs r.1 = none ∧ 0 < r.1 ∧ r.1 < fs.sb.ninodes ∧ Inv r.2 ∧ r.2.sb = fs.sb ∧
      (∀ j, j ≠ r.1 → file r.2 j = file fs j) ∧ file r.2 r.1 = some ⟨type, 0, 0, 0, []⟩ ∧
      r.2.ref = update fs.ref r.1 (fs.ref r.1 + 1) ∧ (∀ j, j ≠ r.1 → r.2.valid j = fs.valid j) ∧
      r.2.valid r.1 = false) := by
  rw [ialloc]
  cases hf : ((List.range fs.sb.ninodes).drop 1).find? (fun inum => (fs.dinode inum).type = .free) with
  | none => exact Or.inl rfl
  | some inum =>
    have hfree : (fs.dinode inum).type = .free := by simpa using List.find?_some hf
    have hmem : 0 < inum ∧ inum < fs.sb.ninodes := by
      have hm := List.mem_of_find?_eq_some hf
      obtain ⟨k, hk, rfl⟩ := List.mem_drop_iff_getElem.mp hm
      rw [List.length_range] at hk
      simp only [List.getElem_range]
      omega
    have hv : fs.valid inum = false := by
      by_contra hne
      exact h.typed inum (by simpa using hne) hfree
    obtain ⟨h1, h2, h3⟩ := h.of_new hfree ht
    refine ((iget_spec h1 inum).mono (fun e he => Or.inr he) fun _ hq => hq).bind fun fs' hq => ?_
    obtain ⟨⟨hinv, hfiles, hsb⟩, href, hval, hvi, -⟩ := hq
    rw [sat_ok]
    refine ⟨by rw [file, h.cur_eq, if_pos hfree], hmem.1, hmem.2, hinv, hsb, fun j hj => (hfiles j).trans (h2 j hj),
      (hfiles inum).trans h3, href, hval, ?_⟩
    by_contra hne
    have hvt := (hvi (by simpa using hne)).1
    rw [hv] at hvt
    cases hvt

theorem setAttr_spec (h : Inv fs) (hv : fs.valid i = true) (major minor nlink : Int16) :
    let fs' := commit fs i { fs.inode i with major := major, minor := minor, nlink := nlink }
    Inv fs' ∧ Frame fs fs' ∧ (∀ j, j ≠ i → file fs' j = file fs j) ∧
      ∀ f, file fs i = some f → file fs' i = some { f with major := major, minor := minor, nlink := nlink } := by
  intro fs'
  have hcur := cur_of_valid hv
  obtain ⟨ht, hfill, hbound⟩ := h.cached hv
  obtain ⟨h1, h2, h3⟩ := h.of_commit (d := { fs.inode i with major := major, minor := minor, nlink := nlink })
    (Grown.refl fs i) hv h.core rfl ht (hfill.of_addrs rfl) hbound
  refine ⟨h1, h2, h3, fun f hf => ?_⟩
  have hcur' : cur fs' i = { fs.inode i with major := major, minor := minor, nlink := nlink } := by
    rw [cur_commit (Grown.refl fs i) hv, if_pos rfl]
  have hbytes : contents fs' i = contents fs i := by
    simp only [contents, hcur', hcur]
    apply List.map_congr_left
    intro p _
    rw [fileByte, fileByte, hcur', hcur]
    rfl
  rw [file_of_valid hv ht] at hf
  rw [file, hcur', if_neg ht, hbytes, ← Option.some.inj hf]

end Xv6.Fs
