import Xv6.BlockOwnership

/-!
`readi` and `writei` as operations on an array of bytes, and the blocks that `writei` needs.
-/

namespace Xv6.Fs

open ByteMemory Contract Transition

def freeCount (fs : State) : ℕ := ((Finset.range fs.sb.size).filter fun b => fs.bitmap b = false).card

def slotsFor (c : ℕ) : ℕ := c + if NDIRECT < c then 1 else 0

def enough (fs : State) (i off n : ℕ) : Prop :=
  slotsFor (max (blocksOf (fs.inode i).size) (blocksOf (off + n))) ≤ slotsFor
      (blocksOf (fs.inode i).size) + freeCount fs

def Refused (size off n : ℕ) : Prop := size < off ∨ 2 ^ 32 ≤ off + n ∨ MAXFILE * BSIZE < off + n

variable {fs fs' : State} {i c off n bn : ℕ} {src : List UInt8}

theorem freeCount_congr (hsb : fs'.sb = fs.sb) (hbit : fs'.bitmap = fs.bitmap) : freeCount fs' = freeCount fs := by
  rw [freeCount, freeCount, hsb, hbit]

theorem balloc_room (h : 0 < freeCount fs) : ∃ b fs', balloc fs = .ok (b, fs') ∧ freeCount fs' + 1 = freeCount fs := by
  obtain ⟨x, hx⟩ := Finset.card_pos.mp h
  rw [Finset.mem_filter, Finset.mem_range] at hx
  rw [balloc]
  cases hf : (List.range fs.sb.size).find? (fun b => !fs.bitmap b) with
  | none =>
    have := List.find?_eq_none.mp hf x (List.mem_range.mpr hx.1)
    simp [hx.2] at this
  | some b =>
    have hb : b ∈ (Finset.range fs.sb.size).filter fun b => fs.bitmap b = false := by
      rw [Finset.mem_filter, Finset.mem_range]
      exact ⟨List.mem_range.mp (List.mem_of_find?_eq_some hf), by simpa using List.find?_some hf⟩
    refine ⟨b, _, rfl, ?_⟩
    have hset : ((Finset.range fs.sb.size).filter fun x => Function.update fs.bitmap b true x = false) =
        ((Finset.range fs.sb.size).filter fun x => fs.bitmap x = false).erase b := by
      ext x
      rw [Finset.mem_erase, Finset.mem_filter, Finset.mem_filter]
      by_cases hx : x = b
      · simp [hx]
      · simp [hx]
    simp only [freeCount, hset, Finset.card_erase_of_mem hb]
    have := Finset.card_pos.mpr ⟨b, hb⟩
    omega

theorem bmapEntry_room {ind j : ℕ} (hw : word (fs.data ind) j = 0) (h : 0 < freeCount fs) :
    ∃ r, bmapEntry fs ind j = .ok r ∧ freeCount r.2 + 1 = freeCount fs := by
  obtain ⟨b, fs1, he, hc⟩ := balloc_room h
  refine ⟨(b, setData fs1 ind (setWord (fs1.data ind) j b)), ?_, ?_⟩
  · rw [bmapEntry, if_pos hw, he, Outcome.ok_bind]
  · exact (congrArg (· + 1) (freeCount_congr rfl rfl)).trans hc

theorem bmap_room (hfill : Filled fs.data (fs.inode i) c) (hbn : bn ≤ c) (hmax : bn < MAXFILE)
    (hroom : slotsFor (max c (bn + 1)) ≤ slotsFor c + freeCount fs) :
    ∃ r, bmap fs i bn = .ok r ∧ freeCount r.2 + slotsFor (max c (bn + 1)) = freeCount fs + slotsFor c := by
  rcases Nat.lt_or_eq_of_le hbn with hlt | rfl
  · rw [bmap_of_blk hmax ((hfill.blocks bn hmax).mpr hlt), max_eq_left hlt]
    exact ⟨_, rfl, rfl⟩
  rw [max_eq_right (by omega : bn ≤ bn + 1)] at hroom ⊢
  have hz : blk fs.data (fs.inode i) bn = 0 := by
    by_contra hne
    exact absurd ((hfill.blocks bn hmax).mp hne) (lt_irrefl bn)
  by_cases hd : bn < NDIRECT
  · have hone : slotsFor (bn + 1) = slotsFor bn + 1 := by
      rw [slotsFor, slotsFor, if_neg (by omega), if_neg (by omega)]
    obtain ⟨b, fs1, he, hc⟩ := balloc_room (by omega : 0 < freeCount fs)
    rw [blk_direct hd] at hz
    refine ⟨(b, setAddr fs1 i bn b), ?_, ?_⟩
    · rw [bmap, if_pos hd, if_pos hz, he, Outcome.ok_bind]
    · have hkeep : freeCount (setAddr fs1 i bn b) = freeCount fs1 := freeCount_congr rfl rfl
      dsimp only
      omega
  · have hn : bn - NDIRECT < NINDIRECT := by
      simp only [MAXFILE] at hmax
      omega
    rw [bmap, if_neg hd, if_pos hn]
    by_cases h0 : (fs.inode i).addrs NDIRECT = 0
    · -- the indirect block comes first, and all its entries are 0
      have hbn : ¬NDIRECT < bn := fun hlt => hfill.indirect.mpr hlt h0
      have htwo : slotsFor (bn + 1) = slotsFor bn + 2 := by
        rw [slotsFor, slotsFor, if_pos (by omega), if_neg hbn]
      obtain ⟨b, fs1, he, hc⟩ := balloc_room (by omega : 0 < freeCount fs)
      have hkeep : freeCount (setAddr fs1 i NDIRECT b) = freeCount fs1 := freeCount_congr rfl rfl
      have hword : word ((setAddr fs1 i NDIRECT b).data b) (bn - NDIRECT) = 0 := by
        have hdata : fs1.data b = zero := by
          rcases balloc_cases fs with ⟨b', -, -, he'⟩ | he'
          · cases he.symm.trans he'
            exact Function.update_self ..
          · cases he.symm.trans he'
        change word (fs1.data b) (bn - NDIRECT) = 0
        rw [hdata, word_zero]
      obtain ⟨r, hr, hcr⟩ := bmapEntry_room hword (by omega)
      refine ⟨r, ?_, by omega⟩
      rw [if_pos h0, he, Outcome.ok_bind]
      exact hr
    · have hbn : NDIRECT < bn := hfill.indirect.mp h0
      have hone : slotsFor (bn + 1) = slotsFor bn + 1 := by
        rw [slotsFor, slotsFor, if_pos (by omega), if_pos hbn]
      rw [blk_indirect hd h0] at hz
      obtain ⟨r, hr, hcr⟩ := bmapEntry_room hz (by omega)
      refine ⟨r, ?_, by omega⟩
      rw [if_neg h0, hr]

theorem slotsFor_mono {c c' : ℕ} (h : c ≤ c') : slotsFor c ≤ slotsFor c' := by
  simp only [slotsFor]
  split_ifs <;> omega

theorem writeLoop_room (hc : Core fs) (hv : fs.valid i = true) (ht : (fs.inode i).type ≠ .free)
    (hfill : Filled fs.data (fs.inode i) c) (hcm : c ≤ MAXFILE) (hoff : off ≤ c * BSIZE)
    (hlen : off + src.length ≤ MAXFILE * BSIZE)
    (hroom : slotsFor (max c (blocksOf (off + src.length))) ≤ slotsFor c + freeCount fs) :
    ∃ fs', writeLoop fs i off src = .ok fs' ∧
      freeCount fs' + slotsFor (max c (blocksOf (off + src.length))) = freeCount fs + slotsFor c := by
  induction hn : src.length using Nat.strong_induction_on generalizing fs c off src with
  | _ n ih =>
    subst hn
    rw [writeLoop]
    by_cases h0 : src.length = 0
    · refine ⟨fs, if_pos h0, ?_⟩
      rw [h0, Nat.add_zero, max_eq_left (blocksOf_le hoff)]
    · rw [if_neg h0]
      set m := min src.length (BSIZE - off % BSIZE) with hm
      have hm0 : 0 < m := by
        simp only [hm, BSIZE]
        omega
      have hbn : off / BSIZE ≤ c := by
        simp only [BSIZE] at *
        omega
      have hmax : off / BSIZE < MAXFILE := by
        simp only [BSIZE] at *
        omega
      have hle : off / BSIZE + 1 ≤ blocksOf (off + src.length) := by
        simp only [blocksOf, BSIZE]
        omega
      have hstep : max c (off / BSIZE + 1) ≤ max c (blocksOf (off + src.length)) := max_le_max_left c hle
      obtain ⟨r, hr, hcount⟩ := bmap_room hfill hbn hmax ((slotsFor_mono hstep).trans hroom)
      have hmapped := (bmap_spec hc hv ht hfill hbn hmax).of_ok hr
      obtain ⟨hc2, hg2, hf2, -⟩ := write_one src hv ht hfill hmax (by omega : m ≤ _) (by omega) hcm hmapped
      set fs2 := setData r.2 r.1 (store (r.2.data r.1) (off % BSIZE) (src.take m)) with hfs2
      have hend : off + m ≤ max c (off / BSIZE + 1) * BSIZE := chunk_end (by omega) c
      have hdrop : (src.drop m).length = src.length - m := List.length_drop ..
      have hfree : freeCount fs2 = freeCount r.2 := freeCount_congr rfl rfl
      have hlast : off + m + (src.drop m).length = off + src.length := by omega
      have hmx : max (max c (off / BSIZE + 1)) (blocksOf (off + src.length)) =
          max c (blocksOf (off + src.length)) := by rw [max_assoc, max_eq_right hle]
      obtain ⟨fs', he, hcount'⟩ := ih (src.drop m).length (by omega) hc2 (by rw [hg2.valid]; exact hv)
        (by rw [hg2.type]; exact ht) hf2 (max_le hcm hmax) hend (by omega) (by rw [hlast, hmx]; omega) rfl
      rw [hlast, hmx] at hcount'
      refine ⟨fs', ?_, by omega⟩
      rw [hr, Outcome.ok_bind]
      exact he

theorem writei_refused (hd : (fs.inode i).type ≠ .dev) (h : Refused (fs.inode i).size off src.length) :
    writei fs i src off = .ok (none, fs) := by
  rw [writei, if_neg hd]
  split_ifs with h1 h2
  · rfl
  · rfl
  · rcases h with h | h | h
    · exact absurd (Or.inl h) h1
    · exact absurd (Or.inr h) h1
    · exact absurd h h2

theorem writei_room (h : Inv fs) (hv : fs.valid i = true) (hd : (fs.inode i).type ≠ .dev)
    (hno : ¬Refused (fs.inode i).size off src.length) (hroom : enough fs i off src.length) :
    ∃ fs', writei fs i src off = .ok (some src.length, fs') ∧ Wrote fs i off src fs' ∧
      freeCount fs' + slotsFor (blocksOf (max (fs.inode i).size (off + src.length))) =
        freeCount fs + slotsFor (blocksOf (fs.inode i).size) := by
  simp only [Refused, not_or, not_lt] at hno
  obtain ⟨hoff, hwrap, hlen⟩ := hno
  obtain ⟨ht, hfill, hbound⟩ := h.cached hv
  obtain ⟨fs1, he, hcount⟩ := writeLoop_room h.core hv ht hfill (blocksOf_le hbound)
      (by simp only [blocksOf, BSIZE]; omega)
    hlen hroom
  have hspec := writei_spec h hv hd src off
  have hok : ∃ fs', writei fs i src off = .ok (some src.length, fs') ∧ freeCount fs' = freeCount fs1 := by
    rw [writei, if_neg hd, if_neg (by omega), if_neg (by omega), he, Outcome.ok_bind]
    dsimp only
    split_ifs
    · exact ⟨_, rfl, freeCount_congr rfl rfl⟩
    · exact ⟨_, rfl, rfl⟩
  obtain ⟨fs', hw, hkeep⟩ := hok
  rcases hspec.of_ok hw with ⟨hn, -⟩ | ⟨-, -, hwrote⟩
  · cases hn
  · refine ⟨fs', hw, hwrote, ?_⟩
    rw [hkeep, ← hcount]
    congr 2
    simp only [blocksOf, BSIZE]
    omega

theorem Wrote.contents_eq (h : Inv fs) (hv : fs.valid i = true) (hw : Wrote fs i off src fs')
    (hoff : off ≤ (fs.inode i).size) : contents fs' i = splice (contents fs i) off src ∧
      (cur fs' i).size = max (cur fs i).size (off + src.length) := by
  have hbytes := hw.bytes _ (file_of_valid hv (h.typed_inode hv))
  have hc : contents fs' i = splice (contents fs i) off src := by
    rw [file] at hbytes
    split_ifs at hbytes
    exact (Fs.File.mk.inj (Option.some.inj hbytes)).2.2.2.2
  refine ⟨hc, ?_⟩
  rw [← length_contents fs' i, hc, length_splice (by rw [length_contents, cur_of_valid hv]; exact hoff),
      length_contents]

/-- `readi` and `writei` on a locked file or directory of a disk without holes, for all 32-bit offsets and lengths. -/
theorem readi_writei_byte_array (h : Inv fs) (hv : fs.valid i = true) (hd : (fs.inode i).type ≠ .dev) :
    (∀ off src, off < 2 ^ 32 → src.length < 2 ^ 32 →
      (Refused (fs.inode i).size off src.length → writei fs i src off = .ok (none, fs)) ∧
      (¬Refused (fs.inode i).size off src.length → enough fs i off src.length →
        ∃ fs', writei fs i src off = .ok (some src.length, fs') ∧ contents fs' i = splice (contents fs i) off src ∧
          (cur fs' i).size = max (fs.inode i).size (off + src.length) ∧ ∀ j, j ≠ i → file fs' j = file fs j)) ∧
    (∀ off n, off < 2 ^ 32 → n < 2 ^ 32 →
      ((fs.inode i).size < off ∨ 2 ^ 32 ≤ off + n → readi fs i off n = .ok (none, fs)) ∧
      (¬((fs.inode i).size < off ∨ 2 ^ 32 ≤ off + n) →
        ∃ bs, readi fs i off n = .ok (some bs, fs) ∧ bs = ((contents fs i).drop off).take n ∧
          bs.length = min n ((fs.inode i).size - off))) ∧
    ∀ off n src, writei fs i src off ≠ .error "bmap: out of range" ∧
      readi fs i off n ≠ .error "bmap: out of range" := by
  have hcur := cur_of_valid hv
  refine ⟨fun off src _ _ => ⟨writei_refused hd, fun hno hroom => ?_⟩, fun off n _ _ => ⟨fun hr => ?_, fun hr => ?_⟩,
    fun off n src => ⟨fun he => ?_, fun he => ?_⟩⟩
  · obtain ⟨fs', he, hw, -⟩ := writei_room h hv hd hno hroom
    have hoff : off ≤ (fs.inode i).size := by
      simp only [Refused, not_or, not_lt] at hno
      exact hno.1
    obtain ⟨hc, hs⟩ := hw.contents_eq h hv hoff
    rw [hcur] at hs
    exact ⟨fs', he, hc, hs, hw.others⟩
  · rw [readi, if_neg hd, if_pos hr]
  · refine ⟨_, readi_eq h hv hd hr, rfl, ?_⟩
    rw [List.length_take, List.length_drop, length_contents, hcur]
  · have := (writei_spec h hv hd src off).of_error he
    revert this
    decide
  · by_cases hr : (fs.inode i).size < off ∨ 2 ^ 32 ≤ off + n
    · rw [readi, if_neg hd, if_pos hr] at he
      cases he
    · rw [readi_eq h hv hd hr] at he
      cases he

instance (fs : State) (i off n : ℕ) : Decidable (enough fs i off n) := Nat.decLe _ _

/-- Two bytes are written over the end of a file of one. -/
theorem readi_writei_byte_array_grow : ∃ fs fs', Run (Steps fsCall) blankImage [.ialloc .file, .writei 1 0 [7]] fs ∧
    contents fs 1 = [7] ∧ writei fs 1 [1, 2] 1 = .ok (some 2, fs') ∧ contents fs' 1 = [7, 1, 2] := by
  have h : (exec fsCall blankImage [.ialloc .file, .writei 1 0 [7]]).map (fun fs => decide (fs.valid 1 = true ∧
      (fs.inode 1).type = .file ∧ (fs.inode 1).size = 1 ∧ contents fs 1 = [7] ∧ enough fs 1 1 2)) = some true := by
    decide +kernel
  obtain ⟨fs, hfs, hd⟩ := Option.map_eq_some_iff.mp h
  obtain ⟨hv, ht, hs, hc, hroom⟩ := of_decide_eq_true hd
  have hinv := fsRun_inv blankImage_wellFormed.inv (run_of_exec hfs)
  have hno : ¬Refused (fs.inode 1).size 1 ([1, 2] : List UInt8).length := by
    rw [hs]
    simp only [Refused, MAXFILE, NDIRECT, NINDIRECT, BSIZE, List.length_cons, List.length_nil]
    omega
  obtain ⟨fs', he, hc', -⟩ := ((readi_writei_byte_array hinv hv (by rw [ht]; exact FType.noConfusion)).1 1 [1, 2]
    (by decide) (by decide)).2 hno hroom
  rw [hc] at hc'
  exact ⟨fs, fs', run_of_exec hfs, hc, he, hc'⟩

end Xv6.Fs
