import Xv6.BlockOwnership
import Xv6.IputSteps

namespace Xv6.Fs

open Contract Ownership Transition
open Function (update update_self update_of_ne update_eq_self)

structure Attr where
  valid : Bool
  nlink : Option Int16
  ref : ℕ

def attr (fs : State) (i : ℕ) : Attr := ⟨fs.valid i, (file fs i).map (·.nlink), fs.ref i⟩

section Attributes

variable {fs fs' : State} {i : ℕ}

theorem attr_eq {x : Attr} (hv : ∀ j, j ≠ i → fs'.valid j = fs.valid j) (hr : ∀ j, j ≠ i → fs'.ref j = fs.ref j)
    (hf : ∀ j, j ≠ i → file fs' j = file fs j) (hi : attr fs' i = x) : attr fs' = update (attr fs) i x := by
  funext j
  by_cases hj : j = i
  · subst hj
    rw [update_self, hi]
  · rw [update_of_ne hj, attr, attr, hv j hj, hr j hj, hf j hj]

theorem attr_setRef (h : Inv fs) (r : ℕ) : attr { fs with ref := update fs.ref i r } =
    update (attr fs) i { attr fs i with ref := r } := by
  have hs := (h.setRef (update fs.ref i r)).2
  refine attr_eq (fun _ _ => rfl) (fun j hj => update_of_ne hj _ _) (fun j _ => hs j) ?_
  rw [attr, hs i]
  simp only [update_self, attr]

theorem iget_attr (h : Inv fs) (he : iget fs i = .ok fs') : Inv fs' ∧ attr fs' =
    update (attr fs) i ⟨fs.valid i && decide (0 < fs.ref i), (attr fs i).nlink, fs.ref i + 1⟩ := by
  obtain ⟨hc, hr, ho, hv, hk⟩ := (iget_spec h i).of_ok he
  refine ⟨hc.inv, attr_eq ho (fun j hj => by rw [hr, update_of_ne hj]) (fun j _ => hc.files j) ?_⟩
  have hvi : fs'.valid i = (fs.valid i && decide (0 < fs.ref i)) := by
    by_cases hpos : 0 < fs.ref i
    · rw [hk hpos]
      simp [hpos]
    · simp only [hpos, decide_false, Bool.and_false]
      by_contra hne
      exact hpos (hv (by simpa using hne)).2
  rw [attr, hvi, hc.files i, hr, update_self, attr]

theorem ialloc_attr {type : FType} (h : Inv fs) (ht : type ≠ .free) (he : ialloc fs type = .ok (i, fs')) :
    Inv fs' ∧ attr fs' = update (attr fs) i ⟨false, some 0, fs.ref i + 1⟩ ∧ (attr fs i).nlink = none := by
  obtain ⟨hnone, -, -, hinv, -, hothers, hself, hr, hv, hvi⟩ := (ialloc_spec h ht).of_ok he
  refine ⟨hinv, attr_eq hv (fun j hj => by rw [hr, update_of_ne hj]) hothers ?_, by rw [attr, hnone]; rfl⟩
  rw [attr, hvi, hself, hr, update_self]
  rfl

theorem ilock_attr (h : Inv fs) (he : ilock fs i = .ok fs') : Inv fs' ∧ attr fs' =
    update (attr fs) i { attr fs i with valid := true } ∧ ∃ n, (attr fs i).nlink = some n := by
  obtain ⟨hc, hr, hv⟩ := (ilock_spec h i).of_ok he
  have hvi : fs'.valid i = true := by rw [hv, update_self]
  refine ⟨hc.inv, attr_eq (fun j hj => by rw [hv, update_of_ne hj]) (fun j _ => by rw [hr])
    (fun j _ => hc.files j) ?_, ?_⟩
  · rw [attr, hvi, hc.files i, hr, attr]
  · have hf := file_of_valid hvi (hc.inv.typed_inode hvi)
    rw [hc.files i] at hf
    exact ⟨_, by rw [attr, hf]; rfl⟩

theorem setNlink_attr (h : Inv fs) (hv : fs.valid i = true) (n : Int16) :
    Inv (commit fs i { fs.inode i with nlink := n }) ∧ attr (commit fs i { fs.inode i with nlink := n }) =
      update (attr fs) i { attr fs i with nlink := some n } := by
  obtain ⟨hinv, hframe, hothers, hself⟩ := setAttr_spec h hv (fs.inode i).major (fs.inode i).minor n
  refine ⟨hinv, attr_eq (fun j _ => by rw [hframe.valid]) (fun j _ => by rw [hframe.ref]) hothers ?_⟩
  rw [attr, hself _ (file_of_valid hv (h.typed_inode hv)), hframe.valid, hframe.ref, attr]
  rfl

theorem writei_attr {r : Option ℕ} {off : ℕ} {src : List UInt8} (h : Inv fs) (hv : fs.valid i = true)
    (he : writei fs i src off = .ok (r, fs')) : Inv fs' ∧ attr fs' = attr fs := by
  by_cases hd : (fs.inode i).type = .dev
  · rw [writei, if_pos hd] at he
    cases he
    exact ⟨h, rfl⟩
  · rcases (writei_spec h hv hd src off).of_ok he with ⟨-, rfl, -⟩ | ⟨-, -, hw⟩
    · exact ⟨h, rfl⟩
    · refine ⟨hw.inv, ?_⟩
      rw [← update_eq_self i (attr fs)]
      refine attr_eq (fun j _ => by rw [hw.frame.valid]) (fun j _ => by rw [hw.frame.ref]) hw.others ?_
      have hf := file_of_valid hv (h.typed_inode hv)
      rw [attr, hw.bytes _ hf, hw.frame.valid, hw.frame.ref, attr, hf]
      rfl

theorem ifree_attr (h : Inv fs) (hv : fs.valid i = true) (he : ifree fs i = .ok fs') :
    Inv fs' ∧ attr fs' = update (attr fs) i ⟨false, none, fs.ref i⟩ := by
  obtain ⟨fs1, he1, hf⟩ := ifree_spec h hv
  cases he.symm.trans he1
  refine ⟨hf.inv, attr_eq (fun j hj => by rw [hf.valid, update_of_ne hj]) (fun j _ => by rw [hf.ref]) hf.others ?_⟩
  rw [attr, hf.valid, hf.self, hf.ref, update_self]
  rfl

end Attributes

variable {P : Type} {s t : Cache P} {p q : P} {i j : ℕ} {ph : Phase}

structure GoodAt (s : Cache P) (i : ℕ) : Prop where
  count : (attr s.fs i).ref = s.tokens.countP (fun x => x.2 = i)
  lockTok : ∀ p, s.lock i = some p → (p, i) ∈ s.tokens
  lockValid : ∀ p, s.lock i = some p → (∀ ph, s.pc p ≠ some (i, ph)) → (attr s.fs i).valid = true
  owns : ∀ p ph, s.pc p = some (i, ph) → (p, i) ∈ s.tokens
  locked : ∀ p ph, s.pc p = some (i, ph) → ph ≠ .drop → s.lock i = some p
  unlocked : ∀ p, s.pc p = some (i, .drop) → s.lock i ≠ some p
  single : ∀ p q ph ph', s.pc p = some (i, ph) → s.pc q = some (i, ph') → p = q
  doomed : ∀ p ph, s.pc p = some (i, ph) → ph = .readRef ∨ ph = .free →
    (attr s.fs i).valid = true ∧ (attr s.fs i).nlink = some 0
  sole : ∀ p, s.pc p = some (i, .free) → (attr s.fs i).ref = 1
  seen : s.seen i = true → (attr s.fs i).valid = true ∨ (attr s.fs i).nlink = none
  settled : (attr s.fs i).ref = 0 ∨ ((attr s.fs i).ref = 1 ∧ ∃ p ph, s.pc p = some (i, ph) ∧
      (ph = .release ∨ ph = .drop)) →
    (attr s.fs i).valid = true → (attr s.fs i).nlink ≠ some 0

theorem GoodAt.frame (h : GoodAt s j) (ha : attr t.fs j = attr s.fs j) (hl : t.lock j = s.lock j)
    (hs : t.seen j = s.seen j) (ht : ∀ q, (q, j) ∈ t.tokens ↔ (q, j) ∈ s.tokens)
    (hc : t.tokens.countP (fun x => x.2 = j) = s.tokens.countP (fun x => x.2 = j))
    (hp : ∀ q ph, t.pc q = some (j, ph) ↔ s.pc q = some (j, ph)) : GoodAt t j := by
  have hne : ∀ q, (∀ ph, t.pc q ≠ some (j, ph)) ↔ ∀ ph, s.pc q ≠ some (j, ph) := by
    intro q
    simp only [ne_eq, hp]
  constructor
  · rw [ha, hc]
    exact h.count
  all_goals simp only [ha, hl, hs, ht, hp, hne]
  · exact h.lockTok
  · exact h.lockValid
  · exact h.owns
  · exact h.locked
  · exact h.unlocked
  · exact h.single
  · exact h.doomed
  · exact h.sole
  · exact h.seen
  · exact h.settled

structure Good (s : Cache P) : Prop where
  inv : Inv s.fs
  each : ∀ i, GoodAt s i

theorem GoodAt.ref_pos (h : GoodAt s i) (hp : (p, i) ∈ s.tokens) : 0 < (attr s.fs i).ref := by
  rw [h.count, List.countP_pos_iff]
  exact ⟨(p, i), hp, by simp⟩

theorem GoodAt.two_tokens [DecidableEq P] (h : GoodAt s i) (hp : (p, i) ∈ s.tokens) (hq : (q, i) ∈ s.tokens)
    (hne : p ≠ q) :
    2 ≤ (attr s.fs i).ref := by
  have hq' : (q, i) ∈ s.tokens.erase (p, i) := by
    rw [List.mem_erase_of_ne (by simp [hne.symm])]
    exact hq
  have hpos : 0 < (s.tokens.erase (p, i)).countP (fun x => x.2 = i) := List.countP_pos_iff.mpr ⟨(q, i), hq', by simp⟩
  rw [List.countP_erase] at hpos
  rw [h.count]
  simp only [hp, decide_true, and_self, if_true] at hpos
  omega

theorem GoodAt.phase_of_unlocked (h : GoodAt s i) (hl : s.lock i = none) (hp : s.pc p = some (i, ph)) : ph = .drop := by
  by_contra hne
  rw [h.locked p ph hp hne] at hl
  cases hl

theorem GoodAt.two_of_idle [DecidableEq P] (h : GoodAt s i) (hp : (p, i) ∈ s.tokens) (hidle : s.pc p = none)
    (hq : s.pc q = some (i, ph)) : 2 ≤ (attr s.fs i).ref := by
  refine h.two_tokens hp (h.owns q ph hq) ?_
  rintro rfl
  rw [hidle] at hq
  cases hq

theorem Good.attr_nlink (h : Good s) (hv : (attr s.fs i).valid = true) : (attr s.fs i).nlink =
    some (s.fs.inode i).nlink := by
  have hv' : s.fs.valid i = true := hv
  rw [attr, file_of_valid hv' (h.inv.typed_inode hv')]
  rfl

variable {fs : State}

theorem good_iget (h : Good s) (hcalm : ∀ q, s.pc q ≠ some (i, .free)) (he : iget s.fs i = .ok fs) : Good { s with
      fs := fs, tokens := (p, i) :: s.tokens,
      seen := if s.fs.ref i = 0 then update s.seen i false else s.seen } := by
  obtain ⟨hinv, ha⟩ := iget_attr h.inv he
  refine ⟨hinv, fun j => ?_⟩
  have hj := h.each j
  by_cases hji : j = i
  · subst hji
    have hpos : ∀ q, (q, j) ∈ s.tokens → 0 < s.fs.ref j := fun q hq => hj.ref_pos hq
    have hval : ∀ q, (q, j) ∈ s.tokens → (attr s.fs j).valid = true → (attr fs j).valid = true := by
      intro q hq hv
      have hv' : s.fs.valid j = true := hv
      rw [ha]
      simp [hv', hpos q hq]
    have hnl : (attr fs j).nlink = (attr s.fs j).nlink := by rw [ha]; simp
    have href : (attr fs j).ref = (attr s.fs j).ref + 1 := by rw [ha]; simp [attr]
    constructor
    · rw [href, hj.count]
      simp
    · exact fun q hq => List.mem_cons_of_mem _ (hj.lockTok q hq)
    · exact fun q hq hn => hval q (hj.lockTok q hq) (hj.lockValid q hq hn)
    · exact fun q ph hq => List.mem_cons_of_mem _ (hj.owns q ph hq)
    · exact hj.locked
    · exact hj.unlocked
    · exact hj.single
    · intro q ph hq hph
      obtain ⟨h1, h2⟩ := hj.doomed q ph hq hph
      exact ⟨hval q (hj.owns q ph hq) h1, hnl.trans h2⟩
    · exact fun q hq => absurd hq (hcalm q)
    · intro hs
      by_cases h0 : s.fs.ref j = 0
      · simp [h0] at hs
      · rw [if_neg h0] at hs
        rcases hj.seen hs with hv | hn
        · have hv' : s.fs.valid j = true := hv
          left
          rw [ha]
          simp [hv', Nat.pos_of_ne_zero h0]
        · exact Or.inr (hnl.trans hn)
    · dsimp only
      rintro (h0 | ⟨h1, q, ph, hq, -⟩)
      · omega
      · have := hj.ref_pos (hj.owns q ph hq)
        omega
  · refine hj.frame (by rw [ha, update_of_ne hji]) rfl ?_ ?_ ?_ fun _ _ => Iff.rfl
    · dsimp only
      split_ifs
      · exact update_of_ne hji _ _
      · rfl
    · intro q
      simp [hji]
    · simp [Ne.symm hji]

theorem good_ialloc {type : FType} (h : Good s) (ht : type ≠ .free) (he : ialloc s.fs type = .ok (i, fs)) :
    Good { s with fs := fs, tokens := (p, i) :: s.tokens, seen := update s.seen i false } := by
  obtain ⟨hinv, ha, hnone⟩ := ialloc_attr h.inv ht he
  refine ⟨hinv, fun j => ?_⟩
  have hj := h.each j
  by_cases hji : j = i
  · subst hji
    have hself : attr fs j = ⟨false, some 0, s.fs.ref j + 1⟩ := by rw [ha, update_self]
    have href : (attr s.fs j).ref = s.fs.ref j := rfl
    have hquiet : ∀ q ph, s.pc q = some (j, ph) → ¬ (ph = .readRef ∨ ph = .free) := by
      intro q ph hq hph
      rw [(hj.doomed q ph hq hph).2] at hnone
      cases hnone
    constructor
    all_goals dsimp only
    all_goals try simp only [hself]
    · rw [← href, hj.count]
      simp
    · exact fun q hq => List.mem_cons_of_mem _ (hj.lockTok q hq)
    · intro q hq hn
      rw [h.attr_nlink (hj.lockValid q hq hn)] at hnone
      cases hnone
    · exact fun q ph hq => List.mem_cons_of_mem _ (hj.owns q ph hq)
    · exact hj.locked
    · exact hj.unlocked
    · exact hj.single
    · exact fun q ph hq hph => absurd hph (hquiet q ph hq)
    · exact fun q hq => absurd (Or.inr rfl) (hquiet q .free hq)
    · simp
    · simp
  · refine hj.frame (by rw [ha, update_of_ne hji]) rfl (update_of_ne hji _ _) ?_ ?_ fun _ _ => Iff.rfl
    · intro q
      simp [hji]
    · simp [Ne.symm hji]

theorem good_iunlock (h : Good s) (hidle : s.pc p = none) (hl : s.lock i = some p) :
    Good { s with lock := update s.lock i none } := by
  refine ⟨h.inv, fun j => ?_⟩
  have hj := h.each j
  by_cases hji : j = i
  · subst hji
    refine ⟨hj.count, ?_, ?_, hj.owns, ?_, ?_, hj.single, hj.doomed, hj.sole, hj.seen, hj.settled⟩
    all_goals simp only [update_self]
    · rintro q ⟨⟩
    · rintro q ⟨⟩
    · intro q ph hq hne
      have hq' := hj.locked q ph hq hne
      rw [hl] at hq'
      cases hq'
      rw [hidle] at hq
      cases hq
    · simp
  · exact hj.frame rfl (update_of_ne hji _ _) rfl (fun _ => Iff.rfl) rfl fun _ _ => Iff.rfl

theorem Good.valid_of_lock (h : Good s) (hidle : s.pc p = none) (hl : s.lock i = some p) : s.fs.valid i = true :=
  (h.each i).lockValid p hl fun ph hp => by
    rw [hidle] at hp
    cases hp

theorem good_writei {r : Option ℕ} {off : ℕ} {src : List UInt8} (h : Good s) (hidle : s.pc p = none)
    (hl : s.lock i = some p) (he : writei s.fs i src off = .ok (r, fs)) : Good { s with fs := fs } := by
  obtain ⟨hinv, ha⟩ := writei_attr h.inv (h.valid_of_lock hidle hl) he
  exact ⟨hinv, fun j => (h.each j).frame (by rw [ha]) rfl rfl (fun _ => Iff.rfl) rfl fun _ _ => Iff.rfl⟩

variable [DecidableEq P]

theorem good_idup (h : Good s) (hidle : s.pc p = none) (hp : (p, i) ∈ s.tokens) :
    Good { s with fs := idup s.fs i, tokens := (p, i) :: s.tokens } := by
  have ha : attr (idup s.fs i) = update (attr s.fs) i { attr s.fs i with ref := s.fs.ref i + 1 } :=
    attr_setRef h.inv _
  refine ⟨(h.inv.setRef _).1, fun j => ?_⟩
  have hj := h.each j
  by_cases hji : j = i
  · subst hji
    have hself : attr (idup s.fs j) j = { attr s.fs j with ref := s.fs.ref j + 1 } := by rw [ha, update_self]
    have href : (attr s.fs j).ref = s.fs.ref j := rfl
    have hpos := hj.ref_pos hp
    constructor
    all_goals dsimp only
    all_goals try simp only [hself]
    · rw [← href, hj.count]
      simp
    · exact fun q hq => List.mem_cons_of_mem _ (hj.lockTok q hq)
    · exact hj.lockValid
    · exact fun q ph hq => List.mem_cons_of_mem _ (hj.owns q ph hq)
    · exact hj.locked
    · exact hj.unlocked
    · exact hj.single
    · exact hj.doomed
    · intro q hq
      have h1 := hj.sole q hq
      have h2 := hj.two_of_idle hp hidle hq
      omega
    · exact hj.seen
    · rintro (h0 | ⟨h1, -⟩) <;> omega
  · refine hj.frame (by rw [ha, update_of_ne hji]) rfl rfl ?_ ?_ fun _ _ => Iff.rfl
    · intro q
      simp [hji]
    · simp [Ne.symm hji]

theorem good_give (h : Good s) (hidle : s.pc p = none) (hp : (p, i) ∈ s.tokens) (hl : s.lock i ≠ some p) :
    Good { s with tokens := (q, i) :: s.tokens.erase (p, i) } := by
  have hmem : ∀ r j, (r, j) ≠ (p, i) → (r, j) ∈ s.tokens → (r, j) ∈ (q, i) :: s.tokens.erase (p, i) := by
    intro r j hne hr
    rw [List.mem_cons, List.mem_erase_of_ne hne]
    exact Or.inr hr
  refine ⟨h.inv, fun j => ?_⟩
  have hj := h.each j
  by_cases hji : j = i
  · subst hji
    have hpos := hj.ref_pos hp
    have hcount : ((q, j) :: s.tokens.erase (p, j)).countP (fun x => x.2 = j) = s.tokens.countP (fun x => x.2 = j) := by
      rw [hj.count] at hpos
      rw [List.countP_cons, List.countP_erase]
      simp only [hp, decide_true, and_self, if_true]
      omega
    refine ⟨hj.count.trans hcount.symm, ?_, hj.lockValid, ?_, hj.locked, hj.unlocked, hj.single, hj.doomed, hj.sole,
      hj.seen, hj.settled⟩
    · intro r hr
      exact hmem r j (by rintro ⟨⟩; exact hl hr) (hj.lockTok r hr)
    · intro r ph hr
      exact hmem r j (by rintro ⟨⟩; rw [hidle] at hr; cases hr) (hj.owns r ph hr)
  · refine hj.frame rfl rfl rfl ?_ ?_ fun _ _ => Iff.rfl
    · intro r
      rw [List.mem_cons, List.mem_erase_of_ne (by simp [hji])]
      simp [hji]
    · rw [List.countP_cons, List.countP_erase]
      simp [Ne.symm hji]

theorem good_ilock (h : Good s) (hidle : s.pc p = none) (hp : (p, i) ∈ s.tokens) (hl : s.lock i = none)
    (he : ilock s.fs i = .ok fs) : Good { s with
      fs := fs, lock := update s.lock i (some p), seen := update s.seen i true } := by
  obtain ⟨hinv, ha, n, hn⟩ := ilock_attr h.inv he
  refine ⟨hinv, fun j => ?_⟩
  have hj := h.each j
  by_cases hji : j = i
  · subst hji
    have hself : attr fs j = { attr s.fs j with valid := true } := by rw [ha, update_self]
    have hpos := hj.ref_pos hp
    constructor
    all_goals dsimp only
    all_goals try simp only [hself, update_self]
    · exact hj.count
    · rintro q ⟨⟩
      exact hp
    · simp
    · exact hj.owns
    · exact fun q ph hq hne => absurd (hj.phase_of_unlocked hl hq) hne
    · rintro q hq ⟨⟩
      rw [hidle] at hq
      cases hq
    · exact hj.single
    · rintro q ph hq (rfl | rfl) <;> cases hj.phase_of_unlocked hl hq
    · exact hj.sole
    · simp
    · rintro (h0 | ⟨h1, q, ph, hq, -⟩)
      · omega
      · have := hj.two_of_idle hp hidle hq
        omega
  · exact hj.frame (by rw [ha, update_of_ne hji]) (update_of_ne hji _ _) (update_of_ne hji _ _)
      (fun _ => Iff.rfl) rfl fun _ _ => Iff.rfl

theorem good_setNlink (h : Good s) (hidle : s.pc p = none) (hl : s.lock i = some p) (n : Int16) :
    Good { s with fs := commit s.fs i { s.fs.inode i with nlink := n } } := by
  have hv := h.valid_of_lock hidle hl
  obtain ⟨hinv, ha⟩ := setNlink_attr h.inv hv n
  refine ⟨hinv, fun j => ?_⟩
  have hj := h.each j
  by_cases hji : j = i
  · subst hji
    have hself : attr (commit s.fs j { s.fs.inode j with nlink := n }) j = { attr s.fs j with nlink := some n } := by
      rw [ha, update_self]
    have hp := hj.lockTok p hl
    have hpos := hj.ref_pos hp
    constructor
    all_goals dsimp only
    all_goals try simp only [hself]
    · exact hj.count
    · exact hj.lockTok
    · exact hj.lockValid
    · exact hj.owns
    · exact hj.locked
    · exact hj.unlocked
    · exact hj.single
    · intro q ph hq hph
      have hq' := hj.locked q ph hq (by rcases hph with rfl | rfl <;> simp)
      rw [hl] at hq'
      cases hq'
      rw [hidle] at hq
      cases hq
    · exact hj.sole
    · exact fun _ => Or.inl hv
    · rintro (h0 | ⟨h1, q, ph, hq, -⟩)
      · omega
      · have := hj.two_of_idle hp hidle hq
        omega
  · exact hj.frame (by rw [ha, update_of_ne hji]) rfl rfl (fun _ => Iff.rfl) rfl fun _ _ => Iff.rfl


theorem pc_other {x : Option (ℕ × Phase)} (hold : ∀ ph, s.pc p ≠ some (j, ph)) (hnew : ∀ ph, x ≠ some (j, ph))
    (r : P) (ph : Phase) : update s.pc p x r = some (j, ph) ↔ s.pc r = some (j, ph) := by
  by_cases hr : r = p
  · subst hr
    rw [update_self]
    exact iff_of_false (hnew ph) (hold ph)
  · rw [update_of_ne hr]

theorem good_iput (h : Good s) (hidle : s.pc p = none) (hp : (p, i) ∈ s.tokens) (hl : s.lock i = none)
    (hcalm : ∀ q, s.pc q ≠ some (i, .drop))
    (hph : ph = if s.fs.valid i ∧ (s.fs.inode i).nlink = 0 then .readRef else .release) :
    Good { s with lock := update s.lock i (some p), pc := update s.pc p (some (i, ph)) } := by
  refine ⟨h.inv, fun j => ?_⟩
  have hj := h.each j
  by_cases hji : j = i
  · subst hji
    have hpos := hj.ref_pos hp
    -- no other `iput` of this inode is under way
    have honly : ∀ q ph', update s.pc p (some (j, ph)) q = some (j, ph') → q = p ∧ ph' = ph := by
      intro q ph' hq
      by_cases hqp : q = p
      · subst hqp
        rw [update_self] at hq
        cases hq
        exact ⟨rfl, rfl⟩
      · rw [update_of_ne hqp] at hq
        have hd := hj.phase_of_unlocked hl hq
        rw [hd] at hq
        exact absurd hq (hcalm q)
    have hself : update s.pc p (some (j, ph)) p = some (j, ph) := update_self ..
    have hattr : ph = .readRef → (attr s.fs j).valid = true ∧ (attr s.fs j).nlink = some 0 := by
      intro he
      rw [he] at hph
      split_ifs at hph with hc
      exact ⟨hc.1, by rw [h.attr_nlink hc.1, hc.2]⟩
    constructor
    all_goals dsimp only
    all_goals try simp only [update_self]
    · exact hj.count
    · rintro q ⟨⟩
      exact hp
    · rintro q ⟨⟩ hn
      exact absurd hself (hn ph)
    · intro q ph' hq
      rw [(honly q ph' hq).1]
      exact hp
    · intro q ph' hq _
      rw [(honly q ph' hq).1]
    · intro q hq
      have := (honly q .drop hq).2
      rw [← this] at hph
      split_ifs at hph
    · intro q r ph1 ph2 hq hr
      rw [(honly q ph1 hq).1, (honly r ph2 hr).1]
    · intro q ph' hq hc
      obtain ⟨-, rfl⟩ := honly q ph' hq
      rcases hc with rfl | rfl
      · exact hattr rfl
      · split_ifs at hph
    · intro q hq
      obtain ⟨-, he⟩ := honly q .free hq
      rw [← he] at hph
      split_ifs at hph
    · exact hj.seen
    · rintro (h0 | ⟨-, q, ph', hq, hc⟩) hv hn
      · omega
      · obtain ⟨-, rfl⟩ := honly q ph' hq
        have hz : (s.fs.inode j).nlink = 0 := by
          rw [h.attr_nlink hv] at hn
          exact Option.some.inj hn
        rw [if_pos ⟨hv, hz⟩] at hph
        rcases hc with rfl | rfl <;> cases hph
  · exact hj.frame rfl (update_of_ne hji _ _) rfl (fun _ => Iff.rfl) rfl
      (pc_other (by simp [hidle]) (by simp [Ne.symm hji]))

theorem pc_self {x : Option (ℕ × Phase)} (h : GoodAt s i) (hp : s.pc p = some (i, ph)) (r : P) (ph' : Phase)
    (hr : update s.pc p x r = some (i, ph')) : r = p ∧ x = some (i, ph') := by
  by_cases hrp : r = p
  · subst hrp
    rw [update_self] at hr
    exact ⟨rfl, hr⟩
  · rw [update_of_ne hrp] at hr
    exact absurd (h.single r p ph' ph hr hp) hrp

theorem good_readRef (h : Good s) (hp : s.pc p = some (i, .readRef))
    (hph : ph = if s.fs.ref i = 1 then .free else .release) : Good { s with pc := update s.pc p (some (i, ph)) } := by
  refine ⟨h.inv, fun j => ?_⟩
  have hj := h.each j
  by_cases hji : j = i
  · subst hji
    have honly := fun r ph' => pc_self (x := some (j, ph)) hj hp r ph'
    have hself : update s.pc p (some (j, ph)) p = some (j, ph) := update_self ..
    have hlock := hj.locked p _ hp (by simp)
    have hpos := hj.ref_pos (hj.owns p _ hp)
    refine ⟨hj.count, hj.lockTok, ?_, ?_, ?_, ?_, ?_, ?_, ?_, hj.seen, ?_⟩
    · intro q hq hn
      rw [hlock] at hq
      cases hq
      exact absurd hself (hn ph)
    · intro q ph' hq
      rw [(honly q ph' hq).1]
      exact hj.owns p _ hp
    · intro q ph' hq _
      rw [(honly q ph' hq).1]
      exact hlock
    · intro q hq
      cases (honly q _ hq).2
      split_ifs at hph
    · intro q r ph1 ph2 hq hr
      rw [(honly q ph1 hq).1, (honly r ph2 hr).1]
    · exact fun _ _ _ _ => hj.doomed p _ hp (Or.inl rfl)
    · intro q hq
      cases (honly q _ hq).2
      split_ifs at hph with h1
      exact h1
    · rintro (h0 | ⟨h1, q, ph', hq, hc⟩)
      · dsimp only at h0
        omega
      · have h1' : s.fs.ref j = 1 := h1
        rw [if_pos h1'] at hph
        cases (honly q ph' hq).2
        rcases hc with rfl | rfl <;> cases hph
  · exact hj.frame rfl rfl rfl (fun _ => Iff.rfl) rfl (pc_other (by simp [hp, Ne.symm hji]) (by simp [Ne.symm hji]))

theorem good_free (h : Good s) (hp : s.pc p = some (i, .free)) (he : ifree s.fs i = .ok fs) :
    Good { s with fs := fs, pc := update s.pc p (some (i, .release)) } := by
  have hi := h.each i
  obtain ⟨hinv, ha⟩ := ifree_attr h.inv (hi.doomed p _ hp (Or.inr rfl)).1 he
  refine ⟨hinv, fun j => ?_⟩
  have hj := h.each j
  by_cases hji : j = i
  · subst hji
    have honly := fun r ph' => pc_self (x := some (j, .release)) hj hp r ph'
    have hself : attr fs j = ⟨false, none, s.fs.ref j⟩ := by rw [ha, update_self]
    have hlock := hj.locked p _ hp (by simp)
    constructor
    all_goals dsimp only
    all_goals try simp only [hself]
    · exact hj.count
    · exact hj.lockTok
    · intro q hq hn
      rw [hlock] at hq
      cases hq
      exact absurd (update_self ..) (hn .release)
    · intro q ph' hq
      rw [(honly q ph' hq).1]
      exact hj.owns p _ hp
    · intro q ph' hq _
      rw [(honly q ph' hq).1]
      exact hlock
    · intro q hq
      cases (honly q _ hq).2
    · intro q r ph1 ph2 hq hr
      rw [(honly q ph1 hq).1, (honly r ph2 hr).1]
    · intro q ph' hq hc
      cases (honly q ph' hq).2
      rcases hc with hc | hc <;> cases hc
    · intro q hq
      cases (honly q _ hq).2
    · simp
    · simp
  · exact hj.frame (by rw [ha, update_of_ne hji]) rfl rfl (fun _ => Iff.rfl) rfl
      (pc_other (by simp [hp, Ne.symm hji]) (by simp [Ne.symm hji]))

theorem good_release (h : Good s) (hp : s.pc p = some (i, .release)) :
    Good { s with lock := update s.lock i none, pc := update s.pc p (some (i, .drop)) } := by
  refine ⟨h.inv, fun j => ?_⟩
  have hj := h.each j
  by_cases hji : j = i
  · subst hji
    have honly := fun r ph' => pc_self (x := some (j, .drop)) hj hp r ph'
    refine ⟨hj.count, by simp, by simp, ?_, ?_, by simp, ?_, ?_, ?_, hj.seen, ?_⟩
    · intro q ph' hq
      rw [(honly q ph' hq).1]
      exact hj.owns p _ hp
    · intro q ph' hq hne
      cases (honly q ph' hq).2
      exact absurd rfl hne
    · intro q r ph1 ph2 hq hr
      rw [(honly q ph1 hq).1, (honly r ph2 hr).1]
    · intro q ph' hq hc
      cases (honly q ph' hq).2
      rcases hc with hc | hc <;> cases hc
    · intro q hq
      cases (honly q _ hq).2
    · rintro (h0 | ⟨h1, -⟩)
      · exact hj.settled (Or.inl h0)
      · exact hj.settled (Or.inr ⟨h1, p, .release, hp, Or.inl rfl⟩)
  · exact hj.frame rfl (update_of_ne hji _ _) rfl (fun _ => Iff.rfl) rfl
      (pc_other (by simp [hp, Ne.symm hji]) (by simp [Ne.symm hji]))

theorem good_drop (h : Good s) (hp : s.pc p = some (i, .drop)) :
    Good { s with fs := dropRef s.fs i, tokens := s.tokens.erase (p, i), pc := update s.pc p none } := by
  have ha : attr (dropRef s.fs i) = update (attr s.fs) i { attr s.fs i with ref := s.fs.ref i - 1 } :=
    attr_setRef h.inv _
  refine ⟨(h.inv.setRef _).1, fun j => ?_⟩
  have hj := h.each j
  by_cases hji : j = i
  · subst hji
    have hnone : ∀ q ph', update s.pc p none q ≠ some (j, ph') := fun q ph' hq => by
      cases (pc_self hj hp q ph' hq).2
    have hself : attr (dropRef s.fs j) j = { attr s.fs j with ref := s.fs.ref j - 1 } := by rw [ha, update_self]
    have htok := hj.owns p _ hp
    have hpos := hj.ref_pos htok
    have href : (attr s.fs j).ref = s.fs.ref j := rfl
    have hlock : ∀ q, s.lock j = some q → q ≠ p := by
      rintro q hq rfl
      exact hj.unlocked q hp hq
    constructor
    all_goals dsimp only
    all_goals try simp only [hself]
    · rw [← href, hj.count, List.countP_erase]
      simp [htok]
    · intro q hq
      rw [List.mem_erase_of_ne (by simp [hlock q hq])]
      exact hj.lockTok q hq
    · intro q hq _
      refine hj.lockValid q hq fun ph' hq' => hlock q hq ?_
      exact hj.single q p ph' _ hq' hp
    · exact fun q ph' hq => absurd hq (hnone q ph')
    · exact fun q ph' hq => absurd hq (hnone q ph')
    · exact fun q hq => absurd hq (hnone q _)
    · exact fun q r ph1 _ hq => absurd hq (hnone q ph1)
    · exact fun q ph' hq => absurd hq (hnone q ph')
    · exact fun q hq => absurd hq (hnone q _)
    · exact hj.seen
    · rintro (h0 | ⟨-, q, ph', hq, -⟩)
      · exact hj.settled (Or.inr ⟨by omega, p, .drop, hp, Or.inr rfl⟩)
      · exact absurd hq (hnone q ph')
  · refine hj.frame (by rw [ha, update_of_ne hji]) rfl rfl ?_ ?_
      (pc_other (by simp [hp, Ne.symm hji]) (by simp))
    · intro q
      rw [List.mem_erase_of_ne (by simp [hji])]
    · rw [List.countP_erase]
      simp [Ne.symm hji]

theorem callStep_good {e : CacheEvent P} (h : Good s) (hcalm : Calm s e) (hidle : s.pc e.proc = none)
    (hs : callStep s e = some (.ok t)) : Good t := by
  cases e with
  | iget p i =>
    simp only [callStep, Option.some.injEq] at hs
    cases he : iget s.fs i with
    | error m => rw [he] at hs; cases hs
    | ok fs =>
      rw [he] at hs
      cases hs
      exact good_iget h hcalm he
  | idup p i =>
    simp only [callStep] at hs
    split_ifs at hs with hp
    cases hs
    exact good_idup h hidle hp
  | give p q i =>
    simp only [callStep] at hs
    split_ifs at hs with hp
    cases hs
    exact good_give h hidle hp.1 hp.2
  | ialloc p type =>
    simp only [callStep] at hs
    split_ifs at hs with ht
    cases he : ialloc s.fs type with
    | error m => rw [he] at hs; cases hs
    | ok r =>
      rw [he] at hs
      cases hs
      exact good_ialloc h ht he
  | ilock p i =>
    simp only [callStep] at hs
    split_ifs at hs with hp
    cases he : ilock s.fs i with
    | error m => rw [he] at hs; cases hs
    | ok fs =>
      rw [he] at hs
      cases hs
      exact good_ilock h hidle hp.1 hp.2 he
  | iunlock p i =>
    simp only [callStep] at hs
    split_ifs at hs with hl
    cases hs
    exact good_iunlock h hidle hl
  | setNlink p i nlink =>
    simp only [callStep] at hs
    split_ifs at hs with hl
    cases hs
    exact good_setNlink h hidle hl nlink
  | writei p i off src =>
    simp only [callStep] at hs
    split_ifs at hs with hl
    cases he : writei s.fs i src off with
    | error m => rw [he] at hs; cases hs
    | ok r =>
      rw [he] at hs
      cases hs
      exact good_writei h hidle hl he
  | iput p i =>
    simp only [callStep] at hs
    split_ifs at hs with hp hv <;> cases hs
    · exact good_iput h hidle hp.1 hp.2 hcalm (by rw [if_pos hv])
    · exact good_iput h hidle hp.1 hp.2 hcalm (by rw [if_neg hv])
  | resume p => cases hs

theorem iputStep_good (h : Good s) (hp : s.pc p = some (i, ph)) (hs : iputStep s p i ph = .ok t) : Good t := by
  cases ph with
  | readRef =>
    cases hs
    exact good_readRef h hp rfl
  | free =>
    simp only [iputStep] at hs
    cases he : ifree s.fs i with
    | error m => rw [he] at hs; cases hs
    | ok fs =>
      rw [he] at hs
      cases hs
      exact good_free h hp he
  | release =>
    cases hs
    exact good_release h hp
  | drop =>
    cases hs
    exact good_drop h hp

theorem cacheStep_good {e : CacheEvent P} (h : Good s) (hcalm : Calm s e) (hs : Steps cacheStep s e t) : Good t := by
  rw [Steps] at hs
  unfold cacheStep at hs
  split at hs
  next hpc => exact callStep_good h hcalm hpc hs
  next hpc => exact iputStep_good h hpc (Option.some.inj hs)
  next => cases hs

def SafeFree (s : Cache P) : CacheEvent P → Prop
  | .resume p => ∀ i, s.pc p = some (i, .free) → ∀ q, q ≠ p → (q, i) ∉ s.tokens
  | _ => True

def Reclaimed (s : Cache P) : Prop :=
  ∀ i, s.fs.ref i = 0 → s.seen i = true → (s.fs.inode i).nlink = 0 → (s.fs.dinode i).type = .free ∧
    ∀ b < s.fs.sb.size, s.fs.bitmap b = true → b < s.fs.sb.nmeta ∨ ∃ x : Slot, x.inum ≠ i ∧ diskRef s.fs x = some b

theorem Good.safeFree (h : Good s) (e : CacheEvent P) : SafeFree s e := by
  cases e with
  | resume p =>
    intro i hp q hne hq
    have h1 := (h.each i).sole p hp
    have h2 := (h.each i).two_tokens ((h.each i).owns p _ hp) hq hne.symm
    omega
  | _ => trivial

omit [DecidableEq P] in
theorem Good.reclaimed (h : Good s) : Reclaimed s := by
  intro i hr hseen hn
  have hi := h.each i
  have hfree : (attr s.fs i).nlink = none := by
    refine (hi.seen hseen).resolve_left fun hv => hi.settled (Or.inl hr) hv ?_
    rw [h.attr_nlink hv, hn]
  have htype : (s.fs.dinode i).type = .free := by
    by_contra hne
    rw [attr, file, h.inv.cur_eq, if_neg hne] at hfree
    cases hfree
  refine ⟨htype, fun b hb hbit => ?_⟩
  rcases (h.inv.owned.bits b hb).mp hbit with hm | ⟨x, hx, -⟩
  · exact Or.inl hm
  · refine Or.inr ⟨x, ?_, hx⟩
    rintro rfl
    rw [h.inv.diskRef_eq, slotRef_eq_some, slotNumber, h.inv.cur_eq, if_pos htype] at hx
    exact hx.2 hx.1.symm

def bootCache (fs : State) : Cache P := ⟨fs, fun _ => none, [], fun _ => none, fun _ => false⟩

omit [DecidableEq P] in
theorem bootCache_good (h : WellFormed fs) (hr : ∀ i, fs.ref i = 0) : Good (bootCache fs : Cache P) := by
  refine ⟨h.inv, fun i => ?_⟩
  constructor
  all_goals simp [bootCache, attr, hr, h.cold]

/-- As long as `iput`s of an inode do not overlap and no `iget` comes between the reading of `ref` and the freeing,
the last `iput` of an unlinked inode frees it, and none frees it sooner. -/
theorem inode_release {fs : State} {es : List (CacheEvent P)} (hw : WellFormed fs) (hr : ∀ i, fs.ref i = 0)
    (hrun : Run (Steps cacheStep) (bootCache fs) es t) (hcalm : Along (Steps cacheStep) Calm
      (bootCache fs : Cache P) es) :
    Reclaimed t ∧ Along (Steps cacheStep) SafeFree (bootCache fs : Cache P) es := by
  have hboot : Good (bootCache fs : Cache P) := bootCache_good hw hr
  have hstep : ∀ (s : Cache P) e t, Good s → Calm s e → Steps cacheStep s e t → Good t :=
    fun _ _ _ h hc hs => cacheStep_good h hc hs
  exact ⟨(hrun.invariant hstep hcalm hboot).reclaimed, hcalm.invariant hstep (fun s e h _ => h.safeFree e) hboot⟩

instance [Fintype P] (s : Cache P) : ∀ e, Decidable (Calm s e)
  | .iput _ i => inferInstanceAs (Decidable (∀ q, s.pc q ≠ some (i, .drop)))
  | .iget _ i => inferInstanceAs (Decidable (∀ q, s.pc q ≠ some (i, .free)))
  | .idup .. | .give .. | .ialloc .. | .ilock .. | .iunlock .. | .setNlink .. | .writei .. | .resume .. =>
    .isTrue trivial

def sharedFile : List (CacheEvent Bool) :=
  [.ialloc true .file, .ilock true 1, .setNlink true 1 1, .iunlock true 1, .idup true 1, .give true false 1,
    .ilock true 1, .setNlink true 1 0, .iunlock true 1]

/-- A file that two processes hold when it loses its name; the first `iput` leaves it alone. -/
theorem inode_release_unnamed : ∃ t u : Cache Bool,
    Run (Steps cacheStep) (bootCache blankImage) (sharedFile ++ [.iput true 1] ++ List.replicate 3 (.resume true)) t ∧
      t.fs.ref 1 = 1 ∧ (t.fs.dinode 1).type = .file ∧
    Run (Steps cacheStep) t (.iput false 1 :: List.replicate 4 (.resume false)) u ∧
      u.fs.ref 1 = 0 ∧ Reclaimed u ∧ (u.fs.dinode 1).type = .free := by
  let es := sharedFile ++ [.iput true 1] ++ List.replicate 3 (.resume true)
  let es' : List (CacheEvent Bool) := .iput false 1 :: List.replicate 4 (.resume false)
  have h : (exec cacheStep (bootCache blankImage : Cache Bool) es).map
      (fun t => (t.fs.ref 1, (t.fs.dinode 1).type, (exec cacheStep t es').map
        fun u => (u.fs.ref 1, u.seen 1, (u.fs.inode 1).nlink))) = some (1, .file, some (0, true, 0)) := by
    decide +kernel
  obtain ⟨t, he, ht⟩ := Option.map_eq_some_iff.mp h
  simp only [Prod.mk.injEq] at ht
  obtain ⟨hone, hfile, ht⟩ := ht
  obtain ⟨u, hu, hs⟩ := Option.map_eq_some_iff.mp ht
  simp only [Prod.mk.injEq] at hs
  have hcalm : Along (Steps cacheStep) Calm (bootCache blankImage : Cache Bool) (es ++ es') := by decide +kernel
  have hrec := (inode_release blankImage_wellFormed (fun _ => rfl) ((run_of_exec he).append (run_of_exec hu)) hcalm).1
  exact ⟨t, u, run_of_exec he, hone, hfile, run_of_exec hu, hs.1, hrec, (hrec 1 hs.1 hs.2.1 hs.2.2).1⟩

/-- Both processes read `ref = 2` before either of them decrements it. -/
theorem overlapping_iputs_leak : ∃ (es : List (CacheEvent Bool)) (t : Cache Bool),
    Run (Steps cacheStep) (bootCache blankImage) es t ∧ ¬ Reclaimed t := by
  let es : List (CacheEvent Bool) := sharedFile ++
    [.iput true 1, .resume true, .resume true, .iput false 1, .resume false, .resume false, .resume true,
      .resume false]
  have h : (exec cacheStep (bootCache blankImage) es).map
      (fun t => (t.fs.ref 1, t.seen 1, (t.fs.inode 1).nlink, (t.fs.dinode 1).type)) = some (0, true, 0, .file) := by
    decide +kernel
  obtain ⟨t, he, ht⟩ := Option.map_eq_some_iff.mp h
  simp only [Prod.mk.injEq] at ht
  obtain ⟨hr, hs, hn, htype⟩ := ht
  refine ⟨es, t, run_of_exec he, fun hrec => ?_⟩
  rw [(hrec 1 hr hs hn).1] at htype
  cases htype

end Xv6.Fs
