import Xv6.DirEntries
import Xv6.Transition

namespace Xv6.Fs

open ByteMemory Contract Ownership Transition

inductive FsCall where
  | ialloc (type : FType)
  | iget (i : ℕ)
  | setAttr (i : ℕ) (major minor nlink : Int16)
  | readi (i off n : ℕ)
  | writei (i off : ℕ) (src : List UInt8)
  | dirlink (dp : ℕ) (name : List UInt8) (inum : ℕ)
  | iput (i : ℕ)

def fsCall (fs : State) : FsCall → Option (Outcome State)
  | .ialloc type => if type = .free then none else some do
      let (_, fs) ← ialloc fs type
      .ok fs
  | .iget i => some (iget fs i)
  | .setAttr i major minor nlink => some do
      let fs ← ilock fs i
      .ok (commit fs i { fs.inode i with major := major, minor := minor, nlink := nlink })
  | .readi i off n => some do
      let fs ← ilock fs i
      let (_, fs) ← readi fs i off n
      .ok fs
  | .writei i off src => some do
      let fs ← ilock fs i
      let (_, fs) ← writei fs i src off
      .ok fs
  | .dirlink dp name inum => some do
      let fs ← ilock fs dp
      let (_, fs) ← dirlink fs dp name inum
      .ok fs
  | .iput i => if fs.ref i = 0 then none else some (iput fs i)

def diskRef (fs : State) : Slot → Option ℕ := slotRef { fs with valid := fun _ => false }

structure WellFormed (fs : State) : Prop where
  cold : ∀ i, fs.valid i = false
  room : 0 < fs.sb.nmeta
  small : fs.sb.size ≤ 2 ^ 32
  data : ∀ s b, diskRef fs s = some b → fs.sb.nmeta ≤ b ∧ b < fs.sb.size
  once : ∀ s t b, diskRef fs s = some b → diskRef fs t = some b → s = t
  bits : ∀ b < fs.sb.size, fs.bitmap b = true ↔ b < fs.sb.nmeta ∨ ∃ s, diskRef fs s = some b
  filled : ∀ i, (fs.dinode i).type ≠ .free → Filled fs.data (fs.dinode i) (blocksOf (fs.dinode i).size)
  bound : ∀ i, (fs.dinode i).type ≠ .free → (fs.dinode i).size ≤ MAXFILE * BSIZE

variable {fs fs' : State} {i b : ℕ}

theorem Inv.diskRef_eq (h : Inv fs) (s : Slot) : diskRef fs s = slotRef fs s := by
  refine slotRef_frame ?_ fun _ _ => rfl
  rw [h.cur_eq]
  rfl

theorem WellFormed.inv (h : WellFormed fs) : Inv fs := by
  have hcur : ∀ i, cur fs i = fs.dinode i := by
    intro i
    simp [cur, h.cold i]
  have href : ∀ s, slotRef fs s = diskRef fs s := fun s => slotRef_frame (hcur _) fun _ _ => rfl
  refine ⟨⟨h.room, h.small, ⟨?_, ?_, ?_⟩⟩, ?_, ?_, ?_, ?_⟩
  · rintro s b hs ⟨hb, hfree⟩
    rw [href] at hs
    rw [(h.bits b hb).mpr (Or.inr ⟨s, hs⟩)] at hfree
    cases hfree
  · intro s t b hs ht
    rw [href] at hs ht
    exact h.once s t b hs ht
  · intro b
    constructor
    · rintro ⟨hlo, hhi⟩
      by_cases hb : fs.bitmap b = true
      · rcases (h.bits b hhi).mp hb with hm | ⟨s, hs⟩
        · omega
        · exact Or.inr ⟨s, (href s).trans hs⟩
      · exact Or.inl ⟨hhi, by simpa using hb⟩
    · rintro (⟨hhi, hfree⟩ | ⟨s, hs⟩)
      · refine ⟨?_, hhi⟩
        by_contra hlo
        rw [(h.bits b hhi).mpr (Or.inl (by omega))] at hfree
        cases hfree
      · rw [href] at hs
        exact h.data s b hs
  · intro i hi
    rw [hcur] at hi ⊢
    exact h.filled i hi
  · intro i hi
    rw [hcur] at hi ⊢
    exact h.bound i hi
  · intro i hi
    rw [h.cold i] at hi
    cases hi
  · intro i hi
    rw [h.cold i] at hi
    cases hi

structure Owned (fs : State) : Prop where
  bits : ∀ b < fs.sb.size, fs.bitmap b = true ↔ b < fs.sb.nmeta ∨ ∃! s, diskRef fs s = some b
  data : ∀ s b, diskRef fs s = some b → fs.sb.nmeta ≤ b ∧ b < fs.sb.size
  fresh : ∀ b fs', balloc fs = .ok (b, fs') → fs.sb.nmeta ≤ b ∧ b < fs.sb.size ∧ ∀ s, diskRef fs s ≠ some b
  trunc : ∀ i, fs.valid i = true → ∃ fs', itrunc fs i = .ok fs' ∧
    ∀ b, fs'.bitmap b = true ↔ fs.bitmap b = true ∧ ∀ s : Slot, s.inum = i → diskRef fs s ≠ some b
  bfree : ∀ c, fsCall fs c ≠ some (.error "freeing free block")

def Keeps (x : Outcome State) : Prop := Sat x (· ≠ "freeing free block") Inv

theorem ilock_then {α : Type} {Q : α → Prop} {f : State → Outcome α} (h : Inv fs)
    (hf : ∀ fs', Inv fs' → fs'.valid i = true → Sat (f fs') (· ≠ "freeing free block") Q) :
    Sat (ilock fs i >>= f) (· ≠ "freeing free block") Q := by
  refine ((ilock_spec h i).mono ?_ fun _ hq => hq).bind fun fs' hq => hf fs' hq.1.inv ?_
  · rintro e (⟨rfl, -⟩ | ⟨rfl, -⟩) <;> decide
  · rw [hq.2.2, Function.update_self]

theorem ne_of_mem_dirPanics {e : String} (he : e ∈ dirPanics) : e ≠ "freeing free block" := by
  rintro rfl
  revert he
  decide

theorem readi_state (h : Inv fs) (hv : fs.valid i = true) (off n : ℕ) : ∃ r, readi fs i off n = .ok (r, fs) := by
  by_cases hd : (fs.inode i).type = .dev
  · exact ⟨none, by rw [readi, if_pos hd]⟩
  · by_cases hs : (fs.inode i).size < off ∨ 2 ^ 32 ≤ off + n
    · exact ⟨none, by rw [readi, if_neg hd, if_pos hs]⟩
    · exact ⟨_, readi_eq h hv hd hs⟩

theorem writei_keeps (h : Inv fs) (hv : fs.valid i = true) (src : List UInt8) (off : ℕ) :
    Sat (writei fs i src off) (· ≠ "freeing free block") (fun r => Inv r.2) := by
  by_cases hd : (fs.inode i).type = .dev
  · rw [writei, if_pos hd]
    exact h
  · refine (writei_spec h hv hd src off).mono (fun e he => by rw [he]; decide) ?_
    rintro r (⟨-, he, -⟩ | ⟨-, -, hw⟩)
    · rw [he]
      exact h
    · exact hw.inv

theorem fsCall_keeps {x : Outcome State} {c : FsCall} (h : Inv fs) (hx : fsCall fs c = some x) : Keeps x := by
  cases c with
  | ialloc type =>
    simp only [fsCall] at hx
    split_ifs at hx with ht
    rw [← Option.some.inj hx]
    refine ((ialloc_spec h ht).mono ?_ fun _ hq => hq).bind fun r hq => hq.2.2.2.1
    rintro e (rfl | rfl) <;> decide
  | iget i =>
    rw [← Option.some.inj hx]
    exact (iget_spec h i).mono (fun e he => by rw [he]; decide) fun _ hq => hq.1.inv
  | setAttr i major minor nlink =>
    rw [← Option.some.inj hx]
    exact ilock_then h fun fs' h' hv => (setAttr_spec h' hv major minor nlink).1
  | readi i off n =>
    rw [← Option.some.inj hx]
    refine ilock_then h fun fs' h' hv => ?_
    obtain ⟨r, hr⟩ := readi_state h' hv off n
    rw [hr]
    exact h'
  | writei i off src =>
    rw [← Option.some.inj hx]
    exact ilock_then h fun fs' h' hv => (writei_keeps h' hv src off).bind fun r hr => hr
  | dirlink dp name inum =>
    rw [← Option.some.inj hx]
    refine ilock_then h fun fs' h' hv => ?_
    by_cases hd : (fs'.inode dp).type = .dir
    · refine ((dirlink_spec h' hv hd name inum).mono (fun e he => ne_of_mem_dirPanics he) fun _ hq => hq).bind ?_
      rintro r (⟨-, hl⟩ | ⟨-, hu, -⟩)
      · exact hl.inv
      · exact hu.inv
    · rw [dirlink, dirlookup, if_pos hd]
      simp
  | iput i =>
    simp only [fsCall] at hx
    split_ifs at hx
    obtain ⟨fs', he, hinv, -⟩ := iput_spec h i
    rw [← Option.some.inj hx, he]
    exact hinv

theorem fsStep_inv {fs fs' : State} {c : FsCall} (h : Inv fs) (hs : Steps fsCall fs c fs') : Inv fs' :=
  (fsCall_keeps h hs).of_ok rfl

theorem fsRun_inv {cs : List FsCall} (h : Inv fs) (hr : Run (Steps fsCall) fs cs fs') : Inv fs' := by
  induction hr with
  | nil fs => exact h
  | cons hs _ ih => exact ih (fsStep_inv h hs)

theorem Inv.owned (h : Inv fs) : Owned fs where
  bits := by
    intro b hb
    constructor
    · intro hbit
      by_cases hm : b < fs.sb.nmeta
      · exact Or.inl hm
      · rcases (h.core.ledger.all b).mp ⟨by omega, hb⟩ with hf | ⟨s, hs⟩
        · rw [hf.2] at hbit
          cases hbit
        · refine Or.inr ⟨s, (h.diskRef_eq s).trans hs, fun t ht => ?_⟩
          dsimp only at ht
          rw [h.diskRef_eq] at ht
          exact h.core.ledger.inj t s b ht hs
    · rintro (hm | ⟨s, hs, -⟩)
      · by_contra hne
        have hmem := h.core.ledger.mem_of_free (x := b) ⟨hb, by simpa using hne⟩
        exact absurd hmem.1 (by omega)
      · rw [h.diskRef_eq] at hs
        exact h.core.bitmap_of_held hs
  data := by
    intro s b hs
    rw [h.diskRef_eq] at hs
    exact h.core.mem_dataBlocks hs
  fresh := by
    intro b fs' he
    have hf := (balloc_spec h.core).of_ok he
    refine ⟨hf.mem.1, hf.mem.2, fun s hs => ?_⟩
    rw [h.diskRef_eq] at hs
    exact hf.unheld s hs
  trunc := by
    intro i hv
    refine ⟨_, itrunc_eq hv (h.typed_inode hv) h.core, fun b => ?_⟩
    simp only [commit, iupdate, setInode, clearBits, Bool.and_eq_true, decide_eq_true_eq, mem_ownBlocks, not_exists,
        not_and,
      h.diskRef_eq]
  bfree := by
    intro c hc
    exact (fsCall_keeps h hc).of_error rfl rfl

/-- After every sequence of calls from a well-formed image the free map is exact. -/
theorem block_ownership {cs : List FsCall} (h : WellFormed fs) (hr : Run (Steps fsCall) fs cs fs') : Owned fs' :=
  (fsRun_inv h.inv hr).owned

def blankImage : State where
  sb := ⟨40, 10, 8⟩
  bitmap := fun b => decide (b < 30)
  dinode := fun _ => newDinode .free
  data := fun _ => zero
  inode := fun _ => newDinode .free
  valid := fun _ => false
  ref := fun _ => 0

theorem blankImage_slots (s : Slot) : diskRef blankImage s = none := by
  rw [diskRef, slotRef_eq_none]
  rfl

theorem blankImage_wellFormed : WellFormed blankImage where
  cold _ := rfl
  room := by decide
  small := by decide
  data s b hs := by
    rw [blankImage_slots] at hs
    cases hs
  once s t b hs := by
    rw [blankImage_slots] at hs
    cases hs
  bits b _ := by
    simp only [blankImage_slots]
    simp [blankImage, Superblock.nmeta]
  filled i hi := absurd rfl hi
  bound i hi := absurd rfl hi

/-- One byte is written to a new file, which is then put away again. -/
theorem block_ownership_write : ∃ fs fs', Run (Steps fsCall) blankImage [.ialloc .file, .writei 1 0 [7]] fs ∧
    Run (Steps fsCall) blankImage [.ialloc .file, .writei 1 0 [7], .iput 1] fs' ∧
    fs.bitmap 30 = true ∧ Owned fs ∧ fs'.bitmap 30 = false ∧ Owned fs' := by
  have h1 : (exec fsCall blankImage [.ialloc .file, .writei 1 0 [7]]).map (fun fs => fs.bitmap 30) = some true := by
    decide +kernel
  have h2 : (exec fsCall blankImage [.ialloc .file, .writei 1 0 [7], .iput 1]).map (fun fs => fs.bitmap 30) =
      some false := by
    decide +kernel
  obtain ⟨fs, he, hb⟩ := Option.map_eq_some_iff.mp h1
  obtain ⟨fs', he', hb'⟩ := Option.map_eq_some_iff.mp h2
  exact ⟨fs, fs', run_of_exec he, run_of_exec he', hb, block_ownership blankImage_wellFormed (run_of_exec he), hb',
    block_ownership blankImage_wellFormed (run_of_exec he')⟩

end Xv6.Fs
