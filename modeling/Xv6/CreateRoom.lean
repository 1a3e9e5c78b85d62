import Xv6.CacheRoom

/-!
What `create` needs: room in the inode cache, a free inode, blocks, and room in the directory.
-/

namespace Xv6.SysFile

open Contract FileTable OpenFiles ProcTable LinkGraph Transition
open Fs hiding Slot
open PointerCount hiding hit
open Function (update_self update_of_ne update_idem)

def outOfBlocks : String := "balloc: out of blocks"

def fullDir (bs : List UInt8) : Prop := MAXFILE * BSIZE < (SlotTable.slot unused (entriesOf bs) + 1) * sizeofDirent

def growth (bs : List UInt8) : ℕ :=
  slotsFor (max (blocksOf bs.length) (blocksOf ((SlotTable.slot unused (entriesOf bs) + 1) * sizeofDirent))) -
    slotsFor (blocksOf bs.length)

def dotBlocks (type : FType) : ℕ := if type = .dir then 1 else 0

def hasFree (F : Files) (N : ℕ) : Prop := ∃ i, 0 < i ∧ i < N ∧ F i = none

def fitsNew (F : Files) (N : ℕ) (P : ℕ → ℕ) (mine : Multiset ℕ) : Prop :=
  hasFree F N → inUse N (fun j => P j + mine.count j) < NINODE

def fitsLookup (F : Files) (N : ℕ) (P : ℕ → ℕ) (mine : Multiset ℕ) (path : Path) (start : ℕ) : Prop :=
  fitsNamex F N P mine path true start ∧ ∀ dp name, walk F true start (pathElems path) = some (dp, name) →
    ∀ next, lookupIn F dp name = some next → roomFor N P (dp ::ₘ mine) next

def fitsCreate (F : Files) (N : ℕ) (P : ℕ → ℕ) (mine : Multiset ℕ) (path : Path) (start : ℕ) : Prop :=
  fitsLookup F N P mine path start ∧ ∀ dp name, walk F true start (pathElems path) = some (dp, name) →
    lookupIn F dp name = none → fitsNew F N P (dp ::ₘ mine)

def addsToFull (F : Files) (start : ℕ) (path : Path) : Prop :=
  ∃ dp name f, walk F true start (pathElems path) = some (dp, name) ∧ lookupIn F dp name = none ∧ F dp = some f ∧
    fullDir f.bytes

def isFileIn (F : Files) (i : ℕ) : Prop := ∃ f, F i = some f ∧ f.type = .file

def creates (F : Files) (start : ℕ) (path : Path) (type : FType) : Prop :=
  ∃ dp name, walk F true start (pathElems path) = some (dp, name) ∧
    ∀ ip, lookupIn F dp name = some ip → type = .file ∧ isFileIn F ip

variable {s t : Sys} {F : Files} {N : ℕ} {P : ℕ → ℕ} {mine locked : Multiset ℕ} {i dp ip start : ℕ} {f g : Fs.File}
  {p : Slot} {path : Path} {name : List UInt8} {type : FType}

theorem addsToFull_iff (hwalk : walk F true start (pathElems path) = some (dp, name)) (hf : F dp = some f) :
    addsToFull F start path ↔ lookupIn F dp name = none ∧ fullDir f.bytes := by
  constructor
  · rintro ⟨dp', name', f', hw', hlook, hf', hfull⟩
    cases hwalk.symm.trans hw'
    cases hf.symm.trans hf'
    exact ⟨hlook, hfull⟩
  · rintro ⟨hlook, hfull⟩
    exact ⟨dp, name, f, hwalk, hlook, hf, hfull⟩

theorem not_addsToFull (hwalk : walk F true start (pathElems path) = none) : ¬addsToFull F start path := by
  rintro ⟨dp, name, f, hw, -⟩
  cases hwalk.symm.trans hw

theorem creates_iff (hwalk : walk F true start (pathElems path) = some (dp, name)) :
    creates F start path type ↔ ∀ ip, lookupIn F dp name = some ip → type = .file ∧ isFileIn F ip := by
  constructor
  · rintro ⟨dp', name', hw', hall⟩
    cases hwalk.symm.trans hw'
    exact hall
  · intro hall
    exact ⟨dp, name, hwalk, hall⟩

theorem file_eq_none {fs : State} (h : Inv fs) : file fs i = none ↔ (fs.dinode i).type = .free := by
  rw [file, h.cur_eq]
  split_ifs with ht
  · exact iff_of_true rfl ht
  · exact iff_of_false (by simp) ht

theorem growth_le (bs : List UInt8) : growth bs ≤ 2 := by
  have hlen : SlotTable.slot unused (entriesOf bs) * sizeofDirent ≤ bs.length := by
    have hle : SlotTable.slot unused (entriesOf bs) ≤ (entriesOf bs).length := SlotTable.slot_le
    rw [length_entriesOf] at hle
    simp only [sizeofDirent, DIRSIZ] at *
    omega
  have hblocks : blocksOf ((SlotTable.slot unused (entriesOf bs) + 1) * sizeofDirent) ≤ blocksOf bs.length + 1 := by
    simp only [blocksOf, BSIZE, sizeofDirent, DIRSIZ] at *
    omega
  have hmax : max (blocksOf bs.length) (blocksOf ((SlotTable.slot unused (entriesOf bs) + 1) * sizeofDirent)) ≤
      blocksOf bs.length + 1 := by omega
  have hmono := slotsFor_mono hmax
  have hstep : slotsFor (blocksOf bs.length + 1) ≤ slotsFor (blocksOf bs.length) + 2 := by
    simp only [slotsFor]
    split_ifs <;> omega
  rw [growth]
  omega

def LiveDirs (F : Files) : Prop := ∀ d f, F d = some f → f.type = .dir → f.nlink ≠ 0

theorem LiveDirs.update (h : LiveDirs F) {v : Option Fs.File} (hv : ∀ g, v = some g → g.type = .dir → g.nlink ≠ 0) :
    LiveDirs (Function.update F i v) := by
  intro d f hf hd
  by_cases he : d = i
  · subst he
    rw [update_self] at hf
    exact hv f hf hd
  · rw [update_of_ne he] at hf
    exact h d f hf hd

def NoEntry (s : Sys) (f : Fs.File) (e : String) : Prop :=
  e = outOfBlocks ∧ freeCount s.fs < growth f.bytes ∨ e = "dirlink" ∧ fullDir f.bytes

def NotMade (s : Sys) (F : Files) (N : ℕ) (type : FType) (f : Fs.File) (e : String) : Prop :=
  e = "ialloc: no inodes" ∧ ¬hasFree F N ∨ e = outOfBlocks ∧ freeCount s.fs < dotBlocks type + 2 ∨
    e = "dirlink" ∧ fullDir f.bytes

def NotCreated (s : Sys) (F : Files) (N : ℕ) (type : FType) (start : ℕ) (path : Path) (e : String) : Prop :=
  e = "ialloc: no inodes" ∧ ¬hasFree F N ∨ e = outOfBlocks ∧ freeCount s.fs < dotBlocks type + 2 ∨
    e = "dirlink" ∧ addsToFull F start path

structure Added (s t : Sys) (F : Files) (N : ℕ) (P : ℕ → ℕ) (mine locked : Multiset ℕ) (dp : ℕ) (f : Fs.File)
    (de : Dirent) : Prop where
  notFull : ¬fullDir f.bytes
  kernel : t.kernel = s.kernel
  cwd : t.cwd = s.cwd
  blocks : growth f.bytes ≤ freeCount s.fs → freeCount t.fs + growth f.bytes = freeCount s.fs
  entries : ∃ bs, Work t (Function.update F dp (some { f with bytes := bs })) N P mine locked ∧
    bs.length % sizeofDirent = 0 ∧ entriesOf bs = addEntry (entriesOf f.bytes) de

structure Created (s t : Sys) (F : Files) (N : ℕ) (P : ℕ → ℕ) (mine : Multiset ℕ) (type : FType) (start : ℕ)
    (path : Path) (r : Option ℕ) : Prop where
  kernel : t.kernel = s.kernel
  cwd : t.cwd = s.cwd
  notFull : ¬addsToFull F start path
  answer : r = none ↔ ¬creates F start path type
  work : ∃ F', Work t F' N P (holding r mine) (holding r 0) ∧ (type ≠ .dir → LiveDirs F → LiveDirs F')

namespace Work

theorem ialloc_room (h : Work s F N P mine locked) (hu : ∀ i, 0 < P i → F i ≠ none) (ha : ∀ i ∈ mine, F i ≠ none)
    (ht : type ≠ .free) :
    Guarded (Fs.ialloc s.fs type) (fitsNew F N P mine) noInodes (fun e => e = "ialloc: no inodes" ∧
      ¬hasFree F N) fun r =>
      F r.1 = none ∧ r.1 ≠ 0 ∧ r.1 < N ∧
      Work (setFs s r.2) (Function.update F r.1 (some ⟨type, 0, 0, 0, []⟩)) N P (r.1 ::ₘ mine) locked ∧
      Still s (setFs s r.2) := by
  have hspec := h.ialloc ht
  have hlen := h.cached_length
  have hnone (i : ℕ) : F i = none ↔ (s.fs.dinode i).type = .free := by rw [← h.file_eq, file_eq_none h.inv]
  cases hf : ((List.range s.fs.sb.ninodes).drop 1).find? (fun inum => (s.fs.dinode inum).type = .free) with
  | none =>
    have hno : ¬hasFree F N := by
      rintro ⟨i, h0, hi, hfi⟩
      have hmem : i ∈ (List.range s.fs.sb.ninodes).drop 1 := by
        rw [h.ninodes, List.mem_drop_iff_getElem]
        exact ⟨i - 1, by rw [List.length_range]; omega, by rw [List.getElem_range]; omega⟩
      have := List.find?_eq_none.mp hf i hmem
      exact this (decide_eq_true ((hnone i).mp hfi))
    rw [Fs.ialloc, hf]
    exact Guarded.of_sat ⟨rfl, hno⟩ fun hfree => absurd hfree hno
  | some inum =>
    have hfi : F inum = none := (hnone inum).mpr (by simpa using List.find?_some hf)
    have href : s.fs.ref inum = 0 := by
      rw [h.ref_eq]
      have h1 : ¬0 < P inum := fun hp => hu inum hp hfi
      have h2 : mine.count inum = 0 := Multiset.count_eq_zero.mpr fun hm => ha inum hm hfi
      omega
    have hmem : 0 < inum ∧ inum < N := by
      obtain ⟨k, hk, rfl⟩ := List.mem_drop_iff_getElem.mp (List.mem_of_find?_eq_some hf)
      rw [List.length_range, h.ninodes] at hk
      simp only [List.getElem_range]
      omega
    have hfits : fitsNew F N P mine ↔ (cached s.fs).length < NINODE := by
      rw [hlen]
      exact ⟨fun hfit => hfit ⟨inum, hmem.1, hmem.2, hfi⟩, fun hlt _ => hlt⟩
    apply Guarded.congr _ hfits
    have heq : Fs.ialloc s.fs type = if NINODE ≤ (cached s.fs).length then .error noInodes else .ok (inum, { s.fs with
        dinode := Function.update s.fs.dinode inum ⟨type, 0, 0, 0, 0, fun _ => 0⟩
        ref := Function.update s.fs.ref inum 1, valid := Function.update s.fs.valid inum false }) := by
      rw [Fs.ialloc, hf]
      simp only [Fs.iget, href, lt_irrefl, if_false]
      by_cases hfull : NINODE ≤ (cached s.fs).length
      · rw [if_pos hfull]
        exact congrArg (· >>= _) (if_pos hfull)
      · rw [if_neg hfull]
        exact congrArg (· >>= _) (if_neg hfull)
    by_cases hfull : NINODE ≤ (cached s.fs).length
    · rw [heq, if_pos hfull]
      exact ⟨fun _ => rfl, fun hlt => absurd hfull (by omega)⟩
    · rw [if_neg hfull] at heq
      obtain ⟨h1, h2, h3, h4⟩ := hspec.of_ok heq
      rw [heq]
      exact Guarded.of_sat ⟨h1, h2, h3, h4, ⟨rfl, rfl, rfl, rfl⟩⟩ (by omega)

theorem dirwrite_room (h : Work s F N P mine locked) (hdp : dp ∈ locked) (hf : F dp = some f) (hd : f.type = .dir)
    (hmod : f.bytes.length % sizeofDirent = 0) (name : List UInt8) (inum : ℕ) :
    Sat (SysFile.dirwrite s dp name inum) (NoEntry s f) fun t =>
      Added s t F N P mine locked dp f ⟨inum % 65536, strncpy name DIRSIZ⟩ := by
  have hbytes := h.bytes hf
  have hv := h.valid dp hdp
  have hread := h.readable hdp hf hd hmod
  have hdev : (s.fs.inode dp).type ≠ .dev := by
    rw [hread.dir]
    exact FType.noConfusion
  have hsize : (s.fs.inode dp).size = f.bytes.length := by rw [← hread.length_eq, hbytes]
  have hspec := h.dirwrite hdp hf hd hmod name inum
  set de : Dirent := ⟨inum % 65536, strncpy name DIRSIZ⟩ with hde
  set off := SlotTable.slot unused (entriesOf f.bytes) * sizeofDirent with hoff
  have hlen : de.bytes.length = sizeofDirent := Dirent.length_bytes (length_strncpy name DIRSIZ)
  have hend : (SlotTable.slot unused (entriesOf f.bytes) + 1) * sizeofDirent = off + sizeofDirent := Nat.succ_mul _ _
  have heq : SysFile.dirwrite s dp name inum = writei s.fs dp de.bytes off >>= fun r =>
      if r.1 = some sizeofDirent then .ok (setFs s r.2) else .error "dirlink" := by
    rw [SysFile.dirwrite, hread.emptySlot_eq, nextOffset, hbytes]
    rfl
  by_cases hfull : fullDir f.bytes
  · have href : Refused (s.fs.inode dp).size off de.bytes.length := by
      rw [fullDir, hend] at hfull
      rw [Refused, hlen]
      exact Or.inr (Or.inr hfull)
    rw [heq, writei_refused hdev href]
    exact Or.inr ⟨rfl, hfull⟩
  · have hle : off ≤ f.bytes.length := by
      have hslot : SlotTable.slot unused (entriesOf f.bytes) ≤ (entriesOf f.bytes).length := SlotTable.slot_le
      rw [length_entriesOf] at hslot
      simp only [hoff, sizeofDirent, DIRSIZ] at *
      omega
    have hno : ¬Refused (s.fs.inode dp).size off de.bytes.length := by
      have h32 : MAXFILE * BSIZE = 71680 := rfl
      rw [fullDir, hend] at hfull
      rw [hsize, hlen, Refused]
      omega
    have hneed : growth f.bytes = slotsFor (max (blocksOf f.bytes.length) (blocksOf (off + sizeofDirent))) -
        slotsFor (blocksOf f.bytes.length) := by rw [growth, hend]
    have hgrow := slotsFor_mono (le_max_left (blocksOf f.bytes.length) (blocksOf (off + sizeofDirent)))
    by_cases hroom : enough s.fs dp off de.bytes.length
    · obtain ⟨fs', hw, -, hcount⟩ := writei_room h.inv hv hdev hno hroom
      have hmax : blocksOf (max f.bytes.length (off + sizeofDirent)) =
          max (blocksOf f.bytes.length) (blocksOf (off + sizeofDirent)) := by
        simp only [blocksOf, BSIZE]
        omega
      rw [hsize, hlen, hmax] at hcount
      rw [hw, Outcome.ok_bind, if_pos (congrArg some hlen)] at heq
      have hq := hspec.of_ok heq
      rw [heq]
      refine ⟨hfull, rfl, rfl, fun _ => ?_, hq⟩
      change freeCount fs' + growth f.bytes = freeCount s.fs
      omega
    · have hshort : freeCount s.fs < growth f.bytes := by
        rw [enough, hsize, hlen] at hroom
        omega
      cases hw : writei s.fs dp de.bytes off with
      | error e =>
        rw [heq, hw]
        exact Or.inl ⟨(writei_spec h.inv hv hdev de.bytes off).of_error hw, hshort⟩
      | ok r =>
        rcases (writei_spec h.inv hv hdev de.bytes off).of_ok hw with ⟨-, -, hr⟩ | ⟨hr, -, -⟩
        · exact absurd hr hno
        · rw [hw, Outcome.ok_bind, if_pos (hr.trans (congrArg some hlen))] at heq
          have hq := hspec.of_ok heq
          rw [heq]
          exact ⟨hfull, rfl, rfl, fun hle => absurd hle (by omega), hq⟩

theorem dirlink_room (h : Work s F N P mine locked) (hdp : dp ∈ locked) (hf : F dp = some f) (hd : f.type = .dir)
    (hmod : f.bytes.length % sizeofDirent = 0) (hno : lookupIn F dp name = none) (inum : ℕ) :
    Sat (SysFile.dirlink s dp name inum) (NoEntry s f) fun r => r.1 = true ∧
      Added s r.2 F N P mine locked dp f ⟨inum % 65536, strncpy name DIRSIZ⟩ := by
  rw [SysFile.dirlink, h.dirlookup_missing hdp hf hd hmod hno]
  apply (h.dirwrite_room hdp hf hd hmod name inum).bind
  intro t ht
  exact ⟨rfl, ht⟩

theorem createDots_room (h : Work s F N P mine locked) (hip : ip ∈ locked) (hdp : dp ∈ locked) (hne : ip ≠ dp)
    (h0 : ip % 65536 ≠ 0) (hg : F ip = some g) (hgb : g.bytes = []) (hf : F dp = some f) (hgt : g.type = type) :
    Sat (SysFile.createDots s dp ip type) (fun e => e = outOfBlocks ∧ freeCount s.fs < dotBlocks type) fun t =>
      t.kernel = s.kernel ∧ t.cwd = s.cwd ∧
      (dotBlocks type ≤ freeCount s.fs → freeCount t.fs + dotBlocks type = freeCount s.fs) := by
  by_cases ht : type = .dir
  · rw [SysFile.createDots, if_pos ht, dotBlocks, if_pos ht]
    have h1 := h.addNlink hdp hf 1
    have hcount : freeCount (SysFile.addNlink s dp 1).fs = freeCount s.fs := freeCount_congr rfl rfl
    set F1 := Function.update F dp (some { f with nlink := f.nlink + 1 }) with hF1
    have hg1 : F1 ip = some g := by rw [hF1, update_of_ne hne, hg]
    have hgd := hgt.trans ht
    have hempty : entriesOf g.bytes = [] := by
      rw [hgb]
      rfl
    have hno : lookupIn F1 ip dot = none := by
      rw [lookupIn_dir hg1 hgd, hempty]
      rfl
    have hgrow : growth g.bytes = 1 := by
      rw [hgb]
      rfl
    have hfull : ¬fullDir g.bytes := by
      rw [hgb, fullDir]
      decide
    have hmod : g.bytes.length % sizeofDirent = 0 := by
      rw [hgb]
      rfl
    have hshort {s' : Sys} {g' : Fs.File} (hf' : ¬fullDir g'.bytes)
        (hlt : freeCount s'.fs < growth g'.bytes → freeCount s.fs < 1) (e : String) (he : NoEntry s' g' e) :
        e = outOfBlocks ∧ freeCount s.fs < 1 := by
      rcases he with ⟨rfl, hc⟩ | ⟨-, hc⟩
      · exact ⟨rfl, hlt hc⟩
      · exact absurd hc hf'
    apply Sat.bind ((h1.dirlink_room hip hg1 hgd hmod hno ip).mono (hshort hfull (by omega)) fun _ hq => hq)
    rintro ⟨ok, t⟩ ⟨rfl, ht1⟩
    obtain ⟨bs, hw, hm, he⟩ := ht1.entries
    have hone : entriesOf bs = [⟨ip % 65536, strncpy dot DIRSIZ⟩] := by
      rw [he, hempty]
      rfl
    have hlen : bs.length = sizeofDirent := by
      have := congrArg List.length hone
      rw [length_entriesOf, List.length_singleton] at this
      simp only [sizeofDirent, DIRSIZ] at *
      omega
    have hslot : SlotTable.slot unused (entriesOf bs) = 1 := by
      rw [hone]
      simp [SlotTable.slot, unused, h0]
    have hgrow' : growth bs = 0 := by
      rw [growth, hslot, hlen]
      rfl
    have hfull' : ¬fullDir bs := by
      rw [fullDir, hslot]
      decide
    have hno' : lookupIn (Function.update F1 ip (some { g with bytes := bs })) ip dotdot = none := by
      rw [lookupIn_dir (f := { g with bytes := bs }) (update_self ..) hgd, Option.map_eq_none_iff,
        binding_eq_none, hone]
      intro de hde
      rw [List.mem_singleton.mp hde, hit_strncpy_of_ne (by decide)]
    refine sat_ite (fun _ => ?_) fun hn => absurd rfl hn
    apply Sat.bind ((hw.dirlink_room hip (update_self ..) hgd hm hno' dp).mono
      (hshort hfull' (by simp only [hgrow']; omega)) fun _ hq => hq)
    rintro ⟨ok, t'⟩ ⟨rfl, ht2⟩
    refine sat_ite (fun _ => ?_) fun hn => absurd rfl hn
    refine ⟨ht2.kernel.trans ht1.kernel, ht2.cwd.trans ht1.cwd, fun hle => ?_⟩
    have hb1 := ht1.blocks
    have hb2 := ht2.blocks
    simp only [hgrow', hgrow, hcount] at hb1 hb2
    have := hb1 hle
    have := hb2 (Nat.zero_le _)
    omega
  · rw [SysFile.createDots, if_neg ht, dotBlocks, if_neg ht]
    exact ⟨rfl, rfl, fun _ => rfl⟩

theorem iunlockput_ok (h : Work s F N P (i ::ₘ mine) (i ::ₘ locked)) : ∃ t, SysFile.iunlockput s i = .ok t ∧
    t.kernel = s.kernel ∧ t.cwd = s.cwd ∧ ∃ F', Work t F' N P mine locked ∧ (LiveDirs F → LiveDirs F') := by
  obtain ⟨t, ht, hw, hs⟩ := h.iunlock_still
  have hput := hw.iput
  rw [SysFile.iunlockput, ht, Outcome.ok_bind]
  cases he : SysFile.iput t i with
  | error e => exact absurd (hput.of_error he).2 h.notMem_of_cons
  | ok u =>
    obtain ⟨hcwd, hk⟩ := (iput_keeps t i).of_ok he
    refine ⟨u, rfl, hk.trans hs.kernel, hcwd.trans hs.cwd, ?_⟩
    rcases hput.of_ok he with hu | ⟨-, -, f, -, -, hu⟩
    · exact ⟨_, hu, id⟩
    · exact ⟨_, hu, fun hl => hl.update (by rintro g ⟨⟩)⟩

theorem putFinish_ok {α : Type} (h : Work s F N P (i ::ₘ mine) (i ::ₘ locked))
    (r : α) : ∃ t, putFinish r s i = .ok (r, t) ∧
    t.kernel = s.kernel ∧ t.cwd = s.cwd ∧ (LiveDirs F → LiveDirs (file t.fs)) := by
  obtain ⟨t, ht, hk, hc, F', hw, hl⟩ := h.iunlockput_ok
  refine ⟨SysFile.endOp t, ?_, hk, hc, fun h0 => ?_⟩
  · rw [putFinish, ht]
    rfl
  · rw [← hw.files] at hl
    exact hl h0

theorem createNew_room (h : Work s F N P (dp ::ₘ mine) (dp ::ₘ 0)) (hW : Walkable F P)
    (ha : ∀ i ∈ dp ::ₘ mine, F i ≠ none) (hN : N ≤ 65536) (hf : F dp = some f) (hd : f.type = .dir)
    (hno : lookupIn F dp name = none) (htype : type ≠ .free) (major minor : Int16) :
    Guarded (SysFile.createNew s dp name type major minor) (fitsNew F N P (dp ::ₘ mine)) noInodes (NotMade s F N type f)
      fun r => ¬fullDir f.bytes ∧ r.2.kernel = s.kernel ∧ r.2.cwd = s.cwd ∧ ∃ ip F', r.1 = some ip ∧
        Work r.2 F' N P (ip ::ₘ mine) (ip ::ₘ 0) ∧ (type ≠ .dir → LiveDirs F → LiveDirs F') := by
  apply Guarded.bind_sat ((h.ialloc_room hW.used ha htype).mono (fun e he => Or.inl he) fun _ hq => hq)
  rintro ⟨ip, fs⟩ ⟨hnone, hi0, hlt, hw, hs⟩
  simp only at hnone hi0 hlt hw hs
  have hne : ip ≠ dp := by
    rintro rfl
    rw [hf] at hnone
    cases hnone
  have hnot : ip ∉ dp ::ₘ (0 : Multiset ℕ) := by
    rw [Multiset.cons_zero, Multiset.mem_singleton]
    exact hne
  obtain ⟨s1, hs1, hw1, -, hstill⟩ := hw.ilock_still (Multiset.mem_cons_self ip _) hnot (update_self ..)
  have hstill := hs.trans hstill
  have hip : ip ∈ ip ::ₘ dp ::ₘ (0 : Multiset ℕ) := Multiset.mem_cons_self ip _
  have hdp : dp ∈ ip ::ₘ dp ::ₘ (0 : Multiset ℕ) := Multiset.mem_cons_of_mem (Multiset.mem_cons_self dp _)
  have hw2 := hw1.setAttr hip (update_self ..) major minor 1
  rw [update_idem] at hw2
  have hfd : Function.update F ip (some ⟨type, major, minor, 1, []⟩) dp = some f := by
    rw [update_of_ne hne.symm, hf]
  simp only [hs1, Outcome.ok_bind]
  set s2 := setFs s1 (commit s1.fs ip { s1.fs.inode ip with major := major, minor := minor, nlink := 1 }) with hs2
  have hcount : freeCount s2.fs = freeCount s.fs := (freeCount_congr rfl rfl).trans hstill.freeCount
  have hdots : Sat (SysFile.createDots s2 dp ip type) _ _ :=
    hw2.createDots_room hip hdp hne (by omega) (update_self ..) rfl hfd rfl
  have hdots' : Sat (SysFile.createDots s2 dp ip type) Plain _ :=
    hw2.createDots hip hdp hne (update_self ..) rfl hfd rfl
  rw [hcount] at hdots
  apply Sat.bind ((hdots.and hdots').mono (fun e he => Or.inr (Or.inl ⟨he.1, by omega⟩)) fun _ hq => hq)
  rintro s3 ⟨⟨hk3, hc3, hcount3⟩, hplain, hdir⟩
  have hready : ∃ F3 f3, Work s3 F3 N P (ip ::ₘ dp ::ₘ mine) (ip ::ₘ dp ::ₘ 0) ∧ F3 dp = some f3 ∧ f3.type = .dir ∧
      f3.bytes = f.bytes ∧ (type ≠ .dir → LiveDirs F → LiveDirs F3) := by
    by_cases ht : type = .dir
    · obtain ⟨bs, hw3, -⟩ := hdir ht
      refine ⟨_, { f with nlink := f.nlink + 1 }, hw3, ?_, hd, rfl, fun hn => absurd ht hn⟩
      rw [update_of_ne hne.symm, update_self]
    · refine ⟨_, f, hplain ht, hfd, hd, rfl, fun _ hl => hl.update ?_⟩
      rintro g ⟨⟩ hg
      exact absurd hg ht
  obtain ⟨F3, f3, hw3, hf3, hd3, hb3, hl3⟩ := hready
  have hno3 : lookupIn F3 dp name = none := by
    rw [lookupIn_dir hf3 hd3, hb3, ← lookupIn_dir hf hd, hno]
  have hmod3 : f3.bytes.length % sizeofDirent = 0 := by
    rw [hb3]
    exact hW.whole dp f hf hd
  apply Sat.bind ((hw3.dirlink_room hdp hf3 hd3 hmod3 hno3 ip).mono _ fun _ hq => hq)
  · rintro ⟨ok, s4⟩ ⟨rfl, hadd⟩
    refine sat_ite (fun _ => ?_) fun hn => absurd rfl hn
    obtain ⟨bs, hw4, -, -⟩ := hadd.entries
    rw [Multiset.cons_swap ip dp mine, Multiset.cons_swap ip dp 0] at hw4
    obtain ⟨s5, hs5, hk5, hc5, F5, hw5, hl5⟩ := hw4.iunlockput_ok
    simp only [hs5, Outcome.ok_bind]
    refine ⟨hb3 ▸ hadd.notFull, ?_, ?_, ip, F5, rfl, hw5, fun ht hl => hl5 ((hl3 ht hl).update ?_)⟩
    · exact hk5.trans (hadd.kernel.trans (hk3.trans hstill.kernel))
    · exact hc5.trans (hadd.cwd.trans (hc3.trans hstill.cwd))
    · rintro g ⟨⟩ hg
      exact hl3 ht hl dp f3 hf3 hd3
  · rintro e (⟨rfl, hlt⟩ | ⟨rfl, hfull⟩)
    · have hgrow := growth_le f3.bytes
      refine Or.inr (Or.inl ⟨rfl, ?_⟩)
      by_contra hge
      have := hcount3 (by omega)
      omega
    · exact Or.inr (Or.inr ⟨rfl, hb3 ▸ hfull⟩)

theorem createLookup_room (h : Work s F N P mine 0) (hW : Walkable F P) (hst : startAt s p path = some start) :
    Guarded (SysFile.createLookup s p path) (fitsLookup F N P mine path start) noInodes (fun _ => False) fun r =>
      Still s r.2 ∧ match walk F true start (pathElems path) with
        | none => r.1 = none ∧ Work r.2 F N P mine 0
        | some (dp, name) => r.1 = some (dp, name, lookupIn F dp name) ∧
            Work r.2 F N P (holding (lookupIn F dp name) (dp ::ₘ mine)) (dp ::ₘ 0) := by
  obtain ⟨-, hparent⟩ := walk_parent F start (pathElems path)
  apply (h.namex_room hW hst true).bind
  rintro ⟨r, t⟩ ⟨hr, hw, hs⟩
  simp only at hr hw hs
  rw [← hr] at hparent ⊢
  cases r with
  | none =>
    apply Guarded.of_sat
    · exact ⟨hs, rfl, hw⟩
    · rintro dp name ⟨⟩
  | some r =>
    obtain ⟨dp, name⟩ := r
    obtain ⟨-, ⟨f, hf, hd⟩, -⟩ := hparent dp name rfl
    have hw' : Work t F N P (dp ::ₘ mine) 0 := hw
    obtain ⟨t1, ht1, hw1, -, hs1⟩ := hw'.ilock_still (Multiset.mem_cons_self dp mine) (Multiset.notMem_zero dp) hf
    simp only [ht1, Outcome.ok_bind]
    apply ((hw1.dirlookup_room (Multiset.mem_cons_self dp 0) hf hd (hW.whole dp f hf hd) name).bind_sat _).congr
    · refine ⟨fun hall => hall dp name rfl, ?_⟩
      rintro hall _ _ ⟨⟩
      exact hall
    · rintro ⟨r, t2⟩ ⟨hr2, hw2, hs2⟩
      have hlook : r.map Prod.snd = lookupIn F dp name := by rw [lookupIn_dir hf hd, ← hr2]
      simp only at hw2
      rw [hlook] at hw2
      refine ⟨(hs.trans hs1).trans hs2, ?_, hw2⟩
      rw [← hlook]

theorem createFound_room (h : Work s F N P (ip ::ₘ dp ::ₘ mine) (dp ::ₘ 0)) (hk : Kept F P dp) (hg : F ip = some g)
    (hkip : Kept F P ip) (type : FType) : Sat (SysFile.createFound s dp ip type) (fun _ => False) fun r => Still s r.2 ∧
      if type = .file ∧ g.type = .file then r.1 = some ip ∧ Work r.2 F N P (ip ::ₘ mine) (ip ::ₘ 0)
      else r.1 = none ∧ Work r.2 F N P mine 0 := by
  rw [Multiset.cons_swap ip dp mine] at h
  obtain ⟨t, ht, hw, hs⟩ := h.iunlockput_still hk
  obtain ⟨t1, ht1, hw1, htype, hs1⟩ := hw.ilock_still (Multiset.mem_cons_self ip mine) (Multiset.notMem_zero ip) hg
  rw [SysFile.createFound, ht, Outcome.ok_bind, ht1, Outcome.ok_bind, htype]
  split_ifs with hfile
  · exact ⟨hs.trans hs1, rfl, hw1⟩
  · obtain ⟨t2, ht2, hw2, hs2⟩ := hw1.giveUp_still (α := ℕ) hkip
    rw [ht2]
    exact ⟨(hs.trans hs1).trans hs2, rfl, hw2⟩

theorem create_room (h : Work s F N P mine 0) (hW : Walkable F P) (ha : ∀ i ∈ mine, F i ≠ none) (hN : N ≤ 65536)
    (hst : startAt s p path = some start) (htype : type ≠ .free) (major minor : Int16) :
    Guarded (SysFile.create s p path type major minor) (fitsCreate F N P mine path start) noInodes
      (NotCreated s F N type start path) fun r => Created s r.2 F N P mine type start path r.1 := by
  obtain ⟨hstart, hkstart⟩ := h.start_kept hW hst
  apply (h.createLookup_room hW hst).bind
  rintro ⟨r, t⟩ ⟨hs, hr⟩
  simp only at hr hs
  obtain ⟨-, hparent⟩ := walk_parent F start (pathElems path)
  cases hwalk : walk F true start (pathElems path) with
  | none =>
    rw [hwalk] at hr
    obtain ⟨rfl, hw⟩ := hr
    have hnone : ¬creates F start path type := by
      rintro ⟨dp, name, hw', -⟩
      cases hwalk.symm.trans hw'
    apply Guarded.of_sat
    · exact ⟨hs.kernel, hs.cwd, not_addsToFull hwalk, iff_of_true rfl hnone, F, hw, fun _ hl => hl⟩
    · rintro dp name ⟨⟩
  | some r' =>
    obtain ⟨dp, name⟩ := r'
    obtain ⟨-, ⟨f, hf, hd⟩, -⟩ := hparent dp name hwalk
    obtain ⟨-, hk⟩ := hW.walk hstart hkstart hwalk
    rw [hwalk] at hr
    obtain ⟨rfl, hw⟩ := hr
    have hcreates : creates F start path type ↔ _ := creates_iff hwalk
    have hadds := addsToFull_iff hwalk hf
    cases hlook : lookupIn F dp name with
    | none =>
      rw [hlook] at hw hcreates hadds
      have hw' : Work t F N P (dp ::ₘ mine) (dp ::ₘ 0) := hw
      have ha' : ∀ i ∈ dp ::ₘ mine, F i ≠ none := by
        intro i hi
        rcases Multiset.mem_cons.mp hi with rfl | hi
        · rw [hf]
          exact Option.some_ne_none f
        · exact ha i hi
      apply ((hw'.createNew_room hW ha' hN hf hd hlook htype major minor).mono _ _).congr
      · refine ⟨fun hall => hall dp name rfl hlook, ?_⟩
        rintro hfit _ _ ⟨⟩ _
        exact hfit
      · rintro e (he | ⟨he, hlt⟩ | ⟨he, hfull⟩)
        · exact Or.inl he
        · exact Or.inr (Or.inl ⟨he, by rwa [hs.freeCount] at hlt⟩)
        · exact Or.inr (Or.inr ⟨he, hadds.mpr ⟨rfl, hfull⟩⟩)
      · rintro ⟨r, t'⟩ ⟨hnot, hkern, hcwd, ip, F', rfl, hw1, hl⟩
        refine ⟨hkern.trans hs.kernel, hcwd.trans hs.cwd, fun hadd => hnot (hadds.mp hadd).2, ?_, F', hw1, hl⟩
        rw [hcreates]
        exact iff_of_false (by simp) (not_not.mpr (by rintro ip ⟨⟩))
    | some ip =>
      rw [hlook] at hw hcreates hadds
      have hw' : Work t F N P (ip ::ₘ dp ::ₘ mine) (dp ::ₘ 0) := hw
      obtain ⟨hip, hkip⟩ := hW.lookup hk hlook
      obtain ⟨g, hg⟩ := Option.ne_none_iff_exists'.mp hip
      have hnot : ¬addsToFull F start path := fun hadd => by cases (hadds.mp hadd).1
      have hfile : isFileIn F ip ↔ g.type = .file := by
        constructor
        · rintro ⟨g', hg', ht⟩
          cases hg.symm.trans hg'
          exact ht
        · intro ht
          exact ⟨g, hg, ht⟩
      apply Guarded.of_sat
      · apply (hw'.createFound_room hk hg hkip type).mono (fun _ he => he.elim)
        rintro ⟨r, t'⟩ ⟨hs', hr⟩
        have hstill := hs.trans hs'
        simp only [Option.some.injEq, forall_eq', hfile] at hcreates
        split_ifs at hr with hc
        · obtain ⟨hr, hw1⟩ := hr
          simp only at hr hw1
          subst hr
          refine ⟨hstill.kernel, hstill.cwd, hnot, ?_, F, hw1, fun _ hl => hl⟩
          rw [hcreates]
          exact iff_of_false (by simp) (not_not.mpr hc)
        · obtain ⟨hr, hw1⟩ := hr
          simp only at hr hw1
          subst hr
          refine ⟨hstill.kernel, hstill.cwd, hnot, ?_, F, hw1, fun _ hl => hl⟩
          rw [hcreates]
          exact iff_of_true rfl hc
      · rintro _ _ ⟨⟩ hn
        rw [hlook] at hn
        cases hn

end Work

variable {major minor : Int16} {r : ℤ}

theorem Work.create_none (h : Work s F N P mine 0) (hW : Walkable F P) (ha : ∀ i ∈ mine, F i ≠ none) (hN : N ≤ 65536)
    (hst : startAt s p path = some start) (htype : type ≠ .free)
    (he : SysFile.create s p path type major minor = .ok (none, t)) : file t.fs = F := by
  obtain ⟨hstart, hkstart⟩ := h.start_kept hW hst
  obtain ⟨⟨r, s1⟩, hlook, hrest⟩ := Outcome.bind_eq_ok.mp he
  obtain ⟨-, -, hr⟩ := (h.createLookup_room hW hst).of_ok hlook
  cases hwalk : walk F true start (pathElems path) with
  | none =>
    rw [hwalk] at hr
    obtain ⟨rfl, hw⟩ := hr
    cases hrest
    exact hw.files
  | some q =>
    obtain ⟨dp, name⟩ := q
    obtain ⟨-, ⟨f, hf, hd⟩, -⟩ := (walk_parent F start (pathElems path)).2 dp name hwalk
    obtain ⟨-, hk⟩ := hW.walk hstart hkstart hwalk
    rw [hwalk] at hr
    obtain ⟨rfl, hw⟩ := hr
    cases hl : lookupIn F dp name with
    | none =>
      rw [hl] at hrest hw
      have hw' : Work s1 F N P (dp ::ₘ mine) (dp ::ₘ 0) := hw
      have ha' : ∀ i ∈ dp ::ₘ mine, F i ≠ none := by
        intro i hi
        rcases Multiset.mem_cons.mp hi with rfl | hi
        · rw [hf]
          exact Option.some_ne_none f
        · exact ha i hi
      obtain ⟨-, -, -, -, ip, F', hip, -⟩ := (hw'.createNew_room hW ha' hN hf hd hl htype major minor).of_ok hrest
      cases hip
    | some ip =>
      rw [hl] at hrest hw
      have hw' : Work s1 F N P (ip ::ₘ dp ::ₘ mine) (dp ::ₘ 0) := hw
      obtain ⟨hip, hkip⟩ := hW.lookup hk hl
      obtain ⟨g, hg⟩ := Option.ne_none_iff_exists'.mp hip
      obtain ⟨-, hfound⟩ := (hw'.createFound_room hk hg hkip type).of_ok hrest
      split_ifs at hfound
      · cases hfound.1
      · exact hfound.2.files

theorem creates_new (h : type ≠ .file) : creates F start path type ↔
    ∃ dp name, walk F true start (pathElems path) = some (dp, name) ∧ lookupIn F dp name = none := by
  constructor
  · rintro ⟨dp, name, hwalk, hall⟩
    refine ⟨dp, name, hwalk, ?_⟩
    by_contra hne
    obtain ⟨ip, hip⟩ := Option.ne_none_iff_exists'.mp hne
    exact h (hall ip hip).1
  · rintro ⟨dp, name, hwalk, hnone⟩
    refine ⟨dp, name, hwalk, fun ip hip => ?_⟩
    cases hnone.symm.trans hip

/-- `sys_mkdir` and `sys_mknod` return 0 exactly if the path leads to a directory in which the name is new, and where
they return -1 every file is as before. -/
theorem mkdir_answers (h : Sound True none s 0 0) (hst : startAt s p path = some start)
    (htype : type = .dir ∨ type = .dev) (he : sysCreate s p (some path) type major minor = .ok (r, t)) :
    (r = 0 ∨ r = -1) ∧
    (r = 0 ↔ ∃ dp name, walk (file s.fs) true start (pathElems path) = some (dp, name) ∧
      lookupIn (file s.fs) dp name = none) ∧
    (r = -1 → file t.fs = file s.fs) := by
  have ha : ∀ i ∈ (0 : Multiset ℕ), file s.fs i ≠ none := fun i hi => absurd hi (Multiset.notMem_zero i)
  have hfree : type ≠ .free := by rcases htype with rfl | rfl <;> decide
  have hfile : type ≠ .file := by rcases htype with rfl | rfl <;> decide
  rw [← creates_new hfile]
  obtain ⟨⟨r', s₁⟩, hc, hrest⟩ := Outcome.bind_eq_ok.mp he
  obtain ⟨-, hcr⟩ := (h.beginOp.work.create_room h.beginOp.walkable ha h.tidy.fits hst hfree major minor).of_ok hc
  cases r' with
  | none =>
    have hsame := h.beginOp.work.create_none h.beginOp.walkable ha h.tidy.fits hst hfree hc
    cases hrest
    exact ⟨Or.inr rfl, iff_of_false (by decide) (hcr.answer.mp rfl), fun _ => hsame⟩
  | some ip =>
    obtain ⟨F', hw, -⟩ := hcr.work
    have hw' : Work s₁ F' _ _ (ip ::ₘ 0) (ip ::ₘ 0) := hw
    obtain ⟨u, hu, -⟩ := hw'.putFinish_ok (0 : ℤ)
    cases hu.symm.trans hrest
    exact ⟨Or.inl rfl, iff_of_true rfl (not_not.mp (mt hcr.answer.mpr (Option.some_ne_none ip))), by rintro ⟨⟩⟩

theorem mkdir_answers_root : ∃ t, sysMkdir (boot firstUser rootImage) firstUser (some pathA) = .ok (0, t) ∧
    walk (file (boot firstUser rootImage).fs) true ROOTINO (pathElems pathA) ≠ none := by
  have h : ((sysMkdir (boot firstUser rootImage) firstUser (some pathA)).toOption.map Prod.fst) = some 0 := by
    decide +kernel
  obtain ⟨⟨r, t⟩, ht, hr⟩ := Option.map_eq_some_iff.mp h
  cases hr
  have he : sysCreate (boot firstUser rootImage) firstUser (some pathA) .dir 0 0 = .ok (0, t) := by
    revert ht
    rw [sysMkdir]
    cases sysCreate (boot firstUser rootImage) firstUser (some pathA) .dir 0 0 with
    | ok q => exact fun hq => congrArg _ (Option.some.inj hq)
    | error e => exact fun hq => by cases hq
  obtain ⟨dp, name, hwalk, -⟩ := (mkdir_answers (boot_sound (rootImage_tree True)) rfl (Or.inl rfl) he).2.1.mp rfl
  refine ⟨t, he, ?_⟩
  rw [hwalk]
  exact Option.some_ne_none _

end Xv6.SysFile
