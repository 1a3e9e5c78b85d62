import Xv6.ReadWrite
import Xv6.SlotTable

/-!
A directory as a map from names of at most `DIRSIZ` bytes to inode numbers.
-/

namespace Xv6.Fs

open Contract Transition
open Function (update update_self update_of_ne)

def unused (de : Dirent) : Bool := de.inum = 0

def keyOf (de : Dirent) : List UInt8 := chars DIRSIZ de.name

def binding (es : List Dirent) (key : List UInt8) : Option (ℕ × ℕ) :=
  (SlotTable.find unused keyOf es key).map fun r => (r.1 * sizeofDirent, r.2.inum)

def dirMap (fs : State) (dp : ℕ) : List UInt8 → Option (ℕ × ℕ) := binding (entriesOf (contents fs dp))

def nextOffset (fs : State) (dp : ℕ) : ℕ := SlotTable.slot unused (entriesOf (contents fs dp)) * sizeofDirent

def clearEntry (fs : State) (dp off : ℕ) : Outcome State := do
  let (r, fs) ← writei fs dp Dirent.empty.bytes off
  if r = some sizeofDirent then .ok fs else .error "unlink: writei"

structure Readable (fs : State) (dp : ℕ) : Prop where
  inv : Inv fs
  valid : fs.valid dp = true
  dir : (fs.inode dp).type = .dir
  whole : (contents fs dp).length % sizeofDirent = 0

structure Directory (fs : State) (dp : ℕ) : Prop extends Readable fs dp where
  ref : 0 < fs.ref dp
  distinct : SlotTable.Distinct unused keyOf (entriesOf (contents fs dp))

variable {fs fs' : State} {dp off i k inum : ℕ} {name : List UInt8} {es : List Dirent}

theorem hit_eq (name : List UInt8) : hit name = SlotTable.usedAs unused keyOf (chars DIRSIZ name) := by
  funext de
  rw [Bool.eq_iff_iff, SlotTable.usedAs_iff, keyOf, eq_comm (a := chars DIRSIZ de.name), ← strncmp_eq_zero]
  simp only [unused, decide_eq_false_iff_not]
  exact decide_eq_true_iff

theorem binding_eq_none : binding es (chars DIRSIZ name) = none ↔ ∀ de ∈ es, hit name de = false := by
  rw [binding, Option.map_eq_none_iff, SlotTable.find_eq_none, hit_eq]
  apply forall₂_congr
  intro de _
  rw [← Bool.not_eq_true (SlotTable.usedAs ..), SlotTable.usedAs_iff, not_and]

theorem map_update {κ β γ : Type} [DecidableEq κ] (f : κ → Option β) (g : β → γ) (k : κ) (v : Option β) :
    (fun x => (update f k v x).map g) = update (fun x => (f x).map g) k (v.map g) := by
  funext x
  by_cases hx : x = k
  · subst hx
    rw [update_self, update_self]
  · rw [update_of_ne hx, update_of_ne hx]

variable {de : Dirent} {key : List UInt8}

theorem binding_insert (h : SlotTable.Distinct unused keyOf es) (h0 : de.inum ≠ 0)
    (hno : binding es (keyOf de) = none) : binding (SlotTable.insert unused es de) =
      update (binding es) (keyOf de) (some (SlotTable.slot unused es * sizeofDirent, de.inum)) := by
  rw [binding, Option.map_eq_none_iff] at hno
  have hfind := SlotTable.find_insert h (by simpa [unused] using h0) hno
  funext key
  rw [binding, hfind]
  exact congrFun (map_update ..) key

theorem binding_clear (h : SlotTable.Distinct unused keyOf es) {q : ℕ}
    (hfind : SlotTable.find unused keyOf es key = some (q, de)) :
    binding (es.set q Dirent.empty) = update (binding es) key none := by
  have herase := SlotTable.find_erase h (b := Dirent.empty) rfl hfind
  funext key'
  rw [binding, herase]
  exact congrFun (map_update ..) key'

namespace Readable

theorem length_eq (h : Readable fs dp) : (contents fs dp).length = (fs.inode dp).size := by
  rw [length_contents, cur_of_valid h.valid]

theorem scan_eq (h : Readable fs dp) (msg : String) (p : Dirent → Bool) :
    scan fs dp msg p (offsets (fs.inode dp).size) = .ok (((entriesOf (contents fs dp)).findIdx? p).bind
      (fun q => (entriesOf (contents fs dp))[q]?.map fun de => (q * sizeofDirent, de)), fs) := by
  have hs := scan_spec h.inv h.valid h.dir msg p 0
  rw [List.drop_zero] at hs
  cases he : scan fs dp msg p (offsets (fs.inode dp).size) with
  | error e => exact absurd h.whole (hs.of_error he).2
  | ok r =>
    obtain ⟨r, fs1⟩ := r
    obtain ⟨rfl, hsome, hnone⟩ := hs.of_ok he
    cases r with
    | none =>
      have hno : (entriesOf (contents fs1 dp)).findIdx? p = none := by
        rw [List.findIdx?_eq_none_iff]
        intro de hde
        obtain ⟨q, hq⟩ := List.mem_iff_getElem?.mp hde
        exact (hnone rfl).2 q (Nat.zero_le q) de hq
      rw [hno, Option.bind_none]
    | some r =>
      obtain ⟨off, de⟩ := r
      obtain ⟨q, rfl, hq⟩ := hsome off de rfl
      rw [findIdx?_of_firstAt hq, Option.bind_some, hq.get, Option.map_some]

theorem dirlookup_missing (h : Readable fs dp) (hno : dirMap fs dp (chars DIRSIZ name) = none) :
    dirlookup fs dp name = .ok (none, fs) := by
  have hfind : (entriesOf (contents fs dp)).findIdx? (hit name) = none := by
    rw [List.findIdx?_eq_none_iff]
    exact binding_eq_none.mp hno
  rw [dirlookup, if_neg (not_not.mpr h.dir)]
  have hs := h.scan_eq "dirlookup read" (hit name)
  rw [hfind, Option.bind_none] at hs
  exact congrArg (· >>= _) hs

theorem dirlookup_found (h : Readable fs dp) (hb : dirMap fs dp (chars DIRSIZ name) = some (off, i)) :
    dirlookup fs dp name = (fun fs' => (some (off, i), fs')) <$> iget fs i := by
  simp only [dirMap, binding, SlotTable.find, Option.map_eq_some_iff, Option.bind_eq_some_iff, Prod.mk.injEq] at hb
  obtain ⟨-, ⟨q, hq, de, hde, rfl⟩, rfl, rfl⟩ := hb
  rw [← hit_eq] at hq
  have hs := h.scan_eq "dirlookup read" (hit name)
  rw [hq, Option.bind_some, hde, Option.map_some] at hs
  rw [dirlookup, if_neg (not_not.mpr h.dir)]
  exact congrArg (· >>= _) hs

theorem emptySlot_eq (h : Readable fs dp) : emptySlot fs dp = .ok (nextOffset fs dp, fs) := by
  have hs : scan fs dp "dirlink read" (fun de => decide (de.inum = 0)) (offsets (fs.inode dp).size) = _ :=
    h.scan_eq "dirlink read" unused
  have hlen : (offsets (fs.inode dp).size).length = (entriesOf (contents fs dp)).length := by
    have h1 := h.length_eq
    have h2 := h.whole
    simp only [offsets, List.length_map, List.length_range, length_entriesOf, sizeofDirent, DIRSIZ] at *
    omega
  rw [emptySlot]
  dsimp only
  rw [hs, Outcome.ok_bind, nextOffset, SlotTable.slot, hlen]
  cases hq : (entriesOf (contents fs dp)).findIdx? unused with
  | none => rfl
  | some q =>
    obtain ⟨hlt, -⟩ := List.findIdx?_eq_some_iff_getElem.mp hq
    rw [Option.bind_some, List.getElem?_eq_getElem hlt]
    rfl

end Readable

namespace Directory

theorem file_eq (h : Directory fs dp) : ∃ f, file fs dp = some f ∧ f.type = .dir ∧ f.bytes = contents fs dp :=
  ⟨_, file_of_valid h.valid (h.inv.typed_inode h.valid), h.dir, rfl⟩

theorem wrote (h : Directory fs dp) (hn : de.name.length = DIRSIZ) (hi : de.inum < 65536)
    (hk : k ≤ (entriesOf (contents fs dp)).length) (hw : Wrote fs dp (k * sizeofDirent) de.bytes fs')
    (hes : es = if k < (entriesOf (contents fs dp)).length then (entriesOf (contents fs dp)).set k de
      else entriesOf (contents fs dp) ++ [de]) (hd : SlotTable.Distinct unused keyOf es) :
    Directory fs' dp ∧ entriesOf (contents fs' dp) = es := by
  obtain ⟨f, hf, htype, hbytes⟩ := h.file_eq
  rw [length_entriesOf] at hk hes
  obtain ⟨bs, hf', hmod, he⟩ := hw.entries hf (by rw [hbytes]; exact h.whole) (by rw [hbytes]; exact hk) hn hi
  rw [hbytes, ← hes] at he
  have hbs : contents fs' dp = bs := (file_bytes hf').symm
  have hv : fs'.valid dp = true := by rw [hw.frame.valid, h.valid]
  have hdir := file_of_valid hv (hw.inv.typed_inode hv)
  rw [hf'] at hdir
  refine ⟨⟨⟨hw.inv, hv, ?_, ?_⟩, ?_, ?_⟩, ?_⟩
  · exact (congrArg File.type (Option.some.inj hdir)).symm.trans htype
  · rw [hbs]
    exact hmod
  · rw [hw.frame.ref]
    exact h.ref
  · rw [hbs, he]
    exact hd
  · rw [hbs, he]

theorem same (h : Directory fs dp) (hinv : Inv fs') (hf : file fs' dp = file fs dp) (hv : fs'.valid dp = true)
    (hr : 0 < fs'.ref dp) : Directory fs' dp ∧ contents fs' dp = contents fs dp := by
  obtain ⟨f, hfs, htype, hbytes⟩ := h.file_eq
  rw [hfs] at hf
  have hc : contents fs' dp = contents fs dp := (file_bytes hf).symm.trans hbytes
  have hdir := file_of_valid hv (hinv.typed_inode hv)
  rw [hf] at hdir
  refine ⟨⟨⟨hinv, hv, ?_, ?_⟩, hr, ?_⟩, hc⟩
  · exact (congrArg File.type (Option.some.inj hdir)).symm.trans htype
  · rw [hc]
    exact h.whole
  · rw [hc]
    exact h.distinct

theorem got (h : Directory fs dp) (hg : Got fs i fs') : Directory fs' dp ∧ contents fs' dp = contents fs dp := by
  apply h.same hg.cached.inv (hg.cached.files dp)
  · by_cases hi : dp = i
    · subst hi
      rw [hg.keep h.ref, h.valid]
    · rw [hg.others dp hi, h.valid]
  · have hr := h.ref
    by_cases hi : dp = i
    · subst hi
      rw [hg.ref, update_self]
      omega
    · rw [hg.ref, update_of_ne hi]
      exact hr

theorem dirlink_missing (h : Directory fs dp) (hno : dirMap fs dp (chars DIRSIZ name) = none) (inum : ℕ) :
    dirlink fs dp name inum = (writei fs dp (Dirent.bytes ⟨inum % 65536, strncpy name DIRSIZ⟩) (nextOffset fs dp) >>=
      fun r => if r.1 = some sizeofDirent then .ok (true, r.2) else .error "dirlink") := by
  rw [dirlink, h.dirlookup_missing hno, Outcome.ok_bind]
  dsimp only
  rw [h.emptySlot_eq, Outcome.ok_bind]

theorem dirlink_self (h : Directory fs dp) (hb : dirMap fs dp (chars DIRSIZ name) = some (off, dp)) (inum : ℕ) :
    dirlink fs dp name inum = .error "dirlink sleeps on its own lock" := by
  rw [dirlink, h.dirlookup_found hb, iget, if_pos h.ref]
  exact if_pos rfl

theorem dirlink_found (h : Directory fs dp) (hb : dirMap fs dp (chars DIRSIZ name) = some (off, i)) (hi : i ≠ dp)
    (hg : Got fs i fs') (he : iget fs i = .ok fs') (inum : ℕ) : ∃ fs'', dirlink fs dp name inum = .ok (false, fs'') ∧
      Unchanged fs fs'' ∧ fs''.valid dp = true := by
  obtain ⟨fs'', hput, hun, hval⟩ := iget_iput hg
  refine ⟨fs'', ?_, hun, (hval dp (Ne.symm hi)).trans h.valid⟩
  rw [dirlink, h.dirlookup_found hb, he]
  exact (if_neg hi).trans (by rw [hput]; rfl)

theorem wrote_of_ok (h : Directory fs dp) {bs : List UInt8} {r : Option ℕ × State} {n : ℕ}
    (he : writei fs dp bs off = .ok r) (hr : r.1 = some n) : Wrote fs dp off bs r.2 := by
  rcases (writei_spec h.inv h.valid (by rw [h.dir]; exact FType.noConfusion) bs off).of_ok he with ⟨hn, -⟩ | ⟨-, -, hw⟩
  · rw [hn] at hr
    cases hr
  · exact hw

theorem added (h : Directory fs dp) (hno : dirMap fs dp (chars DIRSIZ name) = none) (h0 : 0 < inum)
    (hlt : inum < 65536)
    (hw : Wrote fs dp (nextOffset fs dp) (Dirent.bytes ⟨inum % 65536, strncpy name DIRSIZ⟩) fs') :
    Directory fs' dp ∧ dirMap fs' dp =
      update (dirMap fs dp) (chars DIRSIZ name) (some (nextOffset fs dp, inum)) := by
  rw [Nat.mod_eq_of_lt hlt] at hw
  set de : Dirent := ⟨inum, strncpy name DIRSIZ⟩ with hde
  have hkey : keyOf de = chars DIRSIZ name := chars_strncpy name DIRSIZ
  rw [← hkey] at hno ⊢
  have hfind := Option.map_eq_none_iff.mp hno
  obtain ⟨hd, he⟩ := h.wrote (length_strncpy name DIRSIZ) hlt SlotTable.slot_le hw (SlotTable.insert_eq _ de)
    (h.distinct.insert hfind)
  refine ⟨hd, ?_⟩
  rw [dirMap, he]
  exact binding_insert h.distinct h0.ne' hno

theorem cleared (h : Directory fs dp) (hb : dirMap fs dp key = some (off, i))
    (hw : Wrote fs dp off Dirent.empty.bytes fs') :
    Directory fs' dp ∧ dirMap fs' dp = update (dirMap fs dp) key none := by
  obtain ⟨⟨q, de⟩, hfind, he⟩ := Option.map_eq_some_iff.mp hb
  cases he
  obtain ⟨hget, -⟩ := SlotTable.find_sound hfind
  obtain ⟨hq, -⟩ := List.getElem?_eq_some_iff.mp hget
  obtain ⟨hd, hes⟩ := h.wrote rfl (by decide) hq.le hw (if_pos hq).symm (h.distinct.erase rfl)
  refine ⟨hd, ?_⟩
  rw [dirMap, hes]
  exact binding_clear h.distinct hfind

end Directory

inductive DirCall where
  | link (name : List UInt8) (inum : ℕ)
  | unlink (name : List UInt8)

def dirCall (dp : ℕ) (fs : State) : DirCall → Option (Outcome State)
  | .link name inum => if 0 < inum ∧ inum < 65536 then some ((·.2) <$> dirlink fs dp name inum) else none
  | .unlink name => some do
      let (r, fs) ← dirlookup fs dp name
      match r with
      | none => .ok fs
      | some (off, _) => clearEntry fs dp off

namespace Directory

theorem link (h : Directory fs dp) (h0 : 0 < inum) (hlt : inum < 65536) {b : Bool}
    (he : dirlink fs dp name inum = .ok (b, fs')) : Directory fs' dp := by
  cases hb : dirMap fs dp (chars DIRSIZ name) with
  | none =>
    rw [h.dirlink_missing hb] at he
    cases hx : writei fs dp (Dirent.bytes ⟨inum % 65536, strncpy name DIRSIZ⟩) (nextOffset fs dp) with
    | error e =>
      rw [hx] at he
      cases he
    | ok r =>
      rw [hx, Outcome.ok_bind] at he
      split_ifs at he with hr
      cases he
      exact (h.added hb h0 hlt (h.wrote_of_ok hx hr)).1
  | some r =>
    obtain ⟨off, i⟩ := r
    by_cases hi : i = dp
    · subst hi
      rw [h.dirlink_self hb] at he
      cases he
    · cases hg : iget fs i with
      | error e =>
        rw [dirlink, h.dirlookup_found hb, hg] at he
        cases he
      | ok fs1 =>
        obtain ⟨fs2, hl, hun, hv⟩ := h.dirlink_found hb hi ((iget_got h.inv i).of_ok hg) hg inum
        rw [hl] at he
        cases he
        exact (h.same hun.inv (hun.files dp) hv (by rw [hun.ref]; exact h.ref)).1

theorem unlink (h : Directory fs dp) (he : dirCall dp fs (.unlink name) = some (.ok fs')) : Directory fs' dp := by
  have he' := Option.some.inj he
  cases hb : dirMap fs dp (chars DIRSIZ name) with
  | none =>
    rw [h.dirlookup_missing hb] at he'
    cases he'
    exact h
  | some r =>
    obtain ⟨off, i⟩ := r
    cases hg : iget fs i with
    | error e =>
      rw [h.dirlookup_found hb, hg] at he'
      cases he'
    | ok fs1 =>
      rw [h.dirlookup_found hb, hg] at he'
      have hclear : clearEntry fs1 dp off = .ok fs' := he'
      obtain ⟨h1, hc⟩ := h.got ((iget_got h.inv i).of_ok hg)
      rw [dirMap, ← hc] at hb
      rw [clearEntry] at hclear
      cases hx : writei fs1 dp Dirent.empty.bytes off with
      | error e =>
        rw [hx] at hclear
        cases hclear
      | ok r =>
        rw [hx, Outcome.ok_bind] at hclear
        dsimp only at hclear
        split_ifs at hclear with hr
        cases hclear
        exact (h1.cleared hb (h1.wrote_of_ok hx hr)).1

theorem step {c : DirCall} (h : Directory fs dp) (hs : Steps (dirCall dp) fs c fs') : Directory fs' dp := by
  cases c with
  | link name inum =>
    simp only [Steps, dirCall] at hs
    split_ifs at hs with hi
    cases hx : dirlink fs dp name inum with
    | error e =>
      rw [hx] at hs
      cases hs
    | ok r =>
      rw [hx] at hs
      cases hs
      exact h.link hi.1 hi.2 hx
  | unlink name => exact h.unlink hs

end Directory

theorem dirRun {cs : List DirCall} (h : Directory fs dp) (hr : Run (Steps
    (dirCall dp)) fs cs fs') : Directory fs' dp := by
  induction hr with
  | nil fs => exact h
  | cons hs _ ih => exact ih (h.step hs)

def canGet (fs : State) (i : ℕ) : Prop := 0 < fs.ref i ∨ (cached fs).length < NINODE

def roomForEntry (fs : State) (dp : ℕ) : Prop :=
  nextOffset fs dp + sizeofDirent ≤ MAXFILE * BSIZE ∧ enough fs dp (nextOffset fs dp) sizeofDirent

theorem iget_ok (h : Inv fs) (hc : canGet fs i) : ∃ fs', iget fs i = .ok fs' ∧ Got fs i fs' := by
  have hok : ∃ fs', iget fs i = .ok fs' := by
    rw [iget]
    split_ifs with h1 h2
    · exact ⟨_, rfl⟩
    · rcases hc with hc | hc
      · exact absurd hc h1
      · omega
    · exact ⟨_, rfl⟩
  obtain ⟨fs', he⟩ := hok
  exact ⟨fs', he, (iget_got h i).of_ok he⟩

structure MapCalls (fs : State) (dp : ℕ) (name : List UInt8) (inum : ℕ) : Prop where
  found : ∀ off i, dirMap fs dp (chars DIRSIZ name) = some (off, i) → canGet fs i →
    ∃ fs', dirlookup fs dp name = .ok (some (off, i), fs') ∧ Got fs i fs'
  missing : dirMap fs dp (chars DIRSIZ name) = none → dirlookup fs dp name = .ok (none, fs)
  refused : ∀ off i, dirMap fs dp (chars DIRSIZ name) = some (off, i) → canGet fs i →
    ∃ fs', dirlink fs dp name inum = .ok (false, fs') ∧ Unchanged fs fs'
  added : dirMap fs dp (chars DIRSIZ name) = none → roomForEntry fs dp →
    ∃ fs', dirlink fs dp name inum = .ok (true, fs') ∧
      dirMap fs' dp = update (dirMap fs dp) (chars DIRSIZ name) (some (nextOffset fs dp, inum)) ∧
      (cur fs' dp).size = max (cur fs dp).size (nextOffset fs dp + sizeofDirent) ∧ ∀ j, j ≠ dp → file fs' j = file fs j
  cleared : ∀ off i, dirMap fs dp (chars DIRSIZ name) = some (off, i) →
    ∃ fs', clearEntry fs dp off = .ok fs' ∧ dirMap fs' dp = update (dirMap fs dp) (chars DIRSIZ name) none ∧
      (cur fs' dp).size = (cur fs dp).size ∧ ∀ j, j ≠ dp → file fs' j = file fs j

namespace Directory

theorem write_room (h : Directory fs dp) {d : Dirent} (hn : d.name.length = DIRSIZ) (hoff : off ≤ (fs.inode dp).size)
    (hmax : off + sizeofDirent ≤ MAXFILE * BSIZE) (hroom : enough fs dp off sizeofDirent) :
    ∃ fs', writei fs dp d.bytes off = .ok (some sizeofDirent, fs') ∧ Wrote fs dp off d.bytes fs' ∧
      (cur fs' dp).size = max (cur fs dp).size (off + sizeofDirent) := by
  have hlen := Dirent.length_bytes hn
  have h32 : MAXFILE * BSIZE = 71680 := rfl
  have hno : ¬Refused (fs.inode dp).size off d.bytes.length := by
    rw [hlen, Refused]
    omega
  rw [← hlen] at hroom ⊢
  obtain ⟨fs', he, hw, -⟩ := writei_room h.inv h.valid (by rw [h.dir]; exact FType.noConfusion) hno hroom
  exact ⟨fs', he, hw, (hw.contents_eq h.inv h.valid hoff).2⟩

theorem offset_le (h : Directory fs dp) {q : ℕ} (hq : q ≤ (entriesOf (contents fs dp)).length) :
    q * sizeofDirent ≤ (fs.inode dp).size := by
  rw [length_entriesOf] at hq
  rw [← h.length_eq]
  exact (Nat.mul_le_mul_right _ hq).trans (Nat.div_mul_le_self _ _)

theorem link_added (h : Directory fs dp) (h0 : 0 < inum) (hlt : inum < 65536)
    (hno : dirMap fs dp (chars DIRSIZ name) = none) (hroom : roomForEntry fs dp) :
    ∃ fs', dirlink fs dp name inum = .ok (true, fs') ∧
      dirMap fs' dp = update (dirMap fs dp) (chars DIRSIZ name) (some (nextOffset fs dp, inum)) ∧
      (cur fs' dp).size = max (cur fs dp).size (nextOffset fs dp + sizeofDirent) ∧ ∀ j, j ≠ dp →
        file fs' j = file fs j := by
  have hle : nextOffset fs dp ≤ (fs.inode dp).size := h.offset_le SlotTable.slot_le
  have hname : (strncpy name DIRSIZ).length = DIRSIZ := length_strncpy name DIRSIZ
  obtain ⟨fs', he, hw, hsize⟩ := h.write_room (d := ⟨inum % 65536, strncpy name DIRSIZ⟩) hname hle hroom.1 hroom.2
  refine ⟨fs', ?_, (h.added hno h0 hlt hw).2, hsize, hw.others⟩
  rw [h.dirlink_missing hno, he, Outcome.ok_bind]
  exact if_pos rfl

theorem clear_entry (h : Directory fs dp) (hb : dirMap fs dp key = some (off, i)) :
    ∃ fs', clearEntry fs dp off = .ok fs' ∧ dirMap fs' dp = update (dirMap fs dp) key none ∧
      (cur fs' dp).size = (cur fs dp).size ∧ ∀ j, j ≠ dp → file fs' j = file fs j := by
  have hend : off + sizeofDirent ≤ (fs.inode dp).size := by
    obtain ⟨⟨q, de⟩, hfind, he⟩ := Option.map_eq_some_iff.mp hb
    cases he
    obtain ⟨hq, -⟩ := List.getElem?_eq_some_iff.mp (SlotTable.find_sound hfind).1
    have hle := h.offset_le hq
    rwa [Nat.succ_mul] at hle
  have hcur := cur_of_valid h.valid
  have hbound := h.inv.bound dp (by rw [hcur, h.dir]; exact FType.noConfusion)
  rw [hcur] at hbound
  have hroom : enough fs dp off sizeofDirent := by
    have hle : blocksOf (off + sizeofDirent) ≤ blocksOf (fs.inode dp).size := by
      simp only [blocksOf]
      exact Nat.div_le_div_right (by omega)
    rw [enough, max_eq_left hle]
    omega
  obtain ⟨fs', he, hw, hsize⟩ := h.write_room (d := Dirent.empty) rfl (by omega) (hend.trans hbound) hroom
  rw [hcur, max_eq_left hend] at hsize
  refine ⟨fs', ?_, (h.cleared hb hw).2, by rw [hsize, hcur], hw.others⟩
  rw [clearEntry, he, Outcome.ok_bind]
  exact if_pos rfl

theorem mapCalls (h : Directory fs dp) (h0 : 0 < inum) (hlt : inum < 65536)
    (hself : ∀ off, dirMap fs dp (chars DIRSIZ name) ≠ some (off, dp)) : MapCalls fs dp name inum where
  found off i hb hc := by
    obtain ⟨fs', he, hg⟩ := iget_ok h.inv hc
    refine ⟨fs', ?_, hg⟩
    rw [h.dirlookup_found hb, he]
    rfl
  missing := h.dirlookup_missing
  refused off i hb hc := by
    have hi : i ≠ dp := by
      rintro rfl
      exact hself off hb
    obtain ⟨fs1, he, hg⟩ := iget_ok h.inv hc
    obtain ⟨fs', hl, hun, -⟩ := h.dirlink_found hb hi hg he inum
    exact ⟨fs', hl, hun⟩
  added := h.link_added h0 hlt
  cleared _ _ := h.clear_entry

end Directory

/-- An empty directory and the calls made on it: the directory is a map, except that `dirlink` does not return when the
name is bound to the directory itself. -/
theorem directory_map {cs : List DirCall} (h : Inv fs) (hr : 0 < fs.ref dp) (hv : fs.valid dp = true)
    (hd : (fs.inode dp).type = .dir) (hempty : contents fs dp = []) (hrun : Run (Steps (dirCall dp)) fs cs fs')
    (name : List UInt8) (h0 : 0 < inum) (hlt : inum < 65536) :
    MapCalls fs' dp name inum ↔ ∀ off, dirMap fs' dp (chars DIRSIZ name) ≠ some (off, dp) := by
  have hdir : Directory fs' dp := by
    apply dirRun _ hrun
    refine ⟨⟨h, hv, hd, ?_⟩, hr, ?_⟩
    · rw [hempty]
      rfl
    · rw [hempty]
      exact SlotTable.distinct_nil
  constructor
  · intro hm off hb
    obtain ⟨fs'', he, -⟩ := hm.refused off dp hb (Or.inl hdir.ref)
    rw [hdir.dirlink_self hb] at he
    cases he
  · exact hdir.mapCalls h0 hlt

def twoLinks : List DirCall := [.link [46] 1, .link [120] 5]

theorem blankImage_links : ∃ fs fs', Inv fs ∧ 0 < fs.ref 1 ∧ fs.valid 1 = true ∧ (fs.inode 1).type = .dir ∧
    contents fs 1 = [] ∧ Run (Steps (dirCall 1)) fs twoLinks fs' ∧ 0 < fs'.ref 1 ∧
    dirMap fs' 1 [46] = some (0, 1) ∧ dirMap fs' 1 [120] = some (16, 5) := by
  have h : (exec fsCall blankImage [.ialloc .dir, .setAttr 1 0 0 1]).map (fun fs => decide (0 < fs.ref 1 ∧
      fs.valid 1 = true ∧ (fs.inode 1).type = .dir ∧ contents fs 1 = [] ∧
      (exec (dirCall 1) fs twoLinks).map (fun fs' => decide (0 < fs'.ref 1 ∧ dirMap fs' 1 [46] = some (0, 1) ∧
        dirMap fs' 1 [120] = some (16, 5))) = some true)) = some true := by
    decide +kernel
  obtain ⟨fs, hfs, hd⟩ := Option.map_eq_some_iff.mp h
  obtain ⟨hr, hv, ht, hc, hx⟩ := of_decide_eq_true hd
  obtain ⟨fs', hfs', hd'⟩ := Option.map_eq_some_iff.mp hx
  obtain ⟨hr', h1, h2⟩ := of_decide_eq_true hd'
  exact ⟨fs, fs', fsRun_inv blankImage_wellFormed.inv (run_of_exec hfs), hr, hv, ht, hc, run_of_exec hfs', hr', h1, h2⟩

theorem directory_map_two : ∃ fs, dirMap fs 1 [120] = some (16, 5) ∧ MapCalls fs 1 [120] 7 := by
  obtain ⟨fs, fs', h, hr, hv, ht, hc, hrun, -, -, hx⟩ := blankImage_links
  refine ⟨fs', hx, (directory_map h hr hv ht hc hrun [120] (by decide) (by decide)).mpr ?_⟩
  intro off hb
  cases hx.symm.trans hb

/-- `dirlink` of "." does not return. -/
theorem directory_self : ¬∀ (fs fs' : State) (dp : ℕ) (cs : List DirCall) (name : List UInt8) (inum : ℕ), Inv fs →
    0 < fs.ref dp → fs.valid dp = true → (fs.inode dp).type = .dir → contents fs dp = [] →
    Run (Steps (dirCall dp)) fs cs fs' → 0 < inum → inum < 65536 → MapCalls fs' dp name inum := by
  intro hall
  obtain ⟨fs, fs', h, hr, hv, ht, hc, hrun, hr', hb, -⟩ := blankImage_links
  have hdir : Directory fs' 1 := dirRun ⟨⟨h, hv, ht, by rw [hc]; rfl⟩,
      hr, by rw [hc]; exact SlotTable.distinct_nil⟩ hrun
  obtain ⟨fs'', he, -⟩ := (hall fs fs' 1 twoLinks [46] 7 h hr hv ht hc hrun (by decide) (by decide)).refused 0 1 hb
    (Or.inl hr')
  have hdot : dirMap fs' 1 (chars DIRSIZ [46]) = some (0, 1) := hb
  rw [hdir.dirlink_self hdot] at he
  cases he

end Xv6.Fs
