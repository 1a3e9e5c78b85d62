import Xv6.InodeLife

/-!
A directory as a list of entries, and `dirlookup` and `dirlink` on that list.
-/

namespace Xv6.Fs

open ByteMemory Contract Ownership

def entryAt (bs : List UInt8) (k : ℕ) : Dirent := Dirent.ofBytes ((bs.drop (k * sizeofDirent)).take sizeofDirent)

def entriesOf (bs : List UInt8) : List Dirent := (List.range (bs.length / sizeofDirent)).map (entryAt bs)

structure FirstAt (p : Dirent → Bool) (es : List Dirent) (k q : ℕ) (de : Dirent) : Prop where
  get : es[q]? = some de
  sat : p de = true
  le : k ≤ q
  before : ∀ x, k ≤ x → x < q → ∀ e, es[x]? = some e → p e = false

def dirPanics : List String := ["dirlookup read", "dirlink read", "dirlink", "dirlink sleeps on its own lock",
  "iget: no inodes", "balloc: out of blocks"]

variable {fs fs' : State} {dp k : ℕ} {name : List UInt8} {bs : List UInt8}

theorem length_entriesOf (bs : List UInt8) : (entriesOf bs).length = bs.length / sizeofDirent := by
  simp [entriesOf]

theorem getElem?_entriesOf (hk : k < bs.length / sizeofDirent) : (entriesOf bs)[k]? = some (entryAt bs k) := by
  simp [entriesOf, hk]

theorem entryAt_congr {cs : List UInt8} (h : ∀ q, k * sizeofDirent ≤ q → q < (k + 1) * sizeofDirent → bs[q]? = cs[q]?) :
    entryAt bs k = entryAt cs k := by
  have heq : (bs.drop (k * sizeofDirent)).take sizeofDirent = (cs.drop (k * sizeofDirent)).take sizeofDirent := by
    apply List.ext_getElem?
    intro q
    by_cases hq : q < sizeofDirent
    · rw [List.getElem?_take_of_lt hq, List.getElem?_take_of_lt hq, List.getElem?_drop, List.getElem?_drop]
      exact h _ (by omega) (by simp only [sizeofDirent, DIRSIZ] at *; omega)
    · rw [List.getElem?_eq_none (by simp; omega), List.getElem?_eq_none (by simp; omega)]
  rw [entryAt, entryAt, heq]

theorem getElem?_splice {off q : ℕ} {src : List UInt8} (h : off ≤ bs.length) :
    (splice bs off src)[q]? = if off ≤ q ∧ q < off + src.length then src[q - off]? else
      if q < max bs.length (off + src.length) then bs[q]? else none := by
  have hl : (bs.take off).length = off := by rw [List.length_take]; omega
  simp only [splice, List.append_assoc]
  by_cases h1 : q < off
  · rw [List.getElem?_append_left (by omega), List.getElem?_take_of_lt h1, if_neg (by omega), if_pos (by omega)]
  · rw [List.getElem?_append_right (by omega), hl]
    by_cases h2 : q < off + src.length
    · rw [List.getElem?_append_left (by omega), if_pos (by omega)]
    · rw [List.getElem?_append_right (by omega), List.getElem?_drop, if_neg (by omega),
        show off + src.length + (q - off - src.length) = q by omega]
      split_ifs with h3
      · rfl
      · rw [List.getElem?_eq_none (by omega)]

theorem entriesOf_splice {de : Dirent} (hbs : bs.length % sizeofDirent = 0) (hk : k ≤ bs.length / sizeofDirent)
    (hn : de.name.length = DIRSIZ) (hi : de.inum < 65536) :
    entriesOf (splice bs (k * sizeofDirent) de.bytes) =
      if k < bs.length / sizeofDirent then (entriesOf bs).set k de else entriesOf bs ++ [de] := by
  have hlen := Dirent.length_bytes hn
  have hoff : k * sizeofDirent ≤ bs.length := by
    simp only [sizeofDirent, DIRSIZ] at *
    omega
  have hself : entryAt (splice bs (k * sizeofDirent) de.bytes) k = de := by
    have hdrop : ((splice bs (k * sizeofDirent) de.bytes).drop (k * sizeofDirent)).take sizeofDirent = de.bytes := by
      rw [splice, List.append_assoc, List.drop_append_of_le_length (by simp; omega),
        List.drop_of_length_le (by simp), List.nil_append, ← hlen, List.take_left']
      rfl
    rw [entryAt, hdrop, Dirent.ofBytes_bytes hi]
  have hother : ∀ q, q ≠ k → q < bs.length / sizeofDirent → entryAt (splice bs (k * sizeofDirent) de.bytes) q =
      entryAt bs q := by
    intro q hq hlt
    apply entryAt_congr
    intro p hp1 hp2
    rw [getElem?_splice hoff, hlen, if_neg, if_pos]
    · simp only [sizeofDirent, DIRSIZ] at *
      omega
    · simp only [sizeofDirent, DIRSIZ] at *
      omega
  have hsize : (splice bs (k * sizeofDirent) de.bytes).length / sizeofDirent =
      if k < bs.length / sizeofDirent then bs.length / sizeofDirent else bs.length / sizeofDirent + 1 := by
    rw [length_splice hoff, hlen]
    split_ifs <;> simp only [sizeofDirent, DIRSIZ] at * <;> omega
  rw [entriesOf, hsize]
  split_ifs with hlt
  · apply List.ext_getElem
    · simp [length_entriesOf]
    · intro q h1 h2
      simp only [List.length_map, List.length_range] at h1
      by_cases hq : q = k
      · subst hq
        simp [hself]
      · rw [List.getElem_set_ne (by omega)]
        simp [entriesOf, hother q hq h1]
  · have hk' : k = bs.length / sizeofDirent := by omega
    rw [List.range_succ, List.map_append, List.map_singleton, ← hk', hself, entriesOf, ← hk']
    congr 1
    apply List.map_congr_left
    intro q hq
    have hq' := List.mem_range.mp hq
    exact hother q (by omega) (by omega)

section Scan

variable (h : Inv fs) (hv : fs.valid dp = true) (hd : (fs.inode dp).type = .dir)
include h hv hd

theorem readEntry_eq (hk : k * sizeofDirent < (fs.inode dp).size) (msg : String) :
    readEntry fs dp (k * sizeofDirent) msg =
      if k < (contents fs dp).length / sizeofDirent then .ok (entryAt (contents fs dp) k, fs) else .error msg := by
  have hlen : (contents fs dp).length = (fs.inode dp).size := by rw [length_contents, cur_of_valid hv]
  have hbound : (fs.inode dp).size ≤ MAXFILE * BSIZE := by
    have hb := h.bound dp (by rw [cur_of_valid hv, hd]; simp)
    rwa [cur_of_valid hv] at hb
  have hmax : MAXFILE * BSIZE = 71680 := rfl
  rw [readEntry, readi_eq h hv (by rw [hd]; simp) (by simp only [sizeofDirent, DIRSIZ] at *; omega), Outcome.ok_bind]
  dsimp only
  have hiff : ((List.drop (k * sizeofDirent) (contents fs dp)).take sizeofDirent).length = sizeofDirent ↔
      k < (contents fs dp).length / sizeofDirent := by
    rw [List.length_take, List.length_drop]
    simp only [sizeofDirent, DIRSIZ] at *
    omega
  by_cases hlt : k < (contents fs dp).length / sizeofDirent
  · rw [if_pos (hiff.mpr hlt), if_pos hlt, entryAt]
  · rw [if_neg (fun he => hlt (hiff.mp he)), if_neg hlt]

theorem scan_range (msg : String) (p : Dirent → Bool) (k0 n : ℕ) (hk : k0 ≤ k)
    (hn : ∀ q, k ≤ q → q < k + n → q * sizeofDirent < (fs.inode dp).size)
    (hb : ∀ q, k0 ≤ q → q < k → p (entryAt (contents fs dp) q) = false) :
    Sat (scan fs dp msg p ((List.range' k n).map (· * sizeofDirent)))
      (fun e => e = msg ∧ (contents fs dp).length % sizeofDirent ≠ 0) (fun r => r.2 = fs ∧
      (∀ off de, r.1 = some (off, de) → ∃ q, off = q * sizeofDirent ∧ FirstAt p (entriesOf (contents fs dp)) k0 q de) ∧
      (r.1 = none → (n ≠ 0 → k + n ≤ (contents fs dp).length / sizeofDirent) ∧
        ∀ q, k0 ≤ q → q < k + n → p (entryAt (contents fs dp) q) = false)) := by
  induction n generalizing k with
  | zero =>
    rw [List.range'_zero, List.map_nil, scan, sat_ok]
    exact ⟨rfl, by simp, fun _ => ⟨fun hne => absurd rfl hne, hb⟩⟩
  | succ n ih =>
    rw [List.range'_succ, List.map_cons, scan, readEntry_eq h hv hd (hn k le_rfl (by omega))]
    by_cases hlt : k < (contents fs dp).length / sizeofDirent
    · rw [if_pos hlt, Outcome.ok_bind]
      dsimp only
      refine sat_ite (fun hp => ?_) fun hp => ?_
      · rw [sat_ok]
        refine ⟨rfl, ?_, by simp⟩
        intro off de he
        cases he
        refine ⟨k, rfl, getElem?_entriesOf hlt, hp, hk, fun q hq hqk e he => ?_⟩
        rw [getElem?_entriesOf (by omega)] at he
        rw [← Option.some.inj he]
        exact hb q hq hqk
      · have hb' : ∀ q, k0 ≤ q → q < k + 1 → p (entryAt (contents fs dp) q) = false := by
          intro q hq hqk
          rcases Nat.lt_succ_iff_lt_or_eq.mp hqk with hqk | rfl
          · exact hb q hq hqk
          · simpa using hp
        refine (ih (by omega) (fun q hq hqn => hn q (by omega) (by omega)) hb').post fun r hr =>
            ⟨hr.1, hr.2.1, fun he => ?_⟩
        obtain ⟨h1, h2⟩ := hr.2.2 he
        exact ⟨fun _ => by omega, fun q hq hqk => h2 q hq (by omega)⟩
    · rw [if_neg hlt, Outcome.error_bind, sat_error]
      have hlen : (contents fs dp).length = (fs.inode dp).size := by rw [length_contents, cur_of_valid hv]
      have hk := hn k le_rfl (by omega)
      refine ⟨rfl, ?_⟩
      simp only [sizeofDirent, DIRSIZ] at *
      omega

theorem scan_spec (msg : String) (p : Dirent → Bool) (k : ℕ) :
    Sat (scan fs dp msg p ((offsets (fs.inode dp).size).drop k))
      (fun e => e = msg ∧ (contents fs dp).length % sizeofDirent ≠ 0) (fun r => r.2 = fs ∧
      (∀ off de, r.1 = some (off, de) → ∃ q, off = q * sizeofDirent ∧ FirstAt p (entriesOf (contents fs dp)) k q de) ∧
      (r.1 = none → (k * sizeofDirent ≤ (contents fs dp).length → (contents fs dp).length % sizeofDirent = 0) ∧
        ∀ q, k ≤ q → ∀ e, (entriesOf (contents fs dp))[q]? = some e → p e = false)) := by
  have hlen : (contents fs dp).length = (fs.inode dp).size := by rw [length_contents, cur_of_valid hv]
  set n := ((fs.inode dp).size + sizeofDirent - 1) / sizeofDirent with hn
  have hoffs : (offsets (fs.inode dp).size).drop k = (List.range' k (n - k)).map (· * sizeofDirent) := by
    rw [offsets, ← hn, ← List.map_drop, List.range_eq_range', List.drop_range', Nat.zero_add, Nat.mul_one]
  rw [hoffs]
  refine (scan_range h hv hd msg p k (n - k) le_rfl (fun q hq hqn => ?_) fun q hq hqk => by omega).post
    fun r hr => ⟨hr.1, hr.2.1, fun he => ?_⟩
  · simp only [sizeofDirent, DIRSIZ] at *
    omega
  · obtain ⟨h1, h2⟩ := hr.2.2 he
    refine ⟨fun hle => ?_, fun q hq e hqe => ?_⟩
    · by_cases h0 : n - k = 0
      · simp only [sizeofDirent, DIRSIZ] at *
        omega
      · have h3 := h1 h0
        simp only [sizeofDirent, DIRSIZ] at *
        omega
    · have hq' : q < (contents fs dp).length / sizeofDirent := by
        have hlt := (List.getElem?_eq_some_iff.mp hqe).1
        rwa [length_entriesOf] at hlt
      rw [getElem?_entriesOf hq'] at hqe
      rw [← Option.some.inj hqe]
      exact h2 q hq (by simp only [sizeofDirent, DIRSIZ] at *; omega)

end Scan

def hit (name : List UInt8) (de : Dirent) : Bool := de.inum ≠ 0 ∧ namecmp name de.name = 0

structure Got (fs : State) (i : ℕ) (fs' : State) : Prop where
  cached : Cached fs fs'
  ref : fs'.ref = Function.update fs.ref i (fs.ref i + 1)
  others : ∀ j, j ≠ i → fs'.valid j = fs.valid j
  valid : fs'.valid i = true → fs.valid i = true ∧ 0 < fs.ref i
  keep : 0 < fs.ref i → fs'.valid i = fs.valid i

theorem iget_got (h : Inv fs) (i : ℕ) : Sat (iget fs i) (· = "iget: no inodes") (Got fs i) :=
  (iget_spec h i).post fun _ hq => ⟨hq.1, hq.2.1, hq.2.2.1, hq.2.2.2.1, hq.2.2.2.2⟩

def Looked (fs : State) (dp : ℕ) (name : List UInt8) : Option (ℕ × ℕ) × State → Prop
  | (none, fs') => fs' = fs ∧ (contents fs dp).length % sizeofDirent = 0 ∧
      ∀ de ∈ entriesOf (contents fs dp), hit name de = false
  | (some (off, inum), fs') => (∃ q de, off = q * sizeofDirent ∧ de.inum = inum ∧
      FirstAt (hit name) (entriesOf (contents fs dp)) 0 q de) ∧ Got fs inum fs'

theorem dirlookup_spec (h : Inv fs) (hv : fs.valid dp = true) (hd : (fs.inode dp).type = .dir) (name : List UInt8) :
    Sat (dirlookup fs dp name) (· ∈ dirPanics) (Looked fs dp name) := by
  rw [dirlookup, if_neg (not_not.mpr hd)]
  have hscan := scan_spec h hv hd "dirlookup read" (hit name) 0
  rw [List.drop_zero] at hscan
  refine (hscan.mono (fun e he => by rw [he.1]; simp [dirPanics]) fun _ hq => hq).bind ?_
  rintro ⟨_ | ⟨off, de⟩, fs'⟩ ⟨rfl, hsome, hnone⟩
  · obtain ⟨h1, h2⟩ := hnone rfl
    refine ⟨rfl, h1 (by simp), fun de hde => ?_⟩
    obtain ⟨q, hq⟩ := List.mem_iff_getElem?.mp hde
    exact h2 q (Nat.zero_le q) de hq
  · obtain ⟨q, rfl, hq⟩ := hsome off de rfl
    refine ((iget_got h de.inum).mono (fun e he => by rw [he]; simp [dirPanics]) fun _ hg => hg).bind fun fs'' hg => ?_
    exact ⟨⟨q, de, rfl, rfl, hq⟩, hg⟩

def addEntry (es : List Dirent) (de : Dirent) : List Dirent :=
  match es.findIdx? (fun e => e.inum = 0) with
  | some k => es.set k de
  | none => es ++ [de]

theorem findIdx?_of_firstAt {p : Dirent → Bool} {es : List Dirent} {q : ℕ} {de : Dirent} (h : FirstAt p es 0 q de) :
    es.findIdx? p = some q := by
  obtain ⟨hlt, hget⟩ := List.getElem?_eq_some_iff.mp h.get
  rw [List.findIdx?_eq_some_iff_getElem]
  refine ⟨hlt, by rw [hget]; exact h.sat, fun j hj => ?_⟩
  rw [Bool.not_eq_true]
  exact h.before j (Nat.zero_le j) hj _ (List.getElem?_eq_getElem _)

structure Unchanged (fs fs' : State) : Prop where
  inv : Inv fs'
  files : ∀ j, file fs' j = file fs j
  sb : fs'.sb = fs.sb
  ref : fs'.ref = fs.ref

theorem iget_iput {i : ℕ} (hg : Got fs i fs') :
    ∃ fs'', iput fs' i = .ok fs'' ∧ Unchanged fs fs'' ∧ ∀ j, j ≠ i → fs''.valid j = fs.valid j := by
  obtain ⟨fs'', he, hinv, href, hsb, hval, hcase⟩ := iput_spec hg.cached.inv i
  have hlast : ¬ Last fs' i := by
    rintro ⟨hv, -, hr⟩
    rw [hg.ref, Function.update_self] at hr
    have := (hg.valid hv).2
    omega
  rcases hcase with ⟨hfiles, -, -⟩ | ⟨-, -, -, hl⟩
  · refine ⟨fs'', he, ⟨hinv, fun j => (hfiles j).trans (hg.cached.files j), hsb.trans hg.cached.sb, ?_⟩,
      fun j hj => (hval j hj).trans (hg.others j hj)⟩
    rw [href, hg.ref]
    simp
  · exact absurd hl hlast

structure Linked (fs : State) (dp : ℕ) (name : List UInt8) (inum : ℕ) (fs' : State) : Prop where
  inv : Inv fs'
  frame : Frame fs fs'
  others : ∀ j, j ≠ dp → file fs' j = file fs j
  absent : ∀ de ∈ entriesOf (contents fs dp), hit name de = false
  self : ∀ f, file fs dp = some f → ∃ bs, file fs' dp = some { f with bytes := bs } ∧
    bs.length % sizeofDirent = 0 ∧ entriesOf bs = addEntry (entriesOf f.bytes) ⟨inum % 65536, strncpy name DIRSIZ⟩

theorem emptySlot_spec (h : Inv fs) (hv : fs.valid dp = true) (hd : (fs.inode dp).type = .dir)
    (hmod : (contents fs dp).length % sizeofDirent = 0) :
    Sat (emptySlot fs dp) (· ∈ dirPanics) (fun r => r.2 = fs ∧ ∃ k, r.1 = k * sizeofDirent ∧
      k ≤ (contents fs dp).length / sizeofDirent ∧ ∀ de, (if k < (contents fs dp).length / sizeofDirent
        then (entriesOf (contents fs dp)).set k de else entriesOf (contents fs dp) ++ [de]) =
          addEntry (entriesOf (contents fs dp)) de) := by
  have hlen : (contents fs dp).length = (fs.inode dp).size := by rw [length_contents, cur_of_valid hv]
  rw [emptySlot]
  have hscan := scan_spec h hv hd "dirlink read" (fun de => decide (de.inum = 0)) 0
  rw [List.drop_zero] at hscan
  refine (hscan.mono (fun e he => by rw [he.1]; simp [dirPanics]) fun _ hq => hq).bind ?_
  rintro ⟨_ | ⟨off, de⟩, fs'⟩ ⟨rfl, hsome, hnone⟩
  · obtain ⟨-, h2⟩ := hnone rfl
    have hoffs : (offsets (fs'.inode dp).size).length = (contents fs' dp).length / sizeofDirent := by
      simp only [offsets, List.length_map, List.length_range, sizeofDirent, DIRSIZ] at *
      omega
    refine ⟨rfl, _, by rw [hoffs], le_rfl, fun de => ?_⟩
    have hfind : (entriesOf (contents fs' dp)).findIdx? (fun e => decide (e.inum = 0)) = none := by
      rw [List.findIdx?_eq_none_iff]
      intro e he
      obtain ⟨q, hq⟩ := List.mem_iff_getElem?.mp he
      exact h2 q (Nat.zero_le q) e hq
    rw [if_neg (lt_irrefl _), addEntry, hfind]
  · obtain ⟨q, rfl, hq⟩ := hsome off de rfl
    have hlt := (List.getElem?_eq_some_iff.mp hq.get).1
    rw [length_entriesOf] at hlt
    refine ⟨rfl, q, rfl, hlt.le, fun de' => ?_⟩
    rw [if_pos hlt, addEntry, findIdx?_of_firstAt hq]

theorem Wrote.entries {k : ℕ} {de : Dirent} {f : File} (hw : Wrote fs dp (k * sizeofDirent) de.bytes fs')
    (hf : file fs dp = some f) (hmod : f.bytes.length % sizeofDirent = 0) (hk : k ≤ f.bytes.length / sizeofDirent)
    (hn : de.name.length = DIRSIZ) (hi : de.inum < 65536) :
    ∃ bs, file fs' dp = some { f with bytes := bs } ∧ bs.length % sizeofDirent = 0 ∧ entriesOf bs =
      if k < f.bytes.length / sizeofDirent then (entriesOf f.bytes).set k de else entriesOf f.bytes ++ [de] := by
  refine ⟨_, hw.bytes f hf, ?_, entriesOf_splice hmod hk hn hi⟩
  have hoff : k * sizeofDirent ≤ f.bytes.length := by
    simp only [sizeofDirent, DIRSIZ] at *
    omega
  rw [length_splice hoff, Dirent.length_bytes hn]
  simp only [sizeofDirent, DIRSIZ] at *
  omega

theorem file_bytes {f : File} (hf : file fs dp = some f) : f.bytes = contents fs dp := by
  rw [file] at hf
  split_ifs at hf
  rw [← Option.some.inj hf]

theorem dirlink_spec (h : Inv fs) (hv : fs.valid dp = true) (hd : (fs.inode dp).type = .dir) (name : List UInt8)
    (inum : ℕ) : Sat (dirlink fs dp name inum) (· ∈ dirPanics) (fun r =>
      (r.1 = true ∧ Linked fs dp name inum r.2) ∨
      (r.1 = false ∧ Unchanged fs r.2 ∧ r.2.valid dp = true ∧ ∃ de ∈ entriesOf (contents fs dp), hit name de =
        true)) := by
  rw [dirlink]
  refine (dirlookup_spec h hv hd name).bind ?_
  rintro ⟨_ | ⟨off, next⟩, fs1⟩ hlook
  · obtain ⟨rfl, hmod, habs⟩ := hlook
    refine (emptySlot_spec h hv hd hmod).bind ?_
    rintro ⟨off, fs2⟩ ⟨rfl, k, hoff, hk, hadd⟩
    simp only at hoff
    subst hoff
    have hname := length_strncpy name DIRSIZ
    have hbytes : (Dirent.bytes ⟨inum % 65536, strncpy name DIRSIZ⟩).length = sizeofDirent := Dirent.length_bytes hname
    refine ((writei_spec h hv (by rw [hd]; simp) _ _).mono (fun e he => by rw [he]; simp [dirPanics]) fun _ hq =>
        hq).bind ?_
    rintro ⟨r, fs3⟩ (⟨rfl, -, -⟩ | ⟨rfl, -, hw⟩)
    · simp [dirPanics]
    · dsimp only
      rw [hbytes, if_pos rfl, sat_ok]
      refine Or.inl ⟨rfl, hw.inv, hw.frame, hw.others, habs, fun f hf => ?_⟩
      have hfb := file_bytes hf
      obtain ⟨bs, h1, h2, h3⟩ := hw.entries hf (by rw [hfb]; exact hmod) (by rw [hfb]; exact hk) hname
        (Nat.mod_lt _ (by norm_num))
      refine ⟨bs, h1, h2, ?_⟩
      rw [h3, hfb]
      exact hadd _
  · obtain ⟨⟨q, de, -, hde, hfirst⟩, hgot⟩ := hlook
    refine sat_ite (fun _ => by rw [sat_error]; simp [dirPanics]) fun hne => ?_
    obtain ⟨fs2, he, hun, hval⟩ := iget_iput hgot
    rw [he, Outcome.ok_bind, sat_ok]
    refine Or.inr ⟨rfl, hun, (hval dp (Ne.symm hne)).trans hv, de, List.mem_of_getElem? hfirst.get, hfirst.sat⟩

end Xv6.Fs
