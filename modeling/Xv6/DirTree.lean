import Xv6.DirEntries
import Xv6.LinkGraph
import Xv6.SysFile

/-!
The files of a disk as a tree of directories.
-/

namespace Xv6.Fs

open LinkGraph SysFile
open Function (update update_self update_of_ne)

abbrev Files := ℕ → Option File

def liveInums (es : List Dirent) : Multiset ℕ := ((es.filter fun de => de.inum ≠ 0).map Dirent.inum : List ℕ)

def parentOf (es : List Dirent) : ℕ := (es.getD 1 Dirent.empty).inum

def kidsOf (es : List Dirent) : Multiset ℕ := liveInums (es.drop 2)

def nodeOf (f : File) : Node ℕ :=
  if f.type = .dir then ⟨true, f.nlink.toInt, parentOf (entriesOf f.bytes), kidsOf (entriesOf f.bytes)⟩
  else ⟨false, f.nlink.toInt, 0, 0⟩

def graph (F : Files) (i : ℕ) : Option (Node ℕ) := (F i).map nodeOf

structure DirShape (d : ℕ) (es : List Dirent) : Prop where
  dots : ∃ a b rest, es = a :: b :: rest ∧ a.inum = d ∧ chars DIRSIZ a.name = dot ∧ b.inum ≠ 0 ∧
    chars DIRSIZ b.name = dotdot ∧ ∀ de ∈ rest, de.inum ≠ 0 → chars DIRSIZ de.name ≠ dot ∧ chars DIRSIZ de.name ≠ dotdot

structure Tidy (σ : Prop) (N : ℕ) (x : Option ℕ) (F : Files) : Prop where
  dirs : ∀ d f, F d = some f → f.type = .dir → f.bytes.length % sizeofDirent = 0 ∧ DirShape d (entriesOf f.bytes)
  tree : Tree (Finset.range N) ROOTINO x (graph F)
  anchored : σ → Anchored (graph F)
  zero : F 0 = none
  fits : N ≤ 65536

variable {σ : Prop} {N : ℕ} {x x' : Option ℕ} {F : Files} {i d dp ip : ℕ} {f f' : File} {es rest : List Dirent}
    {de : Dirent}

theorem graph_update (F : Files) (i : ℕ) (v : Option File) :
    graph (update F i v) = update (graph F) i (v.map nodeOf) := by
  funext j
  by_cases hj : j = i
  · subst hj
    simp [graph]
  · simp [graph, update_of_ne hj]

theorem graph_of_some (hf : F i = some f) : graph F i = some (nodeOf f) := by
  simp [graph, hf]

theorem nodeOf_dir (hd : f.type = .dir) :
    nodeOf f = ⟨true, f.nlink.toInt, parentOf (entriesOf f.bytes), kidsOf (entriesOf f.bytes)⟩ := if_pos hd

theorem nodeOf_plain (hd : f.type ≠ .dir) : nodeOf f = ⟨false, f.nlink.toInt, 0, 0⟩ := if_neg hd

@[simp] theorem nodeOf_nlink (f : File) : (nodeOf f).nlink = f.nlink.toInt := by
  unfold nodeOf
  split_ifs <;> rfl

theorem isDir_graph {n : Node ℕ} : IsDir (graph F) d n ↔ ∃ f, F d = some f ∧ f.type = .dir ∧ nodeOf f = n := by
  simp only [IsDir, graph, Option.map_eq_some_iff]
  constructor
  · rintro ⟨⟨f, hf, rfl⟩, hd⟩
    refine ⟨f, hf, ?_, rfl⟩
    by_contra hne
    rw [nodeOf_plain hne] at hd
    cases hd
  · rintro ⟨f, hf, hd, rfl⟩
    exact ⟨⟨f, hf, rfl⟩, by rw [nodeOf_dir hd]⟩

theorem liveInums_cons (de : Dirent) (es : List Dirent) :
    liveInums (de :: es) = (if de.inum ≠ 0 then {de.inum} else 0) + liveInums es := by
  by_cases h : de.inum = 0 <;> simp [liveInums, h]

variable {k : ℕ} {name bs : List UInt8} {a : Int16} {g : File}

theorem liveInums_set (hk : es[k]? = some de) (de' : Dirent) :
    liveInums (es.set k de') + (if de.inum ≠ 0 then {de.inum} else 0) =
      (if de'.inum ≠ 0 then {de'.inum} else 0) + liveInums es := by
  induction es generalizing k with
  | nil => simp at hk
  | cons e es ih =>
    cases k with
    | zero =>
      simp only [List.getElem?_cons_zero, Option.some.injEq] at hk
      subst hk
      rw [List.set_cons_zero, liveInums_cons, liveInums_cons]
      abel
    | succ k =>
      rw [List.getElem?_cons_succ] at hk
      rw [List.set_cons_succ, liveInums_cons, liveInums_cons, add_assoc, ih hk]
      abel

theorem liveInums_append (es es' : List Dirent) : liveInums (es ++ es') = liveInums es + liveInums es' := by
  simp [liveInums]

theorem mem_liveInums : i ∈ liveInums es ↔ ∃ de ∈ es, de.inum ≠ 0 ∧ de.inum = i := by
  simp only [liveInums, Multiset.mem_coe, List.mem_map, List.mem_filter, decide_eq_true_eq, and_assoc]

theorem liveInums_addEntry (h : de.inum ≠ 0) : liveInums (addEntry es de) = de.inum ::ₘ liveInums es := by
  unfold addEntry
  cases hf : es.findIdx? fun e => decide (e.inum = 0) with
  | none =>
    simp only [liveInums_append, liveInums_cons, if_pos h]
    rw [show liveInums [] = 0 from rfl, add_zero, add_comm, Multiset.singleton_add]
  | some k =>
    obtain ⟨hlt, hk, -⟩ := List.findIdx?_eq_some_iff_getElem.mp hf
    have hs := liveInums_set (List.getElem?_eq_getElem hlt) de
    simp only [decide_eq_true_eq] at hk
    simp only [hk, h, ne_eq, not_true_eq_false, not_false_eq_true, if_true, if_false, add_zero] at hs
    simp only [hs, Multiset.singleton_add]

theorem liveInums_clear (hk : es[k]? = some de) (h : de.inum ≠ 0) :
    liveInums (es.set k Dirent.empty) = (liveInums es).erase de.inum := by
  have hs := liveInums_set hk Dirent.empty
  simp only [Dirent.empty, h, ne_eq, not_true_eq_false, not_false_eq_true, if_true, if_false, zero_add] at hs
  rw [← hs, add_comm, Multiset.singleton_add, Multiset.erase_cons_head]
  rfl

theorem addEntry_cons {a : Dirent} (ha : a.inum ≠ 0) (es : List Dirent) (de : Dirent) :
    addEntry (a :: es) de = a :: addEntry es de := by
  unfold addEntry
  rw [List.findIdx?_cons]
  simp only [ha, decide_false, Bool.false_eq_true, if_false]
  cases es.findIdx? fun e => decide (e.inum = 0) <;> simp

theorem mem_addEntry {e : Dirent} (h : e ∈ addEntry es de) : e = de ∨ e ∈ es := by
  unfold addEntry at h
  split at h
  · rcases List.mem_or_eq_of_mem_set h with h | h
    · exact Or.inr h
    · exact Or.inl h
  · rcases List.mem_append.mp h with h | h
    · exact Or.inr h
    · exact Or.inl (List.mem_singleton.mp h)

namespace DirShape

theorem named (h : DirShape d es) (hde : de ∈ es) (h0 : de.inum ≠ 0) :
    de.inum = d ∨ de.inum = parentOf es ∨ de.inum ∈ kidsOf es := by
  obtain ⟨a, b, rest, rfl, ha, -⟩ := h.dots
  rcases List.mem_cons.mp hde with rfl | hde
  · exact Or.inl ha
  · rcases List.mem_cons.mp hde with rfl | hde
    · exact Or.inr (Or.inl rfl)
    · exact Or.inr (Or.inr (mem_liveInums.mpr ⟨de, hde, h0, rfl⟩))

theorem not_dots (h : DirShape d es) (hd : d ≠ 0) (hn : ∀ de ∈ es, hit name de = false) :
    chars DIRSIZ name ≠ dot ∧ chars DIRSIZ name ≠ dotdot := by
  obtain ⟨a, b, rest, rfl, ha, hda, hb, hdb, -⟩ := h.dots
  have h1 := hn a (by simp)
  have h2 := hn b (by simp)
  simp only [hit, ha, hd, hb, ne_eq, not_false_eq_true, true_and, decide_eq_false_iff_not, namecmp, strncmp_eq_zero]
      at h1 h2
  exact ⟨fun he => h1 (he.trans hda.symm), fun he => h2 (he.trans hdb.symm)⟩

theorem addEntry (h : DirShape d es) (hd : d ≠ 0) (hn : ∀ de ∈ es, hit name de = false) (inum : ℕ) :
    DirShape d (addEntry es ⟨inum, strncpy name DIRSIZ⟩) ∧
      parentOf (Fs.addEntry es ⟨inum, strncpy name DIRSIZ⟩) = parentOf es ∧
      (inum ≠ 0 → kidsOf (Fs.addEntry es ⟨inum, strncpy name DIRSIZ⟩) = inum ::ₘ kidsOf es) := by
  have hdots := h.not_dots hd hn
  obtain ⟨a, b, rest, rfl, ha, hda, hb, hdb, hrest⟩ := h.dots
  rw [addEntry_cons (by rw [ha]; exact hd), addEntry_cons hb]
  refine ⟨⟨a, b, _, rfl, ha, hda, hb, hdb, fun e he h0 => ?_⟩, rfl, fun h0 => liveInums_addEntry h0⟩
  rcases mem_addEntry he with rfl | he
  · simpa only [chars_strncpy] using hdots
  · exact hrest e he h0

theorem clear (h : DirShape d es) (hk : 2 ≤ k) (hget : es[k]? = some de) (h0 : de.inum ≠ 0) :
    DirShape d (es.set k Dirent.empty) ∧ parentOf (es.set k Dirent.empty) = parentOf es ∧
      kidsOf (es.set k Dirent.empty) = (kidsOf es).erase de.inum := by
  obtain ⟨a, b, rest, rfl, ha, hda, hb, hdb, hrest⟩ := h.dots
  obtain ⟨k, rfl⟩ : ∃ j, k = j + 2 := ⟨k - 2, by omega⟩
  simp only [List.getElem?_cons_succ] at hget
  simp only [List.set_cons_succ]
  refine ⟨⟨a, b, _, rfl, ha, hda, hb, hdb, fun e he h1 => ?_⟩, rfl, liveInums_clear hget h0⟩
  rcases List.mem_or_eq_of_mem_set he with he | rfl
  · exact hrest e he h1
  · exact absurd rfl h1

theorem two_le (h : DirShape d es) (hget : es[k]? = some de) (hh : hit name de = true)
    (h1 : namecmp name dot ≠ 0) (h2 : namecmp name dotdot ≠ 0) : 2 ≤ k := by
  obtain ⟨a, b, rest, rfl, ha, hda, hb, hdb, -⟩ := h.dots
  simp only [hit, decide_eq_true_eq, namecmp, strncmp_eq_zero] at hh
  rw [namecmp, ne_eq, strncmp_eq_zero] at h1 h2
  match k, hget with
  | 0, hget =>
    simp only [List.getElem?_cons_zero, Option.some.injEq] at hget
    subst hget
    exact absurd (hh.2.trans hda) h1
  | 1, hget =>
    simp only [List.getElem?_cons_succ, List.getElem?_cons_zero, Option.some.injEq] at hget
    subst hget
    exact absurd (hh.2.trans hdb) h2
  | k + 2, _ => omega

end DirShape
theorem toInt_add_of_bounds {a b : Int16} (hlo : -32768 ≤ a.toInt + b.toInt) (hhi : a.toInt + b.toInt < 32768) :
    (a + b).toInt = a.toInt + b.toInt := by
  rw [Int16.toInt_add]
  exact Int.bmod_eq_of_le hlo hhi

theorem toInt_add_one (h : a ≠ 32767) : (a + 1).toInt = a.toInt + 1 := by
  have hne : a.toInt ≠ 32767 := fun he => h (Int16.toInt_inj.mp he)
  have hlt : a.toInt < 32768 := a.toInt_lt
  have hle : -32768 ≤ a.toInt := a.le_toInt
  have hone : (1 : Int16).toInt = 1 := rfl
  rw [toInt_add_of_bounds, hone] <;> omega

theorem toInt_sub_one (h : 0 < a.toInt) : (a + -1).toInt = a.toInt - 1 := by
  have hlt : a.toInt < 32768 := a.toInt_lt
  have hone : (-1 : Int16).toInt = -1 := rfl
  rw [toInt_add_of_bounds, hone] <;> omega

namespace Tidy

theorem lt (h : Tidy σ N x F) (hf : F i = some f) : i < N := Finset.mem_range.mp (h.tree.mem (graph_of_some hf))

theorem ne_zero (h : Tidy σ N x F) (hf : F i = some f) : i ≠ 0 := by
  rintro rfl
  rw [h.zero] at hf
  cases hf

theorem isDir (hf : F d = some f) (hd : f.type = .dir) : IsDir (graph F) d (nodeOf f) :=
    isDir_graph.mpr ⟨f, hf, hd, rfl⟩

theorem live (hd : f.type = .dir) (hl : 0 < f.nlink.toInt) : (nodeOf f).Live :=
    ⟨by rw [nodeOf_dir hd], by rwa [nodeOf_nlink]⟩

theorem nlink_eq (h : Tidy σ N x F) (hf : F i = some f) :
    f.nlink.toInt = links (Finset.range N) (graph F) i + extra x i := by
  rw [← nodeOf_nlink, ← h.tree.counts i, graph_of_some hf, nlink]

theorem nlink_pos (h : Tidy σ N x F) (hf : F i = some f) (h0 : f.nlink ≠ 0) : 0 < f.nlink.toInt := by
  have hn := h.nlink_eq hf
  have hx := extra_nonneg x i
  have hz : f.nlink.toInt ≠ 0 := fun he => h0 (Int16.toInt_inj.mp he)
  omega

theorem set (h : Tidy σ N x F) {v : Option File} (hi : i ≠ 0)
    (hv : ∀ f, v = some f → f.type = .dir → f.bytes.length % sizeofDirent = 0 ∧ DirShape i (entriesOf f.bytes))
    (ht : Tree (Finset.range N) ROOTINO x' (update (graph F) i (v.map nodeOf)))
    (ha : σ → Anchored (update (graph F) i (v.map nodeOf))) : Tidy σ N x' (update F i v) := by
  refine ⟨fun d f hf hd => ?_, by rwa [graph_update], by rwa [graph_update], ?_, h.fits⟩
  · by_cases he : d = i
    · subst he
      rw [update_self] at hf
      exact hv f hf hd
    · rw [update_of_ne he] at hf
      exact h.dirs d f hf hd
  · rw [update_of_ne (Ne.symm hi)]
    exact h.zero

theorem shed (h : Tidy σ N x F) (hf : F i = some f) (h0 : f.nlink = 0) : Tidy σ N x (update F i none) := by
  have hn : (nodeOf f).nlink = 0 := by
    rw [nodeOf_nlink, h0]
    rfl
  apply h.set (h.ne_zero hf)
  · intro f hf
    cases hf
  · exact h.tree.shed (graph_of_some hf) hn
  · intro hσ
    exact (h.anchored hσ).shed (graph_of_some hf) hn

theorem plain (h : Tidy σ N x F) (h0 : i ≠ 0) (hN : i < N) (hold : ∀ f, F i = some f → f.type ≠ .dir)
    (hnew : f'.type ≠ .dir) (hn : f'.nlink.toInt + extra x i = nlink (graph F i) + extra x' i)
    (hx : ∀ j, j ≠ i → extra x' j = extra x j) :
    Tidy σ N x' (update F i (some f')) := by
  have hno (n : Node ℕ) : ¬ IsDir (graph F) i n := by
    intro hdir
    obtain ⟨g, hg, hd, -⟩ := isDir_graph.mp hdir
    exact hold g hg hd
  have hdir (n : Node ℕ) (hn : (some f').map nodeOf = some n) : n.dir = false := by
    rw [Option.map_some] at hn
    rw [← Option.some.inj hn, nodeOf_plain hnew]
  apply h.set h0
  · intro g hg hd
    cases hg
    exact absurd hd hnew
  · apply h.tree.plain (Finset.mem_range.mpr hN) hno hdir _ hx
    rwa [Option.map_some, nlink, nodeOf_nlink]
  · intro hσ
    exact (h.anchored hσ).plain hno hdir

theorem entries (h : Tidy σ N x F) (hf : F dp = some f) (hd : f.type = .dir) (hl : 0 < f.nlink.toInt)
    (hm : bs.length % sizeofDirent = 0) (hs : DirShape dp (entriesOf bs))
    (hp : parentOf (entriesOf bs) = parentOf (entriesOf f.bytes)) (hk : ∀ c g, F c = some g → g.type = .dir →
      (kidsOf (entriesOf bs)).count c = (kidsOf (entriesOf f.bytes)).count c)
    (hc : ∀ j, ((kidsOf (entriesOf f.bytes)).count j : ℤ) + extra x j = (kidsOf (entriesOf bs)).count j + extra x' j) :
    Tidy σ N x' (update F dp (some { f with bytes := bs })) := by
  apply h.set (h.ne_zero hf)
  · intro g hg _
    cases hg
    exact ⟨hm, hs⟩
  · have hn : nodeOf { f with bytes := bs } = { nodeOf f with kids := kidsOf (entriesOf bs) } := by
      rw [nodeOf_dir (f := { f with bytes := bs }) hd, nodeOf_dir hd, hp]
    rw [Option.map_some, hn]
    apply h.tree.entries (isDir hf hd) (live hd hl)
    · intro c m hcm
      obtain ⟨g, hg, hgd, -⟩ := isDir_graph.mp hcm
      rw [nodeOf_dir hd]
      exact hk c g hg hgd
    · intro j
      rw [nodeOf_dir hd]
      exact hc j
  · intro hσ
    exact (h.anchored hσ).live (live (f := { f with bytes := bs }) hd hl)

theorem enter (h : Tidy σ N (some ip) F) (hf : F dp = some f)
    (hd : f.type = .dir) (hl : 0 < f.nlink.toInt) (hg : F ip = some g) (hgd : g.type ≠ .dir)
    (hn : ∀ de ∈ entriesOf f.bytes, hit name de = false) (hm : bs.length % sizeofDirent = 0)
    (hbs : entriesOf bs = addEntry (entriesOf f.bytes) ⟨ip % 65536, strncpy name DIRSIZ⟩) :
    Tidy σ N none (update F dp (some { f with bytes := bs })) := by
  have hmod : ip % 65536 = ip := Nat.mod_eq_of_lt ((h.lt hg).trans_le h.fits)
  rw [hmod] at hbs
  obtain ⟨h1, h2, h3⟩ := ((h.dirs dp f hf hd).2.addEntry (h.ne_zero hf) hn ip)
  have hkids := h3 (h.ne_zero hg)
  rw [← hbs] at h1 h2 hkids
  apply h.entries hf hd hl hm h1 h2
  · intro c q hq hqd
    rw [hkids, Multiset.count_cons_of_ne]
    rintro rfl
    rw [hg] at hq
    exact hgd (Option.some.inj hq ▸ hqd)
  · intro j
    rw [hkids]
    by_cases hj : j = ip
    · subst hj
      simp [extra]
    · simp [extra, Multiset.count_cons_of_ne hj, Ne.symm hj]

theorem leave (h : Tidy σ N none F) (hf : F dp = some f) (hd : f.type = .dir)
    (hl : 0 < f.nlink.toInt) (hk : 2 ≤ k) (hget : (entriesOf f.bytes)[k]? = some de) (hi : de.inum = ip) (h0 : ip ≠ 0)
    (hg : F ip = some g) (hgd : g.type ≠ .dir) (hm : bs.length % sizeofDirent = 0)
    (hbs : entriesOf bs = (entriesOf f.bytes).set k Dirent.empty) :
    Tidy σ N (some ip) (update F dp (some { f with bytes := bs })) := by
  subst hi
  obtain ⟨h1, h2, h3⟩ := (h.dirs dp f hf hd).2.clear hk hget h0
  have hmem : de.inum ∈ kidsOf (entriesOf f.bytes) := by
    apply mem_liveInums.mpr
    refine ⟨de, ?_, h0, rfl⟩
    apply List.mem_of_getElem? (i := k - 2)
    rwa [List.getElem?_drop, show 2 + (k - 2) = k by omega]
  rw [← hbs] at h1 h2 h3
  apply h.entries hf hd hl hm h1 h2
  · intro c q hq hqd
    rw [h3, Multiset.count_erase_of_ne]
    rintro rfl
    rw [hg] at hq
    exact hgd (Option.some.inj hq ▸ hqd)
  · intro j
    rw [h3]
    by_cases hj : j = de.inum
    · subst hj
      have hpos := Multiset.count_pos.mpr hmem
      rw [Multiset.count_erase_self]
      simp only [extra, reduceCtorEq, if_false, if_true]
      omega
    · simp [extra, Multiset.count_erase_of_ne hj, Ne.symm hj]

theorem addDir {nl : Int16} (h : Tidy σ N none F) (hf : F dp = some f)
    (hd : f.type = .dir) (hl : 0 < f.nlink.toInt) (hi : F ip = none) (h0 : ip ≠ 0) (hN : ip < N)
    (hgd : g.type = .dir) (hgl : g.nlink = 1) (hgm : g.bytes.length % sizeofDirent = 0)
    (hge : entriesOf g.bytes = [⟨ip, strncpy dot DIRSIZ⟩, ⟨dp, strncpy dotdot DIRSIZ⟩])
    (hnl : nl.toInt = f.nlink.toInt + 1) (hn : ∀ de ∈ entriesOf f.bytes, hit name de = false)
    (hm : bs.length % sizeofDirent = 0)
    (hbs : entriesOf bs = addEntry (entriesOf f.bytes) ⟨ip % 65536, strncpy name DIRSIZ⟩) :
    Tidy σ N none (update (update F ip (some g)) dp (some { f with nlink := nl, bytes := bs })) := by
  rw [Nat.mod_eq_of_lt (hN.trans_le h.fits)] at hbs
  obtain ⟨h1, h2, h3⟩ := (h.dirs dp f hf hd).2.addEntry (h.ne_zero hf) hn ip
  rw [← hbs] at h1 h2 h3
  have hnode : nodeOf { f with nlink := nl, bytes := bs } =
      { nodeOf f with nlink := (nodeOf f).nlink + 1, kids := ip ::ₘ (nodeOf f).kids } := by
    rw [nodeOf_dir (f := { f with nlink := nl, bytes := bs }) hd, nodeOf_dir hd, h2, h3 h0, hnl]
  have hnew : nodeOf g = ⟨true, 1, dp, 0⟩ := by
    rw [nodeOf_dir hgd, hgl, hge]
    rfl
  have hshape : DirShape ip (entriesOf g.bytes) := by
    rw [hge]
    refine ⟨_, _, [], rfl, rfl, ?_, h.ne_zero hf, ?_, by simp⟩
    · rw [chars_strncpy]
      rfl
    · rw [chars_strncpy]
      rfl
  have hlive : (nodeOf { f with nlink := nl, bytes := bs }).Live := live (f := { f with nlink := nl, bytes := bs }) hd
      (by
    simp only
    omega)
  refine ⟨fun d q hq hqd => ?_, ?_, fun hσ => ?_, ?_, h.fits⟩
  · by_cases hdp : d = dp
    · subst hdp
      rw [update_self] at hq
      cases hq
      exact ⟨hm, h1⟩
    · rw [update_of_ne hdp] at hq
      by_cases hip : d = ip
      · subst hip
        rw [update_self] at hq
        cases hq
        exact ⟨hgm, hshape⟩
      · rw [update_of_ne hip] at hq
        exact h.dirs d q hq hqd
  · rw [graph_update, graph_update, Option.map_some, Option.map_some, hnode, hnew]
    apply h.tree.addDir (isDir hf hd) (live hd hl) _ (Finset.mem_range.mpr hN)
    rw [graph, hi]
    rfl
  · rw [graph_update, graph_update]
    apply Anchored.live _ hlive
    apply (h.anchored hσ).live
    rw [hnew]
    exact ⟨rfl, Int.one_pos⟩
  · rw [update_of_ne (Ne.symm (h.ne_zero hf)), update_of_ne (Ne.symm h0)]
    exact h.zero

theorem unlinkDir {nl ml : Int16} (h : Tidy σ N none F) (hf : F dp = some f)
    (hd : f.type = .dir) (hk : 2 ≤ k) (hget : (entriesOf f.bytes)[k]? = some de) (hi : de.inum = ip)
    (hg : F ip = some g) (hgd : g.type = .dir) (hempty : kidsOf (entriesOf g.bytes) = 0)
    (hnl : nl = f.nlink + -1) (hml : ml = g.nlink + -1) (hm : bs.length % sizeofDirent = 0)
    (hbs : entriesOf bs = (entriesOf f.bytes).set k Dirent.empty)
    (hfree : σ → ∀ d q, F d = some q → q.type = .dir → q.nlink = 0 → parentOf (entriesOf q.bytes) ≠ ip) :
    Tidy σ N none (update (update F ip (some { g with nlink := ml })) dp
      (some { f with nlink := nl, bytes := bs })) := by
  have h0 := h.ne_zero hg
  subst hi
  have hmem : de.inum ∈ (nodeOf f).kids := by
    rw [nodeOf_dir hd]
    apply mem_liveInums.mpr
    refine ⟨de, ?_, h0, rfl⟩
    apply List.mem_of_getElem? (i := k - 2)
    rwa [List.getElem?_drop, show 2 + (k - 2) = k by omega]
  have hkids : (nodeOf g).kids = 0 := by
    rw [nodeOf_dir hgd]
    exact hempty
  have htwo := Tree.two_le_nlink h.tree (isDir hf hd) hmem (isDir hg hgd) hkids
  have hone := Tree.nlink_of_empty h.tree (isDir hf hd) hmem (isDir hg hgd) hkids
  have hne := Tree.ne_of_empty (isDir hf hd) hmem (isDir hg hgd) hkids
  have htree := Tree.unlinkDir h.tree (isDir hf hd) hmem (isDir hg hgd) hkids
  obtain ⟨hpar, -, -⟩ := h.tree.only dp (nodeOf f) de.inum (nodeOf g) (isDir hf hd) hmem (isDir hg hgd)
  obtain ⟨h1, h2, h3⟩ := (h.dirs dp f hf hd).2.clear hk hget h0
  rw [← hbs] at h1 h2 h3
  simp only [nodeOf_nlink] at htwo hone
  have hnl' : nl.toInt = f.nlink.toInt - 1 := by rw [hnl, toInt_sub_one (by omega)]
  have hml' : ml.toInt = g.nlink.toInt - 1 := by rw [hml, toInt_sub_one (by omega)]
  have hnode : nodeOf { f with nlink := nl, bytes := bs } =
      { nodeOf f with nlink := (nodeOf f).nlink - 1, kids := (nodeOf f).kids.erase de.inum } := by
    rw [nodeOf_dir (f := { f with nlink := nl, bytes := bs }) hd, nodeOf_dir hd, h2, h3, hnl']
  have hnode' : nodeOf { g with nlink := ml } = { nodeOf g with nlink := (nodeOf g).nlink - 1 } := by
    rw [nodeOf_dir (f := { g with nlink := ml }) hgd, nodeOf_dir hgd, hml']
  have hlive : (nodeOf { f with nlink := nl, bytes := bs }).Live := live (f := { f with nlink := nl, bytes := bs }) hd
      (by
    simp only
    omega)
  refine ⟨fun d q hq hqd => ?_, ?_, fun hσ => ?_, ?_, h.fits⟩
  · by_cases hdp : d = dp
    · subst hdp
      rw [update_self] at hq
      cases hq
      exact ⟨hm, h1⟩
    · rw [update_of_ne hdp] at hq
      by_cases hip : d = de.inum
      · subst hip
        rw [update_self] at hq
        cases hq
        exact h.dirs _ g hg hgd
      · rw [update_of_ne hip] at hq
        exact h.dirs d q hq hqd
  · rw [graph_update, graph_update, Option.map_some, Option.map_some, hnode, hnode']
    exact htree
  · rw [graph_update, graph_update]
    apply Anchored.live _ hlive
    apply (h.anchored hσ).leave
    · rw [hnode', hpar]
      exact ⟨nodeOf f, graph_of_some hf, live hd (by omega)⟩
    · rw [hnode', hpar]
      exact hne.symm
    · intro d m hdm hm0
      obtain ⟨q, hq, hqd, rfl⟩ := isDir_graph.mp hdm
      rw [nodeOf_nlink] at hm0
      rw [nodeOf_dir hqd]
      apply hfree hσ d q hq hqd
      by_contra hq0
      exact hm0 (h.nlink_pos hq hq0)
  · rw [update_of_ne (Ne.symm (h.ne_zero hf)), update_of_ne (Ne.symm h0)]
    exact h.zero

theorem named (h : Tidy σ N x F) (hσ : σ) (hf : F d = some f) (hd : f.type = .dir) (hde : de ∈ entriesOf f.bytes)
    (h0 : de.inum ≠ 0) : F de.inum ≠ none := by
  have hsome {j : ℕ} {n : Node ℕ} (hj : graph F j = some n) : F j ≠ none := by
    intro he
    rw [graph, he] at hj
    cases hj
  rcases (h.dirs d f hf hd).2.named hde h0 with he | he | hk
  · rw [he, hf]
    rintro ⟨⟩
  · rw [he]
    by_cases hl : 0 < f.nlink.toInt
    · obtain ⟨m, hm, -⟩ := h.tree.live_parent (graph_of_some hf) (live hd hl)
      rw [nodeOf_dir hd] at hm
      exact hsome hm
    · obtain ⟨m, hm, -⟩ := h.anchored hσ d (nodeOf f) (isDir hf hd) (by rwa [nodeOf_nlink])
      rw [nodeOf_dir hd] at hm
      exact hsome hm
  · obtain ⟨m, hm, -⟩ := h.tree.pos_of_kid (isDir hf hd) (by rw [nodeOf_dir hd]; exact hk)
    exact hsome hm

end Tidy
end Xv6.Fs
