import Mathlib

/-!
Link counts of a tree of directories. A node is a directory, with its parent and the multiset of what it names, or
something that names nothing; `nlink` is the number of links it claims to have. A directory counts as long as it claims
links itself.
-/

namespace Xv6.LinkGraph

open Function (update update_self update_of_ne)

variable {ι : Type} [DecidableEq ι]

structure Node (ι : Type) where
  dir : Bool
  nlink : ℤ
  parent : ι
  kids : Multiset ι

def Node.Live (n : Node ι) : Prop := n.dir = true ∧ 0 < n.nlink

instance (n : Node ι) : Decidable n.Live := inferInstanceAs (Decidable (_ ∧ _))

def out (x : Option (Node ι)) (i : ι) : ℕ :=
  match x with
  | some n => if n.Live then (if n.parent = i then 1 else 0) + n.kids.count i else 0
  | none => 0

def links (V : Finset ι) (g : ι → Option (Node ι)) (i : ι) : ℕ := ∑ d ∈ V, out (g d) i

def nlink (x : Option (Node ι)) : ℤ :=
  match x with
  | some n => n.nlink
  | none => 0

def extra (x : Option ι) (i : ι) : ℤ := if x = some i then 1 else 0

def IsDir (g : ι → Option (Node ι)) (d : ι) (n : Node ι) : Prop := g d = some n ∧ n.dir = true

structure Tree (V : Finset ι) (root : ι) (x : Option ι) (g : ι → Option (Node ι)) : Prop where
  fin : ∀ i, i ∉ V → g i = none
  counts : ∀ i, nlink (g i) = links V g i + extra x i
  bare : ∀ d n, IsDir g d n → ¬ 0 < n.nlink → n.kids = 0
  home : ∀ d n, IsDir g d n → 0 < n.nlink → d ≠ root → ∃ m, IsDir g n.parent m ∧ d ∈ m.kids
  only : ∀ d n c m, IsDir g d n → c ∈ n.kids → IsDir g c m → m.parent = d ∧ n.kids.count c = 1 ∧ c ≠ root
  top : ∃ n, IsDir g root n ∧ 0 < n.nlink ∧ n.parent = root

def Anchored (g : ι → Option (Node ι)) : Prop :=
  ∀ d n, IsDir g d n → ¬ 0 < n.nlink → ∃ m, g n.parent = some m ∧ m.Live

variable {V : Finset ι} {root : ι} {x x' : Option ι} {g : ι → Option (Node ι)} {i d dp ip : ι} {n m : Node ι}

theorem links_update (hd : d ∈ V) (v : Option (Node ι)) (i : ι) :
    links V (update g d v) i + out (g d) i = links V g i + out v i := by
  have h : ∀ j, out (update g d v j) i = update (fun j => out (g j) i) d (out v i) j := by
    intro j
    by_cases hj : j = d
    · subst hj
      simp
    · simp [update_of_ne hj]
  simp only [links, h]
  rw [Finset.sum_update_of_mem hd, ← Finset.sum_sdiff (Finset.singleton_subset_iff.mpr hd)]
  simp only [Finset.sum_singleton]
  omega

omit [DecidableEq ι] in
theorem isDir_congr {g' : ι → Option (Node ι)} (h : g' d = g d) : IsDir g' d n ↔ IsDir g d n := by
  rw [IsDir, IsDir, h]

omit [DecidableEq ι] in
theorem IsDir.eq (h : IsDir g d n) (h' : IsDir g d m) : n = m := Option.some.inj (h.1.symm.trans h'.1)

omit [DecidableEq ι] in
theorem IsDir.ne_none (h : IsDir g d n) : g d ≠ none := by
  rw [h.1]
  rintro ⟨⟩

theorem out_of_not_live (h : ¬ n.Live) (i : ι) : out (some n) i = 0 := if_neg h

theorem out_of_live (h : n.Live) (i : ι) : out (some n) i = (if n.parent = i then 1 else 0) + n.kids.count i := if_pos h

theorem extra_nonneg (x : Option ι) (i : ι) : 0 ≤ extra x i := by
  unfold extra
  split_ifs <;> omega

namespace Tree

theorem mem (h : Tree V root x g) (hi : g i = some n) : i ∈ V := by
  by_contra hV
  rw [h.fin i hV] at hi
  cases hi

theorem out_le (h : Tree V root x g) (d i : ι) : out (g d) i ≤ links V g i := by
  by_cases hd : d ∈ V
  · exact Finset.single_le_sum (fun j _ => Nat.zero_le (out (g j) i)) hd
  · rw [h.fin d hd]
    exact Nat.zero_le _

theorem pos_of_out (h : Tree V root x g) (ho : 0 < out (g d) i) : ∃ n, g i = some n ∧ 0 < n.nlink := by
  have hc := h.counts i
  have hle := h.out_le d i
  have hx := extra_nonneg x i
  cases hg : g i with
  | none =>
    simp only [hg, nlink] at hc
    omega
  | some n =>
    simp only [hg, nlink] at hc
    exact ⟨n, rfl, by omega⟩

theorem live_of_kid (h : Tree V root x g) (hd : IsDir g d n) (hi : i ∈ n.kids) : n.Live := by
  refine ⟨hd.2, ?_⟩
  by_contra h0
  rw [h.bare d n hd h0] at hi
  exact Multiset.notMem_zero i hi

theorem pos_of_kid (h : Tree V root x g) (hd : IsDir g d n) (hi : i ∈ n.kids) : ∃ m, g i = some m ∧ 0 < m.nlink := by
  apply h.pos_of_out (d := d)
  rw [hd.1, out_of_live (h.live_of_kid hd hi)]
  have := Multiset.count_pos.mpr hi
  omega

theorem live_parent (h : Tree V root x g) (hd : g d = some n) (hl : n.Live) : ∃ m, g n.parent = some m ∧ m.Live := by
  by_cases hr : d = root
  · subst hr
    obtain ⟨r, hr, hpos, hp⟩ := h.top
    have he : n = r := Option.some.inj (hd.symm.trans hr.1)
    subst he
    rw [hp]
    exact ⟨n, hd, hl⟩
  · obtain ⟨m, hm, hk⟩ := h.home d n ⟨hd, hl.1⟩ hl.2 hr
    exact ⟨m, hm.1, h.live_of_kid hm hk⟩

theorem alone (hr : root ∈ V) : Tree V root none fun i => if i = root then some ⟨true, 1, root, 0⟩ else none := by
  have hdir {d : ι} {n : Node ι} (hd : IsDir (fun i => if i = root then some ⟨true, 1, root, 0⟩ else none) d n) :
      d = root ∧ n = ⟨true, 1, root, 0⟩ := by
    simp only [IsDir] at hd
    split_ifs at hd with he
    · exact ⟨he, (Option.some.inj hd.1).symm⟩
    · cases hd.1
  have hout (d i : ι) : out (if d = root then some ⟨true, 1, root, 0⟩ else none) i =
      if d = root then (if root = i then 1 else 0) else 0 := by
    by_cases hd : d = root
    · rw [if_pos hd, if_pos hd, out_of_live ⟨rfl, Int.one_pos⟩, Multiset.count_zero, Nat.add_zero]
    · rw [if_neg hd, if_neg hd]
      rfl
  refine ⟨fun i hi => ?_, fun i => ?_, ?_, ?_, ?_, ?_⟩
  · exact if_neg (by rintro rfl; exact hi hr)
  · simp only [links, hout, Finset.sum_ite_eq', if_pos hr, extra, reduceCtorEq, if_false, add_zero]
    by_cases hi : i = root
    · simp [hi, nlink]
    · simp [hi, Ne.symm hi, nlink]
  · intro d n hd _
    rw [(hdir hd).2]
  · intro d n hd _ hne
    exact absurd (hdir hd).1 hne
  · intro d n c m hd hc _
    rw [(hdir hd).2] at hc
    exact absurd hc (Multiset.notMem_zero c)
  · exact ⟨⟨true, 1, root, 0⟩, ⟨if_pos rfl, rfl⟩, Int.one_pos, rfl⟩

theorem shed (h : Tree V root x g) (hi : g i = some n) (h0 : n.nlink = 0) : Tree V root x (update g i none) := by
  have hout (j : ι) : links V (update g i none) j = links V g j := by
    have hu := links_update (g := g) (h.mem hi) none j
    rw [hi, out_of_not_live (fun hl => by have := hl.2; omega)] at hu
    exact hu
  have hdir {e : ι} {m : Node ι} (hm : IsDir (update g i none) e m) : e ≠ i ∧ IsDir g e m := by
    by_cases he : e = i
    · subst he
      simp [IsDir] at hm
    · exact ⟨he, (isDir_congr (update_of_ne he _ _)).mp hm⟩
  have hstay {e : ι} {m : Node ι} (he : e ≠ i) (hm : IsDir g e m) : IsDir (update g i none) e m :=
    (isDir_congr (update_of_ne he _ _)).mpr hm
  refine ⟨fun j hj => ?_, fun j => ?_, ?_, ?_, ?_, ?_⟩
  · by_cases he : j = i
    · simp [he]
    · rw [update_of_ne he]
      exact h.fin j hj
  · rw [hout]
    by_cases he : j = i
    · subst he
      have hc := h.counts j
      rw [hi] at hc
      simp only [update_self, nlink] at hc ⊢
      omega
    · rw [update_of_ne he]
      exact h.counts j
  · intro d m hd
    exact h.bare d m (hdir hd).2
  · intro d m hd hpos hr
    obtain ⟨q, hq, hk⟩ := h.home d m (hdir hd).2 hpos hr
    refine ⟨q, hstay ?_ hq, hk⟩
    intro he
    have hl := h.live_of_kid hq hk
    rw [he] at hq
    have hqn : q = n := Option.some.inj (hq.1.symm.trans hi)
    have hlive := hl.2
    rw [hqn] at hlive
    omega
  · intro d m c q hd hc hq
    exact h.only d m c q (hdir hd).2 hc (hdir hq).2
  · obtain ⟨r, hr, hpos, hp⟩ := h.top
    refine ⟨r, hstay ?_ hr, hpos, hp⟩
    rintro rfl
    have hrn : r = n := Option.some.inj (hr.1.symm.trans hi)
    rw [hrn] at hpos
    omega

theorem plain (h : Tree V root x g) {v : Option (Node ι)} (hi : i ∈ V) (hold : ∀ n, ¬ IsDir g i n)
    (hnew : ∀ n, v = some n → n.dir = false) (hv : nlink v + extra x i = nlink (g i) + extra x' i)
    (hx : ∀ j, j ≠ i → extra x' j = extra x j) : Tree V root x' (update g i v) := by
  have hdir (e : ι) (m : Node ι) : IsDir (update g i v) e m ↔ IsDir g e m := by
    by_cases he : e = i
    · subst he
      refine iff_of_false ?_ (hold m)
      rintro ⟨hm, hd⟩
      rw [update_self] at hm
      rw [hnew m hm] at hd
      cases hd
    · exact isDir_congr (update_of_ne he _ _)
  have hzero {y : Option (Node ι)} (hy : ∀ n, y = some n → n.dir = false) (j : ι) : out y j = 0 := by
    cases y with
    | none => rfl
    | some n => exact out_of_not_live (fun hl => absurd hl.1 (by simp [hy n rfl])) j
  have hout (j : ι) : links V (update g i v) j = links V g j := by
    have hu := links_update (g := g) hi v j
    rw [hzero hnew, hzero (y := g i) (fun n hn => by
      have := hold n
      simp only [IsDir, hn, true_and, Bool.not_eq_true] at this
      exact this)] at hu
    exact hu
  refine ⟨fun j hj => ?_, fun j => ?_, ?_, ?_, ?_, ?_⟩
  · rw [update_of_ne (by rintro rfl; exact hj hi)]
    exact h.fin j hj
  · rw [hout]
    have hc := h.counts j
    by_cases he : j = i
    · subst he
      rw [update_self]
      omega
    · rw [update_of_ne he, hx j he]
      exact hc
  · intro d m hd
    exact h.bare d m ((hdir d m).mp hd)
  · intro d m hd hpos hr
    obtain ⟨q, hq, hk⟩ := h.home d m ((hdir d m).mp hd) hpos hr
    exact ⟨q, (hdir _ q).mpr hq, hk⟩
  · intro d m c q hd hc hq
    exact h.only d m c q ((hdir d m).mp hd) hc ((hdir c q).mp hq)
  · obtain ⟨r, hr, hpos, hp⟩ := h.top
    exact ⟨r, (hdir _ r).mpr hr, hpos, hp⟩

theorem entries (h : Tree V root x g) (hd : IsDir g dp n) (hl : n.Live) {ks : Multiset ι}
    (hk : ∀ c m, IsDir g c m → ks.count c = n.kids.count c)
    (hc : ∀ j, (n.kids.count j : ℤ) + extra x j = ks.count j + extra x' j) :
    Tree V root x' (update g dp (some { n with kids := ks })) := by
  set g' := update g dp (some { n with kids := ks }) with hg'
  have hself : IsDir g' dp { n with kids := ks } := ⟨update_self .., hd.2⟩
  have hother {e : ι} {m : Node ι} (he : e ≠ dp) : IsDir g' e m ↔ IsDir g e m := isDir_congr (update_of_ne he _ _)
  -- a directory of the new graph and what it was before
  have hback {e : ι} {m : Node ι} (hm : IsDir g' e m) : ∃ q, IsDir g e q ∧ q.nlink = m.nlink ∧ q.parent = m.parent ∧
      ∀ c r, IsDir g c r → m.kids.count c = q.kids.count c := by
    by_cases he : e = dp
    · subst he
      have hmn : m = { n with kids := ks } := hm.eq hself
      rw [hmn]
      exact ⟨n, hd, rfl, rfl, hk⟩
    · exact ⟨m, (hother he).mp hm, rfl, rfl, fun _ _ _ => rfl⟩
  have hout (j : ι) : (links V g' j : ℤ) + n.kids.count j = links V g j + ks.count j := by
    have hu := links_update (g := g) (h.mem hd.1) (some { n with kids := ks }) j
    rw [← hg', hd.1, out_of_live hl, out_of_live (n := { n with kids := ks }) hl] at hu
    simp only at hu
    omega
  refine ⟨fun j hj => ?_, fun j => ?_, ?_, ?_, ?_, ?_⟩
  · have hne : j ≠ dp := by
      rintro rfl
      exact hj (h.mem hd.1)
    rw [hg', update_of_ne hne]
    exact h.fin j hj
  · have hcj := h.counts j
    have hoj := hout j
    have hxj := hc j
    by_cases he : j = dp
    · subst he
      rw [hd.1] at hcj
      rw [hself.1]
      simp only [nlink] at hcj ⊢
      omega
    · rw [hg', update_of_ne he, ← hg']
      omega
  · intro d m hm h0
    by_cases he : d = dp
    · subst he
      have hmn : m = { n with kids := ks } := hm.eq hself
      rw [hmn] at h0
      exact absurd hl.2 h0
    · exact h.bare d m ((hother he).mp hm) h0
  · intro d m hm hpos hr
    obtain ⟨q, hq, hn, hp, -⟩ := hback hm
    obtain ⟨r, hr, hmem⟩ := h.home d q hq (by rwa [hn]) hr
    rw [hp] at hr
    by_cases he : m.parent = dp
    · rw [he] at hr ⊢
      have hrn : r = n := hr.eq hd
      refine ⟨_, hself, ?_⟩
      rw [← Multiset.count_pos] at hmem ⊢
      rw [hk d q hq, ← hrn]
      exact hmem
    · exact ⟨r, (hother he).mpr hr, hmem⟩
  · intro d m c q hm hmem hq
    obtain ⟨m0, hm₀, -, -, hcount⟩ := hback hm
    obtain ⟨q0, hq0, -, hp, -⟩ := hback hq
    rw [hcount c q0 hq0, ← hp]
    rw [← Multiset.count_pos, hcount c q0 hq0, Multiset.count_pos] at hmem
    exact h.only d m0 c q0 hm₀ hmem hq0
  · obtain ⟨r, hr, hpos, hp⟩ := h.top
    by_cases he : root = dp
    · subst he
      have hrn : r = n := hr.eq hd
      exact ⟨_, hself, hl.2, hrn ▸ hp⟩
    · exact ⟨r, (hother he).mpr hr, hpos, hp⟩

theorem addDir (h : Tree V root none g) (hd : IsDir g dp n) (hl : n.Live) (hi : g ip = none) (hV : ip ∈ V) :
    Tree V root none (update (update g ip (some ⟨true, 1, dp, 0⟩)) dp
      (some { n with nlink := n.nlink + 1, kids := ip ::ₘ n.kids })) := by
  have hne : ip ≠ dp := by
    rintro rfl
    exact hd.ne_none hi
  have hfresh {e : ι} {m : Node ι} (hm : IsDir g e m) : ip ∉ m.kids := by
    intro hmem
    obtain ⟨q, hq, -⟩ := h.pos_of_kid hm hmem
    rw [hi] at hq
    cases hq
  set g1 := update g ip (some (⟨true, 1, dp, 0⟩ : Node ι)) with hg1
  set g' := update g1 dp (some { n with nlink := n.nlink + 1, kids := ip ::ₘ n.kids }) with hg'
  have hself : IsDir g' dp { n with nlink := n.nlink + 1, kids := ip ::ₘ n.kids } := ⟨update_self .., hd.2⟩
  have hnew : IsDir g' ip ⟨true, 1, dp, 0⟩ := ⟨by rw [hg', update_of_ne hne, hg1, update_self], rfl⟩
  have hsame {e : ι} (he : e ≠ dp) (hi : e ≠ ip) : g' e = g e := by
    rw [hg', update_of_ne he, hg1, update_of_ne hi]
  have hcases {e : ι} {m : Node ι} (hm : IsDir g' e m) :
      (e = dp ∧ m = { n with nlink := n.nlink + 1, kids := ip ::ₘ n.kids }) ∨ (e = ip ∧ m = ⟨true, 1, dp, 0⟩) ∨
        (e ≠ dp ∧ e ≠ ip ∧ IsDir g e m) := by
    by_cases he : e = dp
    · subst he
      exact Or.inl ⟨rfl, hm.eq hself⟩
    · by_cases hi : e = ip
      · subst hi
        exact Or.inr (Or.inl ⟨rfl, hm.eq hnew⟩)
      · exact Or.inr (Or.inr ⟨he, hi, (isDir_congr (hsame he hi)).mp hm⟩)
  have hout (j : ι) : links V g' j = links V g j + (if dp = j then 1 else 0) + (if j = ip then 1 else 0) := by
    have h1 := links_update (g := g) hV (some ⟨true, 1, dp, 0⟩) j
    have h2 := links_update (g := g1) (h.mem hd.1) (some { n with nlink := n.nlink + 1, kids := ip ::ₘ n.kids }) j
    have hn : (⟨n.dir, n.nlink + 1, n.parent, ip ::ₘ n.kids⟩ : Node ι).Live := ⟨hd.2, by have := hl.2; simp only; omega⟩
    rw [hi, out_of_live ⟨rfl, Int.one_pos⟩] at h1
    rw [show g1 dp = g dp from update_of_ne hne.symm _ _, hd.1, out_of_live hl, out_of_live hn] at h2
    simp only [out, Multiset.count_zero, Multiset.count_cons] at h1 h2
    rw [← hg1] at h1
    rw [← hg'] at h2
    omega
  refine ⟨fun j hj => ?_, fun j => ?_, ?_, ?_, ?_, ?_⟩
  · rw [hsame (by rintro rfl; exact hj (h.mem hd.1)) (by rintro rfl; exact hj hV)]
    exact h.fin j hj
  · have hc := h.counts j
    rw [hout]
    by_cases he : j = dp
    · subst he
      rw [hself.1]
      rw [hd.1] at hc
      simp only [nlink, if_true, if_neg hne.symm] at hc ⊢
      push_cast
      omega
    · by_cases hj : j = ip
      · subst hj
        rw [hnew.1]
        rw [hi] at hc
        simp only [nlink, if_true, if_neg (Ne.symm he)] at hc ⊢
        push_cast
        omega
      · rw [hsame he hj, if_neg (Ne.symm he), if_neg hj]
        exact hc
  · intro d m hm h0
    rcases hcases hm with ⟨rfl, rfl⟩ | ⟨rfl, rfl⟩ | ⟨he, hi, hm'⟩
    · have := hl.2
      simp only at h0
      omega
    · simp at h0
    · exact h.bare d m hm' h0
  · intro d m hm hpos hr
    -- the place of an old directory is still there, with at least what it named
    have hold {p c : ι} {q : Node ι} (hq : IsDir g p q) (hc : c ∈ q.kids) : ∃ q', IsDir g' p q' ∧ c ∈ q'.kids := by
      by_cases hp : p = dp
      · subst hp
        have hqn : q = n := hq.eq hd
        exact ⟨_, hself, Multiset.mem_cons_of_mem (hqn ▸ hc)⟩
      · have hp' : p ≠ ip := by
          rintro rfl
          exact hq.ne_none hi
        exact ⟨q, (isDir_congr (hsame hp hp')).mpr hq, hc⟩
    rcases hcases hm with ⟨rfl, rfl⟩ | ⟨rfl, rfl⟩ | ⟨he, hi', hm'⟩
    · obtain ⟨q, hq, hc⟩ := h.home d n hd hl.2 hr
      exact hold hq hc
    · exact ⟨_, hself, Multiset.mem_cons_self _ _⟩
    · obtain ⟨q, hq, hc⟩ := h.home d m hm' hpos hr
      exact hold hq hc
  · intro d m c q hm hc hq
    rcases hcases hm with ⟨rfl, rfl⟩ | ⟨rfl, rfl⟩ | ⟨he, hi', hm'⟩
    · by_cases hci : c = ip
      · subst hci
        have hqn : q = ⟨true, 1, d, 0⟩ := hq.eq hnew
        refine ⟨by rw [hqn], ?_, ?_⟩
        · rw [Multiset.count_cons_self, Multiset.count_eq_zero_of_notMem (hfresh hd)]
        · rintro rfl
          obtain ⟨r, hr, -⟩ := h.top
          exact hr.ne_none hi
      · have hcn : c ∈ n.kids := (Multiset.mem_cons.mp hc).resolve_left hci
        rw [Multiset.count_cons_of_ne hci]
        rcases hcases hq with ⟨rfl, rfl⟩ | ⟨hci', -⟩ | ⟨-, -, hq'⟩
        · exact h.only _ n _ n hd hcn hd
        · exact absurd hci' hci
        · exact h.only _ n c q hd hcn hq'
    · exact absurd hc (Multiset.notMem_zero c)
    · have hci : c ≠ ip := by
        rintro rfl
        exact hfresh hm' hc
      rcases hcases hq with ⟨rfl, rfl⟩ | ⟨hci', -⟩ | ⟨-, -, hq'⟩
      · exact h.only d m c n hm' hc hd
      · exact absurd hci' hci
      · exact h.only d m c q hm' hc hq'
  · obtain ⟨r, hr, hpos, hp⟩ := h.top
    by_cases he : root = dp
    · subst he
      have hrn : r = n := hr.eq hd
      exact ⟨_, hself, by have := hl.2; simp only; omega, hrn ▸ hp⟩
    · have hi' : root ≠ ip := by
        rintro rfl
        exact hr.ne_none hi
      exact ⟨r, (isDir_congr (hsame he hi')).mpr hr, hpos, hp⟩

omit [DecidableEq ι] in
theorem ne_of_empty (hd : IsDir g dp n) (hk : ip ∈ n.kids) (hm : IsDir g ip m) (h0 : m.kids = 0) : ip ≠ dp := by
  rintro rfl
  have hmn : m = n := hm.eq hd
  rw [← hmn, h0] at hk
  exact Multiset.notMem_zero _ hk

section UnlinkDir

variable (h : Tree V root none g) (hd : IsDir g dp n) (hk : ip ∈ n.kids) (hm : IsDir g ip m) (h0 : m.kids = 0)
include h hd hk hm h0

theorem nlink_of_empty : m.nlink = 1 := by
  obtain ⟨hp, h1, hr⟩ := h.only dp n ip m hd hk hm
  have hout : ∀ d ∈ V, out (g d) ip = if d = dp then 1 else 0 := by
    intro d _
    cases hgd : g d with
    | none =>
      rw [if_neg (by rintro rfl; rw [hd.1] at hgd; cases hgd)]
      rfl
    | some q =>
      by_cases hl : q.Live
      · have hqp : q.parent ≠ ip := by
          intro he
          by_cases hdr : d = root
          · subst hdr
            obtain ⟨r, hr', -, hrp⟩ := h.top
            have hqr : q = r := Option.some.inj (hgd.symm.trans hr'.1)
            rw [hqr, hrp] at he
            exact hr he.symm
          · obtain ⟨r, hr', hmem⟩ := h.home d q ⟨hgd, hl.1⟩ hl.2 hdr
            rw [he] at hr'
            have hrm : r = m := hr'.eq hm
            rw [hrm, h0] at hmem
            exact Multiset.notMem_zero _ hmem
        rw [out_of_live hl, if_neg hqp, Nat.zero_add]
        by_cases hdd : d = dp
        · subst hdd
          have hqn : q = n := Option.some.inj (hgd.symm.trans hd.1)
          rw [hqn, if_pos rfl, h1]
        · rw [if_neg hdd, Multiset.count_eq_zero]
          intro hmem
          exact hdd ((h.only d q ip m ⟨hgd, hl.1⟩ hmem hm).1.symm.trans hp)
      · rw [out_of_not_live hl, if_neg]
        rintro rfl
        have hqn : q = n := Option.some.inj (hgd.symm.trans hd.1)
        exact hl (hqn ▸ h.live_of_kid hd hk)
  have hc := h.counts ip
  rw [links, Finset.sum_congr rfl hout, Finset.sum_ite_eq' V dp, if_pos (h.mem hd.1), hm.1] at hc
  simpa [nlink, extra] using hc

theorem two_le_nlink : 2 ≤ n.nlink := by
  obtain ⟨hp, -, hr⟩ := h.only dp n ip m hd hk hm
  have hml : m.Live := ⟨hm.2, by rw [nlink_of_empty h hd hk hm h0]; exact Int.one_pos⟩
  have hnl := h.live_of_kid hd hk
  have hip : out (g ip) dp = 1 := by
    rw [hm.1, out_of_live hml, hp, h0]
    simp
  -- a second directory that names `dp`
  obtain ⟨q, hq, hpos⟩ : ∃ q, q ≠ ip ∧ 0 < out (g q) dp := by
    by_cases hdr : dp = root
    · subst hdr
      obtain ⟨r, hr', hrpos, hrp⟩ := h.top
      refine ⟨dp, fun he => hr he.symm, ?_⟩
      rw [hr'.1, out_of_live ⟨hr'.2, hrpos⟩, if_pos hrp]
      omega
    · obtain ⟨r, hr', hmem⟩ := h.home dp n hd hnl.2 hdr
      refine ⟨n.parent, ?_, ?_⟩
      · intro he
        rw [he] at hr'
        have hrm : r = m := hr'.eq hm
        rw [hrm, h0] at hmem
        exact Multiset.notMem_zero _ hmem
      · rw [hr'.1, out_of_live (h.live_of_kid hr' hmem)]
        have := Multiset.count_pos.mpr hmem
        omega
  have hsum : out (g ip) dp + out (g q) dp ≤ links V g dp := by
    have hqV : q ∈ V := by
      by_contra hqV
      rw [h.fin q hqV] at hpos
      exact absurd hpos (lt_irrefl 0)
    rw [← Finset.sum_pair (f := fun d => out (g d) dp) hq.symm]
    apply Finset.sum_le_sum_of_subset
    intro d hdm
    rcases Finset.mem_insert.mp hdm with rfl | hdm
    · exact h.mem hm.1
    · rwa [Finset.mem_singleton.mp hdm]
  have hc := h.counts dp
  rw [hd.1] at hc
  simp only [nlink, extra] at hc
  simp only [reduceCtorEq, if_false, add_zero] at hc
  omega

theorem unlinkDir : Tree V root none (update (update g ip (some { m with nlink := m.nlink - 1 })) dp
    (some { n with nlink := n.nlink - 1, kids := n.kids.erase ip })) := by
  have hne := ne_of_empty hd hk hm h0
  have hone := nlink_of_empty h hd hk hm h0
  have htwo := two_le_nlink h hd hk hm h0
  obtain ⟨hp, hcount, hroot⟩ := h.only dp n ip m hd hk hm
  have hnl := h.live_of_kid hd hk
  set g1 := update g ip (some { m with nlink := m.nlink - 1 }) with hg1
  set g' := update g1 dp (some { n with nlink := n.nlink - 1, kids := n.kids.erase ip }) with hg'
  have hself : IsDir g' dp { n with nlink := n.nlink - 1, kids := n.kids.erase ip } := ⟨update_self .., hd.2⟩
  have hold : IsDir g' ip { m with nlink := m.nlink - 1 } :=
    ⟨by rw [hg', update_of_ne hne, hg1, update_self], hm.2⟩
  have hsame {e : ι} (he : e ≠ dp) (hi : e ≠ ip) : g' e = g e := by
    rw [hg', update_of_ne he, hg1, update_of_ne hi]
  have hdead : ¬ (⟨m.dir, m.nlink - 1, m.parent, m.kids⟩ : Node ι).Live := by
    rintro ⟨-, hpos⟩
    simp only at hpos
    omega
  have hlive : (⟨n.dir, n.nlink - 1, n.parent, n.kids.erase ip⟩ : Node ι).Live := ⟨hd.2, by simp only; omega⟩
  have hout (j : ι) : links V g' j + (if dp = j then 1 else 0) + (if j = ip then 1 else 0) = links V g j := by
    have h1 := links_update (g := g) (h.mem hm.1) (some { m with nlink := m.nlink - 1 }) j
    have h2 := links_update (g := g1) (h.mem hd.1) (some { n with nlink := n.nlink - 1, kids := n.kids.erase ip }) j
    rw [← hg1, hm.1, out_of_not_live hdead, out_of_live ⟨hm.2, by omega⟩, hp, h0] at h1
    rw [← hg', show g1 dp = g dp from update_of_ne hne.symm _ _, hd.1, out_of_live hnl, out_of_live hlive] at h2
    simp only [Multiset.count_zero] at h1 h2
    by_cases hj : j = ip
    · subst hj
      rw [Multiset.count_erase_self] at h2
      rw [if_pos rfl]
      omega
    · rw [Multiset.count_erase_of_ne hj] at h2
      rw [if_neg hj]
      omega
  -- what a directory of the new graph was before
  have hback {e : ι} {q : Node ι} (hq : IsDir g' e q) : ∃ r, IsDir g e r ∧ r.parent = q.parent ∧
      (∀ c, c ≠ ip → q.kids.count c = r.kids.count c) ∧ (ip ∈ q.kids → False) ∧ (q.kids ≤ r.kids) := by
    by_cases he : e = dp
    · subst he
      have hqn : q = _ := hq.eq hself
      rw [hqn]
      refine ⟨n, hd, rfl, fun c hc => Multiset.count_erase_of_ne hc _, fun hmem => ?_, Multiset.erase_le ip n.kids⟩
      rw [← Multiset.count_pos, Multiset.count_erase_self] at hmem
      omega
    · by_cases hi : e = ip
      · subst hi
        have hqm : q = _ := hq.eq hold
        rw [hqm]
        refine ⟨m, hm, rfl, fun _ _ => rfl, fun hmem => ?_, le_rfl⟩
        simp only [h0] at hmem
        exact Multiset.notMem_zero _ hmem
      · have hq' : IsDir g e q := (isDir_congr (hsame he hi)).mp hq
        refine ⟨q, hq', rfl, fun _ _ => rfl, fun hmem => ?_, le_rfl⟩
        exact he ((h.only e q ip m hq' hmem hm).1.symm.trans hp)
  refine ⟨fun j hj => ?_, fun j => ?_, ?_, ?_, ?_, ?_⟩
  · rw [hsame (by rintro rfl; exact hj (h.mem hd.1)) (by rintro rfl; exact hj (h.mem hm.1))]
    exact h.fin j hj
  · have hc := h.counts j
    have ho := hout j
    by_cases he : j = dp
    · subst he
      rw [hself.1]
      rw [hd.1] at hc
      rw [if_pos rfl, if_neg hne.symm] at ho
      simp only [nlink] at hc ⊢
      omega
    · by_cases hj : j = ip
      · subst hj
        rw [hold.1]
        rw [hm.1] at hc
        rw [if_neg (Ne.symm he), if_pos rfl] at ho
        simp only [nlink] at hc ⊢
        omega
      · rw [hsame he hj]
        rw [if_neg (Ne.symm he), if_neg hj] at ho
        omega
  · intro d q hq hzero
    by_cases he : d = dp
    · subst he
      have hqn : q = _ := hq.eq hself
      rw [hqn] at hzero
      exact absurd hlive.2 hzero
    · by_cases hi : d = ip
      · subst hi
        have hqm : q = _ := hq.eq hold
        rw [hqm]
        exact h0
      · exact h.bare d q ((isDir_congr (hsame he hi)).mp hq) hzero
  · intro d q hq hpos hr
    have hdi : d ≠ ip := by
      rintro rfl
      have hqm : q = _ := hq.eq hold
      exact hdead ⟨hm.2, by rw [hqm] at hpos; exact hpos⟩
    obtain ⟨r, hr1, hrp, -⟩ := hback hq
    have hrpos : 0 < r.nlink := by
      by_cases he : d = dp
      · subst he
        rw [hr1.eq hd]
        exact hnl.2
      · rwa [((isDir_congr (hsame he hdi)).mp hq).eq hr1] at hpos
    obtain ⟨t, ht, hmem⟩ := h.home d r hr1 hrpos hr
    rw [hrp] at ht
    by_cases he : q.parent = dp
    · rw [he] at ht ⊢
      refine ⟨_, hself, ?_⟩
      rw [Multiset.mem_erase_of_ne hdi, ← ht.eq hd]
      exact hmem
    · refine ⟨t, (isDir_congr (hsame he ?_)).mpr ht, hmem⟩
      intro hi
      rw [hi] at ht
      rw [ht.eq hm, h0] at hmem
      exact Multiset.notMem_zero _ hmem
  · intro d q c t hq hmem ht
    obtain ⟨q0, hq0, -, hcnt, hip, hle⟩ := hback hq
    obtain ⟨t0, ht0, htp, -⟩ := hback ht
    have hci : c ≠ ip := by
      rintro rfl
      exact hip hmem
    rw [hcnt c hci, ← htp]
    exact h.only d q0 c t0 hq0 (Multiset.mem_of_le hle hmem) ht0
  · obtain ⟨r, hr, hpos, hrp⟩ := h.top
    by_cases he : root = dp
    · subst he
      exact ⟨_, hself, hlive.2, (hr.eq hd) ▸ hrp⟩
    · exact ⟨r, (isDir_congr (hsame he (Ne.symm hroot))).mpr hr, hpos, hrp⟩

end UnlinkDir

end Tree

namespace Anchored

omit [DecidableEq ι] in
theorem of_dirs {g' : ι → Option (Node ι)} (h : Anchored g)
    (hdead : ∀ d n, IsDir g' d n → ¬ 0 < n.nlink → (∃ m, IsDir g d m ∧ ¬ 0 < m.nlink ∧ m.parent = n.parent) ∨
      ∃ m, g' n.parent = some m ∧ m.Live)
    (hlive : ∀ d n m, IsDir g d n → ¬ 0 < n.nlink → g n.parent = some m → m.Live → ∃ m', g' n.parent = some m' ∧
      m'.Live) :
    Anchored g' := by
  intro d n hd h0
  rcases hdead d n hd h0 with ⟨m, hm, hm0, hp⟩ | hm
  · obtain ⟨q, hq, hql⟩ := h d m hm hm0
    rw [← hp]
    exact hlive d m q hm hm0 hq hql
  · exact hm

theorem shed (h : Anchored g) (hi : g i = some n) (h0 : n.nlink = 0) : Anchored (update g i none) := by
  apply h.of_dirs
  · intro d m hd hm
    have hne : d ≠ i := by
      rintro rfl
      simp [IsDir] at hd
    exact Or.inl ⟨m, (isDir_congr (update_of_ne hne _ _)).mp hd, hm, rfl⟩
  · intro d m q _ _ hq hql
    have hne : m.parent ≠ i := by
      intro he
      rw [he, hi] at hq
      have hlive := hql.2
      rw [← Option.some.inj hq] at hlive
      omega
    exact ⟨q, by rwa [update_of_ne hne], hql⟩

theorem plain (h : Anchored g) {v : Option (Node ι)} (hold : ∀ n, ¬ IsDir g i n)
    (hnew : ∀ n, v = some n → n.dir = false) :
    Anchored (update g i v) := by
  apply h.of_dirs
  · intro d m hd hm
    have hne : d ≠ i := by
      rintro rfl
      rw [IsDir, update_self] at hd
      rw [hnew m hd.1] at hd
      cases hd.2
    exact Or.inl ⟨m, (isDir_congr (update_of_ne hne _ _)).mp hd, hm, rfl⟩
  · intro d m q _ _ hq hql
    have hne : m.parent ≠ i := by
      intro he
      rw [he] at hq
      exact hold q ⟨hq, hql.1⟩
    exact ⟨q, by rwa [update_of_ne hne], hql⟩

theorem live (h : Anchored g) {n' : Node ι} (hl : n'.Live) : Anchored (update g dp (some n')) := by
  apply h.of_dirs
  · intro d m hd hm
    have hne : d ≠ dp := by
      rintro rfl
      rw [IsDir, update_self] at hd
      rw [← Option.some.inj hd.1] at hm
      exact hm hl.2
    exact Or.inl ⟨m, (isDir_congr (update_of_ne hne _ _)).mp hd, hm, rfl⟩
  · intro d m q _ _ hq hql
    by_cases he : m.parent = dp
    · rw [he, update_self]
      exact ⟨n', rfl, hl⟩
    · exact ⟨q, by rwa [update_of_ne he], hql⟩

theorem leave (h : Anchored g) {n' : Node ι} (hp : ∃ m, g n'.parent = some m ∧ m.Live) (hne : n'.parent ≠ ip)
    (hfree : ∀ d m, IsDir g d m → ¬ 0 < m.nlink → m.parent ≠ ip) : Anchored (update g ip (some n')) := by
  apply h.of_dirs
  · intro d m hd hm
    by_cases he : d = ip
    · subst he
      rw [IsDir, update_self] at hd
      rw [← Option.some.inj hd.1, update_of_ne hne]
      exact Or.inr hp
    · exact Or.inl ⟨m, (isDir_congr (update_of_ne he _ _)).mp hd, hm, rfl⟩
  · intro d m q hd hm hq hql
    exact ⟨q, by rwa [update_of_ne (hfree d m hd hm)], hql⟩

end Anchored
end Xv6.LinkGraph
