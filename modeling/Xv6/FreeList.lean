import Xv6.Umalloc

/-!
The free list in memory: its blocks in address order on a circle through the static header, and what `free`
makes of it.
-/

namespace Xv6.Umalloc

open PointerCycle Extent
open Function (update_self update_of_ne update_idem)

variable {mem : ℕ → Header} {a b : Extent} {bs A B : List Extent} {p z : ℕ}

theorem plus_eq {p n : ℕ} (h : p + n ≤ top) : plus p n = p + n := by
  rw [plus]
  apply Nat.mod_eq_of_lt
  have ht : top < 2 ^ 32 / sizeofHeader := by decide
  omega

structure Seg (mem : ℕ → Header) (bs : List Extent) (z : ℕ) : Prop where
  chain : Chain (ptr mem) (bs.map start) z
  sizes : ∀ b ∈ bs, (mem b.start).size = b.size

theorem Seg.congr (h : Seg mem bs z) {mem' : ℕ → Header} (hm : ∀ b ∈ bs, mem' b.start = mem b.start) :
    Seg mem' bs z := by
  refine ⟨h.chain.congr fun p hp => ?_, fun b hb => ?_⟩
  · obtain ⟨b, hb, rfl⟩ := List.mem_map.mp hp
    rw [ptr, ptr, hm b hb]
  · rw [hm b hb]
    exact h.sizes b hb

theorem Seg.update (h : Seg mem bs z) {v : Header} (hp : ∀ b ∈ bs, b.start ≠ p) :
    Seg (Function.update mem p v) bs z :=
  h.congr fun b hb => update_of_ne (hp b hb) v mem

theorem seg_append : Seg mem (A ++ B) z ↔ Seg mem A ((B.map start).headD z) ∧ Seg mem B z := by
  constructor
  · intro h
    obtain ⟨h1, h2⟩ := chain_append.mp (List.map_append ▸ h.chain)
    exact ⟨⟨h1, fun b hb => h.sizes b (List.mem_append_left B hb)⟩,
      ⟨h2, fun b hb => h.sizes b (List.mem_append_right A hb)⟩⟩
  · rintro ⟨h1, h2⟩
    refine ⟨?_, fun b hb => ?_⟩
    · rw [List.map_append]
      exact chain_append.mpr ⟨h1.chain, h2.chain⟩
    · rcases List.mem_append.mp hb with hb | hb
      · exact h1.sizes b hb
      · exact h2.sizes b hb

theorem seg_cons : Seg mem (b :: bs) z ↔ mem b.start = ⟨(bs.map start).headD z, b.size⟩ ∧ Seg mem bs z := by
  constructor
  · intro h
    refine ⟨?_, h.chain.2, fun c hc => h.sizes c (List.mem_cons_of_mem b hc)⟩
    have hp : (mem b.start).ptr = (bs.map start).headD z := h.chain.1
    rw [← hp, ← h.sizes b List.mem_cons_self]
  · rintro ⟨hb, h⟩
    refine ⟨⟨by rw [ptr, hb], h.chain⟩, fun c hc => ?_⟩
    rcases List.mem_cons.mp hc with rfl | hc
    · rw [hb]
    · exact h.sizes c hc

theorem joinUp_seg (h : Seg mem B z) (hb : (mem b.start).size = b.size) (hp : p ≠ b.start)
    (hn : (mem p).ptr = (B.map start).headD z) (hz : z < b.start) (hpos : 0 < b.size)
    (hB : ∀ c ∈ B, b.start + b.size ≤ c.start) (htop : ∀ c ∈ b :: B, c.start + c.size ≤ top) :
    Seg (joinUp mem b.start p) (push b B) z ∧ ∀ x, x ≠ b.start → joinUp mem b.start p x = mem x := by
  have hplus : plus b.start b.size = b.start + b.size := plus_eq (htop b List.mem_cons_self)
  have hne : ∀ c ∈ B, c.start ≠ b.start := fun c hc => by have := hB c hc; omega
  rw [joinUp, hb, hplus]
  cases B with
  | nil =>
    have hn' : (mem p).ptr = z := hn
    rw [if_neg (by omega), setPtr, hb, hn', push]
    refine ⟨seg_cons.mpr ⟨update_self .., h.update (by simp)⟩, fun x hx => update_of_ne hx _ mem⟩
  | cons c B =>
    have hn' : (mem p).ptr = c.start := hn
    obtain ⟨hc, h'⟩ := seg_cons.mp h
    have hne' := hne c List.mem_cons_self
    rw [hn', push]
    by_cases he : b.start + b.size = c.start
    · have hlt : (b.size + c.size) % 2 ^ 32 = b.size + c.size := by
        apply Nat.mod_eq_of_lt
        have ht := htop c (by simp)
        have : top < 2 ^ 32 := by decide
        omega
      rw [if_pos he, if_pos he]
      simp only [setPtr, setSize, hc, hlt, update_of_ne hp, hn', update_of_ne hne',
        update_self, update_idem]
      refine ⟨seg_cons.mpr ⟨update_self .., h'.update fun d hd => hne d (List.mem_cons_of_mem c hd)⟩,
        fun x hx => update_of_ne hx _ mem⟩
    · rw [if_neg he, if_neg he, setPtr, hb]
      refine ⟨seg_cons.mpr ⟨update_self .., h.update hne⟩, fun x hx => update_of_ne hx _ mem⟩

theorem joinDown_seg (h : Seg mem (b :: B) z) (ha : (mem a.start).size = a.size) (hb : a.start < b.start)
    (hB : ∀ c ∈ B, b.start < c.start) (htop : ∀ c ∈ [a, b], c.start + c.size ≤ top) :
    Seg (joinDown mem b.start a.start) (push a (b :: B)) z ∧
      ∀ x, x ≠ a.start → joinDown mem b.start a.start x = mem x := by
  obtain ⟨hc, h'⟩ := seg_cons.mp h
  have hne : ∀ c ∈ B, c.start ≠ a.start := fun c hc => by have := hB c hc; omega
  have hne' : b.start ≠ a.start := by omega
  rw [joinDown, ha, plus_eq (htop a List.mem_cons_self), push]
  by_cases he : a.start + a.size = b.start
  · have hlt : (a.size + b.size) % 2 ^ 32 = a.size + b.size := by
      apply Nat.mod_eq_of_lt
      have ht := htop b (by simp)
      have : top < 2 ^ 32 := by decide
      omega
    rw [if_pos he, if_pos he]
    simp only [setPtr, setSize, hc, hlt, update_of_ne hne', update_self, update_idem]
    exact ⟨seg_cons.mpr ⟨update_self .., h'.update hne⟩, fun x hx => update_of_ne hx _ mem⟩
  · rw [if_neg he, if_neg he, setPtr, ha]
    refine ⟨seg_cons.mpr ⟨update_self .., h.update fun c hc => ?_⟩,
      fun x hx => update_of_ne hx _ mem⟩
    rcases List.mem_cons.mp hc with rfl | hc
    · exact hne'
    · exact hne c hc

theorem join_seg (h : Seg mem (A ++ a :: B) z) (hs : (A ++ a :: B).Pairwise Before) (hz : z < b.start)
    (hb : (mem b.start).size = b.size) (hpos : 0 < b.size) (ha : a.start + a.size ≤ b.start) (hab : a.start < b.start)
    (hB : ∀ c ∈ B, b.start + b.size ≤ c.start) (htop : ∀ c ∈ a :: b :: B, c.start + c.size ≤ top) :
    Seg (joinDown (joinUp mem b.start a.start) b.start a.start) (A ++ push a (push b B)) z ∧
      ∀ x, x ≠ a.start → x ≠ b.start →
        joinDown (joinUp mem b.start a.start) b.start a.start x = mem x := by
  obtain ⟨hA, h'⟩ := seg_append.mp h
  obtain ⟨hm, hseg⟩ := seg_cons.mp h'
  obtain ⟨-, -, hlow⟩ := List.pairwise_append.mp hs
  obtain ⟨h1, heq1⟩ := joinUp_seg hseg hb hab.ne (by rw [hm]) hz hpos hB fun c hc =>
    htop c (List.mem_cons_of_mem a hc)
  obtain ⟨b', B', hpush, hst, -, hsub⟩ := exists_push b B
  have hb' : b' ∈ push b B := by rw [hpush]; exact List.mem_cons_self
  have htop' : b'.start + b'.size ≤ top := by
    rcases mem_push hb' with hb' | ⟨-, -, he | ⟨d, hd, he⟩⟩
    · exact htop b' (by simp [hb'])
    · exact he ▸ htop b (by simp)
    · exact he ▸ htop d (by simp [hd])
  rw [hpush] at h1
  obtain ⟨h2, heq2⟩ := joinDown_seg (a := a) h1 (by rw [heq1 _ hab.ne, hm]) (hst ▸ hab)
    (fun c hc => by have := hB c (hsub c hc); omega) (by
      intro c hc
      rcases List.mem_cons.mp hc with rfl | hc
      · exact htop c List.mem_cons_self
      · rw [List.mem_singleton.mp hc]
        exact htop')
  rw [hst] at h2 heq2
  have heq : ∀ x, x ≠ a.start → x ≠ b.start →
      joinDown (joinUp mem b.start a.start) b.start a.start x = mem x := by
    intro x hxa hxb
    rw [heq2 x hxa, heq1 x hxb]
  refine ⟨?_, heq⟩
  rw [hpush]
  obtain ⟨a', C, hpush', hst', -⟩ := exists_push a (b' :: B')
  refine seg_append.mpr ⟨?_, h2⟩
  rw [hpush', List.map_cons, List.headD_cons, hst']
  refine hA.congr fun c hc => heq c.start ?_ ?_
  · have := hlow c hc a List.mem_cons_self
    simp only [Before] at this
    omega
  · have := hlow c hc a List.mem_cons_self
    simp only [Before] at this
    omega

structure Layout (h : Heap) (fr lv : List Extent) : Prop where
  basePos : 0 < h.base
  low : h.base < h.brk
  high : h.brk ≤ top
  freep : h.freep ∈ h.base :: fr.map start
  seg : Seg h.mem (⟨h.base, 0⟩ :: fr) h.base
  apart : (⟨h.base, 0⟩ :: fr).Pairwise Before
  liveSizes : ∀ b ∈ lv, (h.mem b.start).size = b.size
  pos : ∀ b ∈ fr ++ lv, 0 < b.size
  parts : ∀ u, cover fr u + cover lv u = cover h.core u
  once : ∀ u, cover h.core u ≤ 1
  bounds : ∀ b ∈ h.core, h.base < b.start ∧ b.start + b.size ≤ h.brk

namespace Layout

variable {h : Heap} {fr lv lv1 lv2 : List Extent} {fuel : ℕ}

theorem cover_le (hl : Layout h fr lv) (u : ℕ) : cover (fr ++ lv) u ≤ 1 := by
  rw [cover_append, hl.parts]
  exact hl.once u

theorem within (hl : Layout h fr lv) (hb : b ∈ fr ++ lv) : h.base < b.start ∧ b.start + b.size ≤ h.brk := by
  have hcov : ∀ u, b.Covers u → ∃ c ∈ h.core, c.Covers u := by
    intro u hu
    have hpos := cover_pos.mpr ⟨b, hb, hu⟩
    rw [cover_append, hl.parts] at hpos
    exact cover_pos.mp hpos
  have hpos := hl.pos b hb
  obtain ⟨c, hc, hu⟩ := hcov b.start ⟨le_refl _, by omega⟩
  obtain ⟨d, hd, hv⟩ := hcov (b.start + b.size - 1) ⟨by omega, by omega⟩
  have h1 := hl.bounds c hc
  have h2 := hl.bounds d hd
  simp only [Covers] at hu hv
  omega

theorem apart_live (hl : Layout h fr (lv1 ++ b :: lv2)) {c : Extent} (hc : c ∈ fr ++ (lv1 ++ lv2)) :
    c.start + c.size ≤ b.start ∨ b.start + b.size ≤ c.start := by
  have hb : b ∈ fr ++ (lv1 ++ b :: lv2) := by simp
  have hc' : c ∈ fr ++ (lv1 ++ b :: lv2) := by
    simp only [List.mem_append, List.mem_cons] at hc ⊢
    tauto
  refine (apart_of_disjoint (fun u => ?_) (hl.pos b hb) (hl.pos c hc')).symm
  have he : fr ++ (lv1 ++ b :: lv2) = fr ++ lv1 ++ b :: lv2 := (List.append_assoc fr lv1 (b :: lv2)).symm
  exact disjoint_of_cover hl.cover_le he (by simpa only [List.append_assoc] using hc) u

theorem starts_lt (hl : Layout h fr lv) : (h.base :: fr.map start).Pairwise (· < ·) := by
  refine hl.apart.map start fun a b (hab : a.start + a.size < b.start) => ?_
  exact Nat.lt_of_le_of_lt (Nat.le_add_right a.start a.size) hab

theorem freep_pos (hl : Layout h fr lv) : 0 < h.freep := by
  rcases List.mem_cons.mp hl.freep with he | hm
  · exact he ▸ hl.basePos
  · have := (List.pairwise_cons.mp hl.starts_lt).1 h.freep hm
    omega

theorem start_ne (hl : Layout h fr lv) (ha : a ∈ (⟨h.base, 0⟩ : Extent) :: fr) (hb : b ∈ lv) : b.start ≠ a.start := by
  have hbm : b ∈ fr ++ lv := List.mem_append_right fr hb
  rcases List.mem_cons.mp ha with rfl | ha
  · exact (hl.within hbm).1.ne'
  · obtain ⟨lv1, lv2, rfl⟩ := List.append_of_mem hb
    have h1 := hl.apart_live (List.mem_append_left _ ha)
    have h2 := hl.pos b hbm
    have h3 := hl.pos a (List.mem_append_left _ ha)
    omega

theorem change (hl : Layout h fr lv) {N fr' lv' : List Extent} {mem : ℕ → Header} {p : ℕ}
    (hN : N = ⟨h.base, 0⟩ :: fr') (hp : p ∈ N.map start) (hseg : Seg mem N h.base) (hord : N.Pairwise Before)
    (hlv : ∀ b ∈ lv', (mem b.start).size = b.size) (hpos : ∀ b ∈ fr' ++ lv', 0 < b.size)
    (hcov : ∀ u, cover fr' u + cover lv' u = cover fr u + cover lv u) :
    Layout { h with mem := mem, freep := p } fr' lv' := by
  subst hN
  exact ⟨hl.basePos, hl.low, hl.high, hp, hseg, hord, hlv, hpos, fun u => (hcov u).trans (hl.parts u), hl.once,
    hl.bounds⟩

theorem place (hl : Layout h fr (lv1 ++ b :: lv2)) : ∃ A a B, (⟨h.base, 0⟩ : Extent) :: fr = A ++ a :: B ∧
    a.start + a.size ≤ b.start ∧ a.start < b.start ∧ ∀ c ∈ B, b.start + b.size ≤ c.start := by
  have hbase := (hl.within (b := b) (by simp)).1
  obtain ⟨lo, hi, rfl, hlo, hhi⟩ := split_at (List.pairwise_cons.mp hl.apart).2 fun c hc =>
    hl.apart_live (List.mem_append_left _ hc)
  obtain ⟨A, a, hA⟩ : ∃ A a, (⟨h.base, 0⟩ : Extent) :: lo = A ++ [a] :=
    ⟨_, _, (List.dropLast_append_getLast (List.cons_ne_nil _ lo)).symm⟩
  have ha : a ∈ (⟨h.base, 0⟩ : Extent) :: lo := by rw [hA]; simp
  refine ⟨A, a, hi, ?_, ?_, ?_, hhi⟩
  · rw [← List.cons_append, hA, List.append_assoc, List.singleton_append]
  · rcases List.mem_cons.mp ha with rfl | ha
    · exact hbase.le
    · exact hlo a ha
  · rcases List.mem_cons.mp ha with rfl | ha
    · exact hbase
    · have h1 := hlo a ha
      have h2 := hl.pos a (by simp [ha])
      omega

theorem search_eq (hl : Layout h fr lv) (hN : (⟨h.base, 0⟩ : Extent) :: fr = A ++ a :: B) (ha : a.start < p)
    (hB : ∀ c ∈ B, p < c.start) (hf : fr.length < fuel) :
    search (fun q => decide (Place (ptr h.mem) p q)) (ptr h.mem) fuel h.freep = some a.start := by
  have hbase : h.base ≤ a.start := by
    have ham : a ∈ (⟨h.base, 0⟩ : Extent) :: fr := by rw [hN]; simp
    rcases List.mem_cons.mp ham with rfl | ham
    · exact le_refl _
    · exact ((List.pairwise_cons.mp hl.starts_lt).1 a.start (List.mem_map_of_mem ham)).le
  have hmap : h.base :: fr.map start = A.map start ++ a.start :: B.map start := by
    rw [← List.map_cons, ← List.map_append, ← hN, List.map_cons]
  have hlt := hl.starts_lt
  rw [hmap] at hlt
  have hchain : Chain (ptr h.mem) (h.base :: fr.map start) h.base := hl.seg.chain
  refine hchain.search_place hl.starts_lt (Nat.lt_of_le_of_lt hbase ha) ?_ ha (fun c hc hac => ?_) hl.freep ?_
  · rw [hmap]
    simp
  · rw [hmap] at hc
    rcases List.mem_append.mp hc with hc | hc
    · exact absurd hac ((List.pairwise_append.mp hlt).2.2 c hc a.start List.mem_cons_self).not_gt
    · rcases List.mem_cons.mp hc with rfl | hc
      · exact absurd hac (lt_irrefl _)
      · obtain ⟨d, hd, rfl⟩ := List.mem_map.mp hc
        exact hB d hd
  · rw [List.length_cons, List.length_map]
    exact hf

theorem insert_nodes (hl : Layout h fr (lv1 ++ b :: lv2)) (hN : (⟨h.base, 0⟩ : Extent) :: fr = A ++ a :: B)
    (ha : a.start + a.size ≤ b.start) :
    ∃ fr', A ++ push a (push b B) = ⟨h.base, 0⟩ :: fr' ∧ (∀ c ∈ fr', 0 < c.size) ∧
      (∀ u, cover fr' u = (if b.Covers u then 1 else 0) + cover fr u) ∧ ∃ c ∈ fr', b.size ≤ c.size := by
  have hmem : b ∈ fr ++ (lv1 ++ b :: lv2) := by simp
  have hbase := (hl.within hmem).1
  have hpos := hl.pos b hmem
  have hord := hl.apart
  obtain ⟨b', B', hpush, hst, hsz, hsub⟩ := exists_push b B
  cases A with
  | nil =>
    cases hN
    rw [hpush, push, if_neg (by simp only [hst]; omega)]
    refine ⟨b' :: B', rfl, fun c hc => ?_, fun u => ?_, b', List.mem_cons_self, hsz⟩
    · rcases List.mem_cons.mp hc with rfl | hc
      · omega
      · exact hl.pos c (List.mem_append_left _ (hsub c hc))
    · rw [← hpush, cover_push]
  | cons d A =>
    rw [List.cons_append] at hN
    cases hN
    obtain ⟨c', hc', hle⟩ := exists_le_push (b := a) (hpush ▸ List.mem_cons_self : b' ∈ push b B)
    refine ⟨A ++ push a (push b B), rfl, fun c hc => ?_, fun u => ?_, c', List.mem_append_right A hc', by omega⟩
    · rcases List.mem_append.mp hc with hc | hc
      · exact hl.pos c (by simp [hc])
      · rcases mem_push hc with hc | ⟨-, hc, -⟩
        · rcases mem_push hc with hc | ⟨-, hc, -⟩
          · exact hl.pos c (by simp [hc])
          · omega
        · have := hl.pos a (by simp)
          omega
    · simp only [cover_append, cover_push, cover_cons]
      omega

theorem free_eq (hl : Layout h fr (lv1 ++ b :: lv2)) : ∃ h' fr', (∀ fuel, fr.length < fuel →
    free fuel h (b.start + 1) = some h') ∧ Layout h' fr' (lv1 ++ lv2) ∧ ∃ c ∈ fr', b.size ≤ c.size := by
  have hmem : b ∈ fr ++ (lv1 ++ b :: lv2) := by simp
  obtain ⟨hbase, hbrk⟩ := hl.within hmem
  have hpos := hl.pos b hmem
  have hhigh := hl.high
  obtain ⟨A, a, B, hN, haend, halt, hB⟩ := hl.place
  have ha : a ∈ (⟨h.base, 0⟩ : Extent) :: fr := by rw [hN]; simp
  have htop : ∀ c ∈ a :: b :: B, c.start + c.size ≤ top := by
    intro c hc
    rcases List.mem_cons.mp hc with rfl | hc
    · omega
    · rcases List.mem_cons.mp hc with rfl | hc
      · omega
      · have hcm : c ∈ (⟨h.base, 0⟩ : Extent) :: fr := by rw [hN]; simp [hc]
        have h1 := hB c hc
        rcases List.mem_cons.mp hcm with rfl | hcm
        · simp only at h1
          omega
        · have h2 := (hl.within (List.mem_append_left _ hcm)).2
          omega
  have hseg := hl.seg
  have hord := hl.apart
  obtain ⟨fr', hN', hpos', hcov, hbig⟩ := hl.insert_nodes hN haend
  rw [hN] at hseg hord
  obtain ⟨hseg', hsame⟩ := join_seg hseg hord hbase (hl.liveSizes b (by simp)) hpos haend halt hB htop
  have hfree : a.start ∈ (A ++ push a (push b B)).map start := by
    obtain ⟨a', C, hpush, hst, -⟩ := exists_push a (push b B)
    rw [hpush, ← hst]
    simp
  have hrest : ∀ c ∈ lv1 ++ lv2, c ∈ lv1 ++ b :: lv2 := by
    intro c hc
    simp only [List.mem_append, List.mem_cons] at hc ⊢
    tauto
  refine ⟨_, fr', fun fuel hf => ?_, hl.change hN' hfree hseg' (pairwise_insert hord haend hB) (fun c hc => ?_)
    (fun c hc => ?_) (fun u => ?_), hbig⟩
  · rw [free, Nat.add_sub_cancel, hl.search_eq hN halt (fun c hc => by have := hB c hc; omega) hf, Option.map_some]
  · rw [hsame c.start (hl.start_ne ha (hrest c hc))]
    · exact hl.liveSizes c (hrest c hc)
    · have h1 := hl.apart_live (List.mem_append_right fr hc)
      have h2 := hl.pos c (List.mem_append_right fr (hrest c hc))
      omega
  · rcases List.mem_append.mp hc with hc | hc
    · exact hpos' c hc
    · exact hl.pos c (List.mem_append_right fr (hrest c hc))
  · rw [hcov u, cover_append, cover_append, cover_cons]
    omega

end Layout

end Xv6.Umalloc
