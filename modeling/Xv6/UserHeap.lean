import Xv6.FreeList
import Xv6.Transition

/-!
`malloc` and `free` over whole runs of a program: what the heap holds between two calls, and that every call ends.
-/

namespace Xv6.Umalloc

open PointerCycle Extent Transition
open Function (update update_self update_of_ne)

variable {os : ℕ → Option ℕ} {more : ℕ → Heap → ℕ → Option (Heap × ℕ)} {h : Heap} {fr lv A B : List Extent}
    {a c : Extent} {fuel n prevp : ℕ} {R : List ℕ}

theorem setPtr_of_ne {mem : ℕ → Header} {p q x : ℕ} (h : x ≠ p) : setPtr mem p q x = mem x :=
  update_of_ne h _ mem

theorem setSize_of_ne {mem : ℕ → Header} {p k x : ℕ} (h : x ≠ p) : setSize mem p k x = mem x :=
  update_of_ne h _ mem

namespace Layout

theorem next_node (hl : Layout h fr lv) (hp : prevp ∈ h.base :: fr.map start)
    (hn : 0 < (h.mem (h.mem prevp).ptr).size) :
    ∃ A a c B, (⟨h.base, 0⟩ : Extent) :: fr = A ++ a :: c :: B ∧ a.start = prevp ∧ c.start = (h.mem prevp).ptr ∧
      h.mem c.start = ⟨(B.map start).headD h.base, c.size⟩ := by
  obtain ⟨a, ha, rfl⟩ := List.mem_map.mp (show prevp ∈ ((⟨h.base, 0⟩ : Extent) :: fr).map start from hp)
  obtain ⟨A, R, hN⟩ := List.append_of_mem ha
  have hseg := hl.seg
  rw [hN] at hseg
  obtain ⟨hm, hR⟩ := seg_cons.mp (seg_append.mp hseg).2
  cases R with
  | nil =>
    have h0 := hl.seg.sizes _ List.mem_cons_self
    rw [hm] at hn
    exact absurd h0 hn.ne'
  | cons c B => exact ⟨A, a, c, B, hN, rfl, by rw [hm]; rfl, (seg_cons.mp hR).1⟩

theorem keep_first (hN : (⟨h.base, 0⟩ : Extent) :: fr = A ++ a :: c :: B) (M : List Extent) :
    ∃ fr', A ++ a :: M = ⟨h.base, 0⟩ :: fr' ∧ ∃ fr1, fr = fr1 ++ c :: B ∧ fr' = fr1 ++ M := by
  cases A with
  | nil =>
    cases hN
    exact ⟨M, rfl, [], rfl, rfl⟩
  | cons d A =>
    rw [List.cons_append] at hN
    cases hN
    exact ⟨A ++ a :: M, rfl, A ++ [a], by simp, by simp⟩

theorem node_order (hl : Layout h fr lv) (hN : (⟨h.base, 0⟩ : Extent) :: fr = A ++ a :: c :: B) :
    (∀ d ∈ A, d.start < a.start ∧ d.start < c.start) ∧ a.start < c.start ∧
      (∀ d ∈ B, c.start + c.size < d.start) := by
  have hord := hl.apart
  rw [hN] at hord
  obtain ⟨-, h2, h12⟩ := List.pairwise_append.mp hord
  obtain ⟨hac, h2⟩ := List.pairwise_cons.mp h2
  have hc : a.start + a.size < c.start := hac c List.mem_cons_self
  refine ⟨fun d hd => ?_, by omega, fun d hd => (List.pairwise_cons.mp h2).1 d hd⟩
  have hda : d.start + d.size < a.start := h12 d hd a List.mem_cons_self
  omega

theorem unlink (hl : Layout h fr lv) (hN : (⟨h.base, 0⟩ : Extent) :: fr = A ++ a :: c :: B) :
    ∃ fr', Layout { h with mem := setPtr h.mem a.start ((B.map start).headD h.base), freep := a.start } fr'
      (c :: lv) := by
  obtain ⟨hA, hac, hB⟩ := hl.node_order hN
  obtain ⟨fr', hN', fr1, hfr, hfr'⟩ := keep_first hN B
  have ha : a ∈ (⟨h.base, 0⟩ : Extent) :: fr := by rw [hN]; simp
  have hseg := hl.seg
  have hord := hl.apart
  rw [hN] at hseg hord
  obtain ⟨hsA, hs⟩ := seg_append.mp hseg
  obtain ⟨hma, hs⟩ := seg_cons.mp hs
  obtain ⟨hmc, hsB⟩ := seg_cons.mp hs
  refine ⟨fr', hl.change hN' (by simp) (seg_append.mpr ⟨hsA.congr fun d hd => setPtr_of_ne (hA d hd).1.ne,
    seg_cons.mpr ⟨?_, hsB.congr fun d hd => setPtr_of_ne (by have := hB d hd; omega)⟩⟩)
    (hord.sublist (((List.sublist_cons_self c B).cons_cons a).append_left A)) (fun d hd => ?_) (fun d hd => ?_)
    (fun u => ?_)⟩
  · rw [setPtr, update_self, hma]
  · rcases List.mem_cons.mp hd with rfl | hd
    · rw [setPtr_of_ne hac.ne', hmc]
    · rw [setPtr_of_ne (hl.start_ne ha hd)]
      exact hl.liveSizes d hd
  · apply hl.pos d
    rw [hfr'] at hd
    rw [hfr]
    simp only [List.mem_append, List.mem_cons] at hd ⊢
    tauto
  · rw [hfr, hfr', cover_append, cover_append, cover_cons, cover_cons]
    omega

theorem cut_tail (hl : Layout h fr lv) (hN : (⟨h.base, 0⟩ : Extent) :: fr = A ++ a :: c :: B) (hn : 0 < n)
    (hlt : n < c.size) : ∃ fr', Layout
      { h with
        mem := setSize (setSize h.mem c.start (c.size - n)) (c.start + (c.size - n)) n
        freep := a.start }
      fr' (⟨c.start + (c.size - n), n⟩ :: lv) := by
  obtain ⟨hA, hac, hB⟩ := hl.node_order hN
  obtain ⟨fr', hN', fr1, hfr, hfr'⟩ := keep_first hN (⟨c.start, c.size - n⟩ :: B)
  have hcfr : c ∈ fr := by rw [hfr]; simp
  have hseg := hl.seg
  have hord := hl.apart
  rw [hN] at hseg hord
  obtain ⟨hsA, hs⟩ := seg_append.mp hseg
  obtain ⟨hma, hs⟩ := seg_cons.mp hs
  obtain ⟨hmc, hsB⟩ := seg_cons.mp hs
  have hsame : ∀ x, x < c.start ∨ c.start + c.size ≤ x →
      setSize (setSize h.mem c.start (c.size - n)) (c.start + (c.size - n)) n x = h.mem x := by
    intro x hx
    rw [setSize_of_ne (by omega), setSize_of_ne (by omega)]
  refine ⟨fr', hl.change hN' (by simp) (seg_append.mpr ⟨hsA.congr fun d hd => hsame _ (Or.inl (hA d hd).2),
    seg_cons.mpr ⟨?_, seg_cons.mpr ⟨?_, hsB.congr fun d hd => hsame _ (Or.inr (hB d hd).le)⟩⟩⟩) ?_ (fun d hd => ?_)
    (fun d hd => ?_) (fun u => ?_)⟩
  · rw [hsame a.start (Or.inl hac), hma]
    rfl
  · rw [setSize_of_ne (by simp only; omega), setSize, update_self, hmc]
  · rw [List.append_cons] at hord ⊢
    exact pairwise_shrink hord rfl (Nat.sub_le _ _)
  · rcases List.mem_cons.mp hd with rfl | hd
    · rw [setSize, update_self]
    · rw [hsame d.start, hl.liveSizes d hd]
      obtain ⟨lv1, lv2, rfl⟩ := List.append_of_mem hd
      have h1 := hl.apart_live (List.mem_append_left _ hcfr)
      have h2 := hl.pos d (by simp)
      omega
  · rw [hfr'] at hd
    simp only [List.mem_append, List.mem_cons] at hd
    rcases hd with (hd | rfl | hd) | rfl | hd
    · exact hl.pos d (by simp [hfr, hd])
    · exact Nat.sub_pos_of_lt hlt
    · exact hl.pos d (by simp [hfr, hd])
    · exact hn
    · exact hl.pos d (by simp [hd])
  · have hj := covers_join c.start (c.size - n) n u
    rw [Nat.sub_add_cancel hlt.le] at hj
    change _ = if c.Covers u then 1 else 0 at hj
    rw [hfr, hfr', cover_append, cover_append, cover_cons, cover_cons, cover_cons]
    omega

theorem carve_eq (hl : Layout h fr lv) (hn : 0 < n) (hp : prevp ∈ h.base :: fr.map start)
    (hfit : n ≤ (h.mem (h.mem prevp).ptr).size) :
    ∃ h' fr' b, carve h n prevp (h.mem prevp).ptr = (h', b.start + 1) ∧ Layout h' fr' (b :: lv) ∧ b.size = n := by
  obtain ⟨A, a, c, B, hN, rfl, hc, hm⟩ := hl.next_node hp (Nat.lt_of_lt_of_le hn hfit)
  rw [← hc, hm] at hfit
  rw [← hc, carve, hm]
  by_cases he : c.size = n
  · obtain ⟨fr', hl'⟩ := hl.unlink hN
    exact ⟨_, fr', c, if_pos he, hl', he⟩
  · have hcfr : c ∈ fr := by
      obtain ⟨-, -, fr1, hfr, -⟩ := keep_first hN []
      rw [hfr]
      simp
    have htop : c.start + (c.size - n) ≤ top := by
      have h1 := (hl.within (List.mem_append_left _ hcfr)).2
      have h2 := hl.high
      omega
    obtain ⟨fr', hl'⟩ := hl.cut_tail hN hn (lt_of_le_of_ne hfit (Ne.symm he))
    refine ⟨_, fr', _, ?_, hl', rfl⟩
    have hsz : (setSize h.mem c.start (c.size - n) c.start).size = c.size - n := by
      rw [setSize, update_self]
    rw [if_neg he]
    simp only [hsz, plus_eq htop]

end Layout

theorem mallocLoop_round (hc : Chain (ptr h.mem) (prevp :: R) h.freep) (hR : h.freep ∉ R) (hf : R.length < fuel) :
    (∃ p ∈ prevp :: R, n ≤ (h.mem (h.mem p).ptr).size ∧
      mallocLoop more fuel h n prevp (h.mem prevp).ptr = some (carve h n p (h.mem p).ptr)) ∨
    (∀ p ∈ R ++ [h.freep], (h.mem p).size < n) ∧ ∃ k, fuel = R.length + 1 + k ∧
      mallocLoop more fuel h n prevp (h.mem prevp).ptr = (more k h n).bind fun r =>
        if r.2 = 0 then some (r.1, 0) else mallocLoop more k r.1 n r.2 (r.1.mem r.2).ptr := by
  induction R generalizing prevp fuel with
  | nil =>
    have hp : (h.mem prevp).ptr = h.freep := hc.1
    obtain ⟨k, rfl⟩ := Nat.exists_eq_add_of_lt hf
    by_cases hfit : n ≤ (h.mem (h.mem prevp).ptr).size
    · left
      refine ⟨prevp, List.mem_cons_self, hfit, ?_⟩
      rw [mallocLoop, if_pos hfit]
    · right
      refine ⟨fun p hp' => ?_, k, by simp only [List.length_nil]; omega, ?_⟩
      · rw [List.mem_singleton.mp hp', ← hp]
        exact Nat.lt_of_not_le hfit
      · rw [mallocLoop, if_neg hfit, if_pos hp]
        simp only [List.length_nil, Nat.zero_add]
  | cons x R ih =>
    have hp : (h.mem prevp).ptr = x := hc.1
    obtain ⟨k, rfl⟩ := Nat.exists_eq_add_of_lt hf
    by_cases hfit : n ≤ (h.mem (h.mem prevp).ptr).size
    · left
      refine ⟨prevp, List.mem_cons_self, hfit, ?_⟩
      rw [mallocLoop, if_pos hfit]
    · have hx : x ≠ h.freep := fun he => hR (he ▸ List.mem_cons_self)
      rw [mallocLoop, if_neg hfit, hp, if_neg hx]
      rw [hp] at hfit
      have hlt : R.length < (x :: R).length + k := by simp only [List.length_cons]; omega
      rcases ih hc.2 (fun hm => hR (List.mem_cons_of_mem x hm)) hlt with
        ⟨p, hpm, hfit', he⟩ | ⟨hsmall, j, hj, he⟩
      · exact Or.inl ⟨p, List.mem_cons_of_mem prevp hpm, hfit', he⟩
      · refine Or.inr ⟨fun p hpm => ?_, j, by simp only [List.length_cons] at hj ⊢; omega, he⟩
        rcases List.mem_cons.mp hpm with rfl | hpm
        · exact Nat.lt_of_not_le hfit
        · exact hsmall p hpm

namespace Layout

theorem round (hl : Layout h fr lv) (more : ℕ → Heap → ℕ → Option (Heap × ℕ)) (hn : 0 < n) (hf : fr.length < fuel) :
    (∃ h' fr' b, mallocLoop more fuel h n h.freep (h.mem h.freep).ptr = some (h', b.start + 1) ∧
      Layout h' fr' (b :: lv) ∧ b.size = n) ∨
    (∀ c ∈ fr, c.size < n) ∧ ∃ k, fuel = fr.length + 1 + k ∧
      mallocLoop more fuel h n h.freep (h.mem h.freep).ptr = (more k h n).bind fun r =>
        if r.2 = 0 then some (r.1, 0) else mallocLoop more k r.1 n r.2 (r.1.mem r.2).ptr := by
  obtain ⟨l1, l2, hN⟩ := List.append_of_mem hl.freep
  have hchain : Chain (ptr h.mem) (h.base :: fr.map start) h.base := hl.seg.chain
  have hperm : (h.freep :: l2 ++ l1).Perm (h.base :: fr.map start) := by
    rw [hN]
    exact List.perm_append_comm
  have hnd : (h.freep :: (l2 ++ l1)).Nodup := hperm.nodup_iff.mpr (hl.starts_lt.imp fun hab => hab.ne)
  have hlen : (l2 ++ l1).length = fr.length := by simpa using hperm.length_eq
  have hrot : Chain (ptr h.mem) (h.freep :: (l2 ++ l1)) h.freep := by
    have := hchain
    rw [hN] at this
    exact this.rotate (by rw [← hN, List.headD_cons])
  rcases mallocLoop_round hrot (List.nodup_cons.mp hnd).1 (hlen ▸ hf) with ⟨p, hp, hfit, he⟩ | ⟨hsmall, k, hk, he⟩
  · obtain ⟨h', fr', b, hcarve, hl', hb⟩ := hl.carve_eq hn (hperm.mem_iff.mp hp) hfit
    exact Or.inl ⟨h', fr', b, by rw [he, hcarve], hl', hb⟩
  · refine Or.inr ⟨fun c hc => ?_, k, by rw [hk, hlen], he⟩
    have hc' : c.start ∈ l2 ++ l1 ++ [h.freep] := by
      have := hperm.mem_iff.mpr (List.mem_cons_of_mem h.base (List.mem_map_of_mem (f := start) hc))
      simp only [List.mem_cons, List.mem_append] at this ⊢
      tauto
    have := hsmall _ hc'
    rwa [hl.seg.sizes c (List.mem_cons_of_mem _ hc)] at this

theorem sbrk_eq (hl : Layout h fr lv) {gap nu : ℕ} (hnu : 0 < nu) (htop : h.brk + gap + nu ≤ top) :
    Layout
      { h with
        mem := setSize h.mem (h.brk + gap) nu
        brk := h.brk + gap + nu
        calls := h.calls + 1
        core := ⟨h.brk + gap, nu⟩ :: h.core }
      fr (⟨h.brk + gap, nu⟩ :: lv) := by
  have hlow := hl.low
  have hsame : ∀ b ∈ fr ++ lv, b.start < h.brk + gap := by
    intro b hb
    have h1 := (hl.within hb).2
    have h2 := hl.pos b hb
    omega
  refine ⟨hl.basePos, by simp only; omega, htop, hl.freep, ?_, hl.apart, fun b hb => ?_, fun b hb => ?_, fun u => ?_,
    fun u => ?_, fun b hb => ?_⟩
  · refine hl.seg.congr fun b hb => setSize_of_ne ?_
    rcases List.mem_cons.mp hb with rfl | hb
    · simp only
      omega
    · exact (hsame b (List.mem_append_left lv hb)).ne
  · rcases List.mem_cons.mp hb with rfl | hb
    · simp only [setSize, update_self]
    · refine (congrArg Header.size (setSize_of_ne ?_)).trans (hl.liveSizes b hb)
      exact (hsame b (List.mem_append_right fr hb)).ne
  · simp only [List.mem_append, List.mem_cons] at hb
    rcases hb with hb | rfl | hb
    · exact hl.pos b (List.mem_append_left lv hb)
    · exact hnu
    · exact hl.pos b (List.mem_append_right fr hb)
  · have := hl.parts u
    rw [cover_cons, cover_cons]
    omega
  · -- what was there before ends before the new memory
    rw [cover_cons]
    have hone := hl.once u
    by_cases hu : (⟨h.brk + gap, nu⟩ : Extent).Covers u
    · have h0 : ¬0 < cover h.core u := by
        rw [cover_pos]
        rintro ⟨b, hb, hbu⟩
        have := (hl.bounds b hb).2
        simp only [Covers] at hu hbu
        omega
      rw [if_pos hu]
      omega
    · rw [if_neg hu]
      omega
  · simp only
    rcases List.mem_cons.mp hb with rfl | hb
    · simp only
      omega
    · have := hl.bounds b hb
      omega

theorem morecore_eq (hl : Layout h fr lv) (os : ℕ → Option ℕ) (n : ℕ) : ∃ k r, morecore os k h n = some r ∧
    (r = ({ h with calls := h.calls + 1 }, 0) ∨
      ∃ fr', Layout r.1 fr' lv ∧ r.2 = r.1.freep ∧ ∃ c ∈ fr', n ≤ c.size) := by
  have hnu : 0 < (if n < 4096 then 4096 else n) ∧ n ≤ if n < 4096 then 4096 else n := by
    split <;> omega
  cases hos : os h.calls with
  | none => exact ⟨0, _, by simp only [morecore, sbrk, hos], Or.inl rfl⟩
  | some gap =>
    by_cases htop : h.brk + gap + (if n < 4096 then 4096 else n) ≤ top
    · have hl1 : Layout _ fr ([] ++ _ :: lv) := hl.sbrk_eq hnu.1 htop
      obtain ⟨h', fr', hfree, hl', c, hc, hsz⟩ := hl1.free_eq
      refine ⟨fr.length + 1, (h', h'.freep), ?_, Or.inr ⟨fr', hl', rfl, c, hc, hnu.2.trans hsz⟩⟩
      simp only [morecore, sbrk, hos, if_pos htop]
      rw [hfree _ (Nat.lt_succ_self _)]
      rfl
    · exact ⟨0, _, by simp only [morecore, sbrk, hos, if_neg htop], Or.inl rfl⟩

theorem mallocLoop_eq (hl : Layout h fr lv) (hn : 0 < n) {k : ℕ} {r : Heap × ℕ}
    (hmore : ∀ j, k ≤ j → more j h n = some r)
    (hr : r = ({ h with calls := h.calls + 1 }, 0) ∨
      ∃ fr', Layout r.1 fr' lv ∧ r.2 = r.1.freep ∧ ∃ c ∈ fr', n ≤ c.size) :
    ∃ k r, mallocLoop more k h n h.freep (h.mem h.freep).ptr = some r ∧
      (r = ({ h with calls := h.calls + 1 }, 0) ∨
        ∃ fr' b, Layout r.1 fr' (b :: lv) ∧ r.2 = b.start + 1 ∧ b.size = n) := by
  rcases hr with rfl | ⟨fr', hl', hp, c, hc, hsz⟩
  · rcases hl.round more hn (show fr.length < fr.length + 1 + k by omega) with
      ⟨h', fr', b, he, hl', hb⟩ | ⟨-, j, hj, he⟩
    · exact ⟨_, _, he, Or.inr ⟨fr', b, hl', rfl, hb⟩⟩
    · obtain rfl : j = k := by omega
      rw [hmore j le_rfl] at he
      exact ⟨_, _, he, Or.inl rfl⟩
  · -- the second time around starts at the block that morecore has made large enough
    rcases hl.round more hn (show fr.length < fr.length + 1 + (k + fr'.length + 1) by omega) with
      ⟨h', fr', b, he, hl', hb⟩ | ⟨-, j, hj, he⟩
    · exact ⟨_, _, he, Or.inr ⟨fr', b, hl', rfl, hb⟩⟩
    · obtain rfl : j = k + fr'.length + 1 := by omega
      rw [hmore _ (by omega), Option.bind_some, if_neg (hp ▸ hl'.freep_pos.ne'), hp] at he
      rcases hl'.round more hn (show fr'.length < k + fr'.length + 1 by omega) with
        ⟨h', fr'', b, he', hl'', hb⟩ | ⟨hsmall, -⟩
      · exact ⟨_, _, he.trans he', Or.inr ⟨fr'', b, hl'', rfl, hb⟩⟩
      · exact absurd (hsmall c hc) (Nat.not_lt.mpr hsz)

theorem mallocLoop_morecore (hl : Layout h fr lv) (os : ℕ → Option ℕ) (hn : 0 < n) :
    ∃ k r, mallocLoop (morecore os) k h n h.freep (h.mem h.freep).ptr = some r ∧
      (r = ({ h with calls := h.calls + 1 }, 0) ∨
        ∃ fr' b, Layout r.1 fr' (b :: lv) ∧ r.2 = b.start + 1 ∧ b.size = n) := by
  obtain ⟨k, r, hmore, hr⟩ := hl.morecore_eq os n
  exact hl.mallocLoop_eq hn (fun j hj => morecore_mono hmore hj) hr

end Layout

theorem ready_of_ne (hf : h.freep ≠ 0) : ready h = h := if_neg hf

theorem ready_system (h : Heap) :
    (ready h).base = h.base ∧ (ready h).core = h.core ∧ (ready h).calls = h.calls := by
  rw [ready]
  split
  · exact ⟨rfl, rfl, rfl⟩
  · exact ⟨rfl, rfl, rfl⟩

structure Client where
  heap : Heap
  live : List (ℕ × ℕ)

def liveBlock (a : ℕ × ℕ) : Extent := ⟨a.1 - 1, nunits a.2⟩

inductive Event
  | malloc (nbytes : ℕ)
  | free (ap : ℕ)
  | store (u : ℕ) (v : Header)

def Fits (nbytes : ℕ) : Prop := sizeofHeader * ((nbytes + sizeofHeader - 1) / sizeofHeader + 1) < 2 ^ 31

instance (nbytes : ℕ) : Decidable (Fits nbytes) := inferInstanceAs (Decidable (_ < _))

def Allowed (s : Client) : Event → Prop
  | .malloc nbytes => Fits nbytes
  | .free ap => ∃ a ∈ s.live, a.1 = ap
  | .store u _ => ∃ a ∈ s.live, a.1 ≤ u ∧ u < (liveBlock a).start + (liveBlock a).size

instance (s : Client) : (e : Event) → Decidable (Allowed s e)
  | .malloc nbytes => inferInstanceAs (Decidable (Fits nbytes))
  | .free ap => inferInstanceAs (Decidable (∃ a ∈ s.live, a.1 = ap))
  | .store u _ => inferInstanceAs (Decidable (∃ a ∈ s.live, a.1 ≤ u ∧ u < (liveBlock a).start + (liveBlock a).size))

def step (os : ℕ → Option ℕ) (fuel : ℕ) (s : Client) : Event → Option Client
  | .malloc nbytes => (malloc os fuel s.heap nbytes).map fun r =>
      ⟨r.1, if r.2 = 0 then s.live else (r.2, nbytes) :: s.live⟩
  | .free ap => (free fuel s.heap ap).map fun h => ⟨h, s.live.eraseP fun a => a.1 == ap⟩
  | .store u v => some ⟨{ s.heap with mem := update s.heap.mem u v }, s.live⟩

def Step (os : ℕ → Option ℕ) (s : Client) (e : Event) (t : Client) : Prop :=
  Allowed s e ∧ ∃ fuel, step os fuel s e = some t

def runCalls (os : ℕ → Option ℕ) (fuel : ℕ) : Client → List Event → Option Client
  | s, [] => some s
  | s, e :: es => if Allowed s e then (step os fuel s e).bind fun t => runCalls os fuel t es else none

theorem run_of_runCalls {s t : Client} {es : List Event} (hr : runCalls os fuel s es = some t) :
    Run (Step os) s es t := by
  induction es generalizing s with
  | nil =>
    cases hr
    exact .nil _
  | cons e es ih =>
    rw [runCalls] at hr
    split at hr
    · next ha =>
      obtain ⟨u, hu, hr⟩ := Option.bind_eq_some_iff.mp hr
      exact .cons ⟨ha, fuel, hu⟩ (ih hr)
    · cases hr

def fresh (mem : ℕ → Header) (base brk : ℕ) : Client := ⟨⟨mem, base, 0, brk, 0, []⟩, []⟩

structure Inv (s : Client) : Prop where
  heap : ∃ fr, Layout (ready s.heap) fr (s.live.map liveBlock)
  unused : s.heap.freep = 0 → s.live = []
  live : ∀ a ∈ s.live, 0 < a.1 ∧ Fits a.2

theorem nunits_eq {nbytes : ℕ} (hf : Fits nbytes) : nbytes ≤ sizeofHeader * (nunits nbytes - 1) := by
  simp only [Fits, nunits, sizeofHeader] at hf ⊢
  omega

theorem nunits_pos (nbytes : ℕ) : 0 < nunits nbytes := Nat.succ_pos _

theorem inv_fresh {mem : ℕ → Header} {base brk : ℕ} (hb : 0 < base) (hlow : base < brk) (htop : brk ≤ top) :
    Inv (fresh mem base brk) := by
  refine ⟨⟨[], hb, hlow, htop, List.mem_cons_self, ⟨⟨?_, trivial⟩, fun b hb => ?_⟩, List.pairwise_singleton _ _,
    by simp [fresh], by simp [fresh], fun u => rfl, fun u => Nat.zero_le 1, by simp [ready, fresh]⟩, fun _ => rfl,
    by simp [fresh]⟩
  · simp [ready, fresh, ptr]
  · rw [List.mem_singleton.mp hb]
    simp [ready, fresh]

theorem Layout.store (hl : Layout h fr lv) {b : Extent} {u : ℕ} (v : Header) (hb : b ∈ lv) (hu : b.start < u)
    (hu' : u < b.start + b.size) : Layout { h with mem := update h.mem u v } fr lv := by
  obtain ⟨lv1, lv2, rfl⟩ := List.append_of_mem hb
  have hne : ∀ c ∈ fr ++ (lv1 ++ b :: lv2), c.start ≠ u := by
    intro c hc
    by_cases he : c = b
    · rw [he]
      exact hu.ne
    · have hc' : c ∈ fr ++ (lv1 ++ lv2) := by
        simp only [List.mem_append, List.mem_cons] at hc ⊢
        tauto
      have h1 := hl.apart_live hc'
      have h2 := hl.pos c hc
      omega
  have hbase := (hl.within (List.mem_append_right fr hb)).1
  refine ⟨hl.basePos, hl.low, hl.high, hl.freep, hl.seg.update fun c hc => ?_, hl.apart, fun c hc => ?_, hl.pos,
    hl.parts, hl.once, hl.bounds⟩
  · rcases List.mem_cons.mp hc with rfl | hc
    · exact (hbase.trans hu).ne
    · exact hne c (List.mem_append_left _ hc)
  · simp only
    rw [update_of_ne (hne c (List.mem_append_right fr hc))]
    exact hl.liveSizes c hc

variable {s t : Client} {e : Event} {fuel' nbytes : ℕ} {r : Heap × ℕ}

theorem malloc_mono (hm : malloc os fuel h nbytes = some r) (hle : fuel ≤ fuel') : malloc os fuel' h nbytes = some r :=
  mallocLoop_mono morecore_mono hm hle

theorem step_mono (hs : step os fuel s e = some t) (hle : fuel ≤ fuel') : step os fuel' s e = some t := by
  cases e with
  | malloc nbytes =>
    obtain ⟨r, hr, he⟩ := Option.map_eq_some_iff.mp hs
    exact Option.map_eq_some_iff.mpr ⟨r, malloc_mono hr hle, he⟩
  | free ap =>
    obtain ⟨h, hf, he⟩ := Option.map_eq_some_iff.mp hs
    exact Option.map_eq_some_iff.mpr ⟨h, free_mono hf hle, he⟩
  | store u v => exact hs

theorem Inv.malloc_eq (hi : Inv s) (os : ℕ → Option ℕ) (nbytes : ℕ) : ∃ k r, malloc os k s.heap nbytes = some r ∧
    (r = ({ ready s.heap with calls := (ready s.heap).calls + 1 }, 0) ∨
      ∃ fr b, Layout r.1 fr (b :: s.live.map liveBlock) ∧ r.2 = b.start + 1 ∧ b.size = nunits nbytes) := by
  obtain ⟨fr, hl⟩ := hi.heap
  exact hl.mallocLoop_morecore os (nunits_pos nbytes)

theorem Inv.of_layout (fr : List Extent) (hl : Layout s.heap fr (s.live.map liveBlock))
    (hlive : ∀ a ∈ s.live, 0 < a.1 ∧ Fits a.2) : Inv s := by
  have hf : s.heap.freep ≠ 0 := hl.freep_pos.ne'
  refine ⟨⟨fr, ?_⟩, fun h0 => absurd h0 hf, hlive⟩
  rw [ready_of_ne hf]
  exact hl

theorem Inv.ready_eq (hi : Inv s) {a : ℕ × ℕ} (ha : a ∈ s.live) : ready s.heap = s.heap := by
  apply ready_of_ne
  intro h0
  rw [hi.unused h0] at ha
  cases ha

theorem Inv.step_eq (hi : Inv s) (ha : Allowed s e) (os : ℕ → Option ℕ) : ∃ k t, step os k s e = some t ∧ Inv t := by
  cases e with
  | malloc nbytes =>
    obtain ⟨k, r, hm, rfl | ⟨fr, b, hl, hr, hb⟩⟩ := hi.malloc_eq os nbytes
    · refine ⟨k, _, by rw [step, hm]; rfl, ?_⟩
      obtain ⟨fr, hl⟩ := hi.heap
      exact Inv.of_layout fr ⟨hl.basePos, hl.low, hl.high, hl.freep, hl.seg, hl.apart, hl.liveSizes, hl.pos,
        hl.parts, hl.once, hl.bounds⟩ hi.live
    · have hne : r.2 ≠ 0 := by omega
      refine ⟨k, _, by rw [step, hm, Option.map_some, if_neg hne], ?_⟩
      refine Inv.of_layout fr ?_ fun a ham => ?_
      · have hlb : liveBlock (r.2, nbytes) = b := by
          rw [liveBlock, hr, ← hb, Nat.add_sub_cancel]
        simp only [List.map_cons, hlb]
        exact hl
      · rcases List.mem_cons.mp ham with rfl | ham
        · exact ⟨Nat.pos_of_ne_zero hne, ha⟩
        · exact hi.live a ham
  | free ap =>
    obtain ⟨a, ham, rfl⟩ := ha
    obtain ⟨fr, hl⟩ := hi.heap
    rw [hi.ready_eq ham] at hl
    obtain ⟨c, l1, l2, -, hc, hlive, herase⟩ :=
      List.exists_of_eraseP (p := fun x => x.1 == a.1) ham (by simp)
    have hca : c.1 = a.1 := by simpa using hc
    have hcm : c ∈ s.live := by rw [hlive]; simp
    rw [hlive, List.map_append, List.map_cons] at hl
    obtain ⟨h', fr', hfree, hl', -⟩ := hl.free_eq
    have hst : (liveBlock c).start + 1 = a.1 := by
      have := (hi.live c hcm).1
      simp only [liveBlock]
      omega
    rw [hst] at hfree
    refine ⟨fr.length + 1, ⟨h', s.live.eraseP fun x => x.1 == a.1⟩, ?_, ?_⟩
    · rw [step, hfree _ (Nat.lt_succ_self _)]
      rfl
    · refine Inv.of_layout fr' ?_ fun x hx => hi.live x (List.mem_of_mem_eraseP hx)
      simp only [herase, List.map_append]
      exact hl'
  | store u v =>
    obtain ⟨a, ham, hu, hu'⟩ := ha
    obtain ⟨fr, hl⟩ := hi.heap
    rw [hi.ready_eq ham] at hl
    have hpos := (hi.live a ham).1
    refine ⟨0, _, rfl, Inv.of_layout fr ?_ hi.live⟩
    exact hl.store v (List.mem_map_of_mem ham) (by simp only [liveBlock]; omega) hu'

theorem Inv.step (hi : Inv s) (hs : Step os s e t) : Inv t := by
  obtain ⟨ha, fuel, hs⟩ := hs
  obtain ⟨k, t', ht, hi'⟩ := hi.step_eq ha os
  have h1 := step_mono hs (Nat.le_max_left fuel k)
  rw [step_mono ht (Nat.le_max_right fuel k)] at h1
  cases h1
  exact hi'

structure WellFormed (s : Client) (fr : List Extent) : Prop where
  unused : s.heap.freep = 0 → fr = [] ∧ s.live = []
  circular : s.heap.freep ≠ 0 → ∃ lo hi, s.heap.base :: fr.map start = lo ++ s.heap.freep :: hi ∧
    Chain (ptr s.heap.mem) (s.heap.freep :: hi ++ lo) s.heap.freep
  ascending : (s.heap.base :: fr.map start).Pairwise (· < ·)
  headers : ∀ b ∈ fr ++ s.live.map liveBlock, (s.heap.mem b.start).size = b.size
  disjoint : (fr ++ s.live.map liveBlock).Pairwise fun b c => ∀ u, ¬(b.Covers u ∧ c.Covers u)
  whole : ∀ u, (∃ b ∈ fr ++ s.live.map liveBlock, b.Covers u) ↔ ∃ b ∈ s.heap.core, b.Covers u
  separate : fr.Pairwise fun b c => b.start + b.size ≠ c.start ∧ c.start + c.size ≠ b.start
  room : ∀ a ∈ s.live, a.2 ≤ sizeofHeader * ((s.heap.mem (a.1 - 1)).size - 1)

theorem Layout.unused (hl : Layout (ready h) fr lv) (h0 : h.freep = 0) : fr = [] := by
  have hseg := (seg_cons.mp hl.seg).1
  have hlt := hl.starts_lt
  rw [ready, if_pos h0] at hseg hlt
  cases fr with
  | nil => rfl
  | cons c fr =>
    have hptr : h.base = c.start := by simpa using congrArg Header.ptr hseg
    exact absurd ((List.pairwise_cons.mp hlt).1 c.start (by simp)) (by simp only [hptr, lt_irrefl, not_false_iff])

theorem Inv.wellFormed (hi : Inv s) : ∃ fr, WellFormed s fr := by
  obtain ⟨fr, hl⟩ := hi.heap
  obtain ⟨hbase, hcore, -⟩ := ready_system s.heap
  have hheaders : ∀ b ∈ fr ++ s.live.map liveBlock, (s.heap.mem b.start).size = b.size := by
    by_cases h0 : s.heap.freep = 0
    · rw [hl.unused h0, hi.unused h0]
      simp
    · rw [ready_of_ne h0] at hl
      intro b hb
      rcases List.mem_append.mp hb with hb | hb
      · exact hl.seg.sizes b (List.mem_cons_of_mem _ hb)
      · exact hl.liveSizes b hb
  refine ⟨fr, fun h0 => ⟨hl.unused h0, hi.unused h0⟩, fun h0 => ?_, hbase ▸ hl.starts_lt, hheaders,
    pairwise_of_cover hl.cover_le, fun u => ?_, (List.pairwise_cons.mp hl.apart).2.imp fun {b c} hbc => ?_,
    fun a ha => ?_⟩
  · rw [ready_of_ne h0] at hl
    obtain ⟨lo, up, hN⟩ := List.append_of_mem hl.freep
    have hchain : Chain (ptr s.heap.mem) (s.heap.base :: fr.map start) s.heap.base := hl.seg.chain
    refine ⟨lo, up, hN, ?_⟩
    rw [hN] at hchain
    exact hchain.rotate (by rw [← hN, List.headD_cons])
  · rw [← cover_pos, cover_append, hl.parts, hcore, cover_pos]
  · simp only [Before] at hbc
    omega
  · have hsz := hheaders (liveBlock a) (List.mem_append_right fr (List.mem_map_of_mem ha))
    simp only [liveBlock] at hsz
    rw [hsz]
    exact nunits_eq (hi.live a ha).2

/-- Along every run the heap is well formed, every call ends, and a `malloc` that returns 0 leaves the heap as it
was, the first call's static header apart. -/
theorem user_heap {mem : ℕ → Header} {base brk : ℕ} {es : List Event} (hb : 0 < base) (hlow : base < brk)
    (htop : brk ≤ top) (hr : Run (Step os) (fresh mem base brk) es s) :
    (∃ fr, WellFormed s fr) ∧
    (∀ e, Allowed s e → ∃ k t, ∀ fuel, k ≤ fuel → step os fuel s e = some t) ∧
    ∀ nbytes fuel h', Fits nbytes → malloc os fuel s.heap nbytes = some (h', 0) →
      h' = { ready s.heap with calls := s.heap.calls + 1 } := by
  have hi : Inv s := hr.always (fun _ _ _ hi hs => hi.step hs) (inv_fresh hb hlow htop)
  refine ⟨hi.wellFormed, fun e ha => ?_, fun nbytes fuel h' _ hm => ?_⟩
  · obtain ⟨k, t, ht, -⟩ := hi.step_eq ha os
    exact ⟨k, t, fun fuel hf => step_mono ht hf⟩
  · obtain ⟨k, r, hr, hcase⟩ := hi.malloc_eq os nbytes
    have h1 := malloc_mono hm (Nat.le_max_left fuel k)
    rw [malloc_mono hr (Nat.le_max_right fuel k)] at h1
    cases h1
    rcases hcase with he | ⟨fr, b, -, h0, -⟩
    · rw [(ready_system s.heap).2.2] at he
      exact congrArg Prod.fst he
    · exact absurd h0 (Nat.succ_ne_zero b.start).symm

/-- Two blocks from the tail of the first memory, the first of them freed again, and a request that `sbrk` refuses. -/
theorem user_heap_calls : ∃ s, Run (Step fun i => if i = 0 then some 0 else none) (fresh (fun _ => ⟨0, 0⟩) 1 2)
    [.malloc 20, .malloc 9, .free 4095, .store 4092 ⟨7, 7⟩, .malloc 40000] s ∧ s.live = [(4092, 9)] ∧
    ∃ fr, WellFormed s fr := by
  have h : (runCalls (fun i => if i = 0 then some 0 else none) 5 (fresh (fun _ => ⟨0, 0⟩) 1 2)
      [.malloc 20, .malloc 9, .free 4095, .store 4092 ⟨7, 7⟩, .malloc 40000]).map
      (fun s => decide (s.live = [(4092, 9)])) = some true := by decide +kernel
  obtain ⟨s, hs, hd⟩ := Option.map_eq_some_iff.mp h
  have hrun := run_of_runCalls hs
  exact ⟨s, hrun, of_decide_eq_true hd, (user_heap (by decide) (by decide) (by decide) hrun).1⟩

end Xv6.Umalloc
