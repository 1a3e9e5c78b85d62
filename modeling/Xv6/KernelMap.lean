import Xv6.PageUnmap

namespace Xv6.Vm

open Xv6.ByteMemory Xv6.Ownership

def Kmap.size (k : Kmap) : ℕ := (k.phys_end + 2 ^ 32 - k.phys_start) % 2 ^ 32

def Kmap.span (k : Kmap) : Set ℕ := Set.Ico (k.virt / PGSIZE) (k.virt / PGSIZE + k.size / PGSIZE)

structure Kmap.Proper (k : Kmap) : Prop where
  virt_aligned : k.virt % PGSIZE = 0
  phys_aligned : k.phys_start % PGSIZE = 0
  size_aligned : k.size % PGSIZE = 0
  size_pos : 0 < k.size
  kernel : KERNBASE ≤ k.virt
  virt_le : k.virt + k.size ≤ 2 ^ 32
  phys_le : k.phys_start + k.size ≤ 2 ^ 32
  perm_lt : k.perm < PTE_U

def rooted (d : ℕ) : Set Role := {r | r.root = d}

section

variable {L : Layout} {A : Set Role} {M : Set ℕ} {m : PhysMem} {d i v : ℕ}

theorem Kmap.Proper.loop {k : Kmap} (hk : k.Proper) : ∃ n, k.span = Set.Ico (k.virt / PGSIZE)
    (k.virt / PGSIZE + n + 1) ∧
    userPages ≤ k.virt / PGSIZE ∧ k.virt / PGSIZE + n < 2 ^ 20 ∧ k.phys_start / PGSIZE + n < 2 ^ 20 ∧
    ∀ m d, mappages m d k.virt k.size k.phys_start k.perm =
      mapLoop d k.perm n (k.virt / PGSIZE * PGSIZE) (k.phys_start / PGSIZE * PGSIZE) m := by
  obtain ⟨h1, h2, h3, h4, h5, h6, h7, -⟩ := hk
  obtain ⟨n, hn⟩ : ∃ n, k.size = (n + 1) * PGSIZE := ⟨k.size / PGSIZE - 1, by simp only [PGSIZE] at *; omega⟩
  have hv : k.virt = k.virt / PGSIZE * PGSIZE := by simp only [PGSIZE] at *; omega
  have hq : k.phys_start = k.phys_start / PGSIZE * PGSIZE := by simp only [PGSIZE] at *; omega
  have hvn : k.virt / PGSIZE + n < 2 ^ 20 := by simp only [PGSIZE] at *; omega
  refine ⟨n, ?_, by simp only [userPages, KERNBASE, PGSIZE] at *; omega, hvn, by simp only [PGSIZE] at *; omega, ?_⟩
  · have hdiv : (n + 1) * PGSIZE / PGSIZE = n + 1 := Nat.mul_div_cancel _ (by decide)
    rw [Kmap.span, hn, hdiv, Nat.add_assoc]
  · intro m d
    rw [hn, ← hq, ← mappages_eq hvn, ← hv]

theorem segment_spec (hd : ∀ i, .table d i ∈ A) {k : Kmap} (hk : k.Proper) (hI : Inv L A M m)
    (habs : ∀ x ∈ k.span, ¬present (pte m d x)) :
    ∃ b m', mappages m d k.virt k.size k.phys_start k.perm = .ok (b, m') ∧ Inv L A M m' ∧
      MapSet A d k.span m m' ∧ (b = false → m'.freelist = [] ∧ ∃ x ∈ k.span, ¬present (pde m' d (x / 1024))) ∧
      (b = true → ∀ x ∈ k.span, present (pde m' d (x / 1024))) := by
  obtain ⟨n, hspan, hu, hvn, hqn, hloop⟩ := hk.loop
  rw [hspan] at habs ⊢
  rw [hloop]
  exact mapLoop_kernel hd hk.perm_lt n _ _ m hI hu hvn hqn habs

theorem mapSegments_spec (hd : ∀ i, .table d i ∈ A) (ks : List Kmap) (m : PhysMem) (hI : Inv L A M m)
    (hks : ∀ k ∈ ks, k.Proper) (hdis : ks.Pairwise fun k k' => Disjoint k.span k'.span)
    (habs : ∀ k ∈ ks, ∀ x ∈ k.span, ¬present (pte m d x)) :
    ∃ b m', mapSegments d ks m = .ok (b, m') ∧ Inv L A M m' ∧ MapSet A d {x | ∃ k ∈ ks, x ∈ k.span} m m' ∧
      (b = false → m'.freelist = [] ∧ ∃ k ∈ ks, ∃ x ∈ k.span, ¬present (pde m' d (x / 1024))) ∧
      (b = true → ∀ k ∈ ks, ∀ x ∈ k.span, present (pde m' d (x / 1024))) := by
  induction ks generalizing m with
  | nil => exact ⟨true, m, rfl, hI, MapSet.refl A d _ m, by simp, by simp⟩
  | cons k ks ih =>
    have hk := hks k List.mem_cons_self
    have hk1 : k.span ⊆ {x | ∃ k' ∈ k :: ks, x ∈ k'.span} := fun x hx => ⟨k, List.mem_cons_self, hx⟩
    have hks1 : {x | ∃ k' ∈ ks, x ∈ k'.span} ⊆ {x | ∃ k' ∈ k :: ks, x ∈ k'.span} :=
      fun x ⟨k', hk', hx⟩ => ⟨k', List.mem_cons_of_mem _ hk', hx⟩
    rw [List.pairwise_cons] at hdis
    obtain ⟨b, m1, he, hI1, hm1, hb0, hb1⟩ := segment_spec hd hk hI (habs k List.mem_cons_self)
    have he' : mappages m d k.virt ((k.phys_end + 2 ^ 32 - k.phys_start) % 2 ^ 32) k.phys_start k.perm =
        .ok (b, m1) := he
    cases b with
    | false =>
      refine ⟨false, m1, ?_, hI1, hm1.mono hk1, fun hb => ⟨(hb0 hb).1, k, List.mem_cons_self, (hb0 hb).2⟩, by simp⟩
      simp only [mapSegments, he', Outcome.ok_bind]
      rfl
    | true =>
      obtain ⟨b, m', heR, hI', hm', hc0, hc1⟩ := ih m1 hI1 (fun k' h => hks k' (List.mem_cons_of_mem _ h)) hdis.2 (by
        intro k' hk' x hx
        have hxk := (hks k' (List.mem_cons_of_mem _ hk'))
        have hx20 : x < 2 ^ 20 := by
          have h1 := hxk.virt_le
          have h2 := (Set.mem_Ico.mp hx).2
          simp only [PGSIZE] at *
          omega
        rw [hm1.entries d x (hd _) hx20 (fun _ hxk => Set.disjoint_left.mp (hdis.1 k' hk') hxk hx)]
        exact habs k' (List.mem_cons_of_mem _ hk') x hx)
      refine ⟨b, m', ?_, hI', (hm1.trans hm').mono (Set.union_subset hk1 hks1), ?_, ?_⟩
      · simp only [mapSegments, he', Outcome.ok_bind]
        exact heR
      · intro hb
        obtain ⟨hf, k', hk', hx⟩ := hc0 hb
        exact ⟨hf, k', List.mem_cons_of_mem _ hk', hx⟩
      · intro hb k' hk' x hx
        rcases List.mem_cons.mp hk' with rfl | hk'
        · have hx20 : x < 2 ^ 20 := by
            have h1 := hk.virt_le
            have h2 := (Set.mem_Ico.mp hx).2
            simp only [PGSIZE] at *
            omega
          exact hm'.keep _ (div_lt_entries hx20) (hb1 rfl x hx)
        · exact hc1 hb k' hk' x hx

theorem kmap_proper (L : Layout) : ∀ k ∈ kmap L, k.Proper := by
  have h1 := L.data_aligned
  have h2 := L.text_nonempty
  have h3 := L.data_lt_end
  have h4 := L.end_le
  simp only [kmap, List.forall_mem_cons, List.not_mem_nil, IsEmpty.forall_iff, implies_true, and_true]
  simp only [KERNLINK, KERNBASE, EXTMEM, PHYSTOP, PGSIZE] at h1 h2 h3 h4
  refine ⟨?_, ?_, ?_, ?_⟩ <;> constructor <;>
    simp only [Kmap.size, V2P, KERNLINK, KERNBASE, EXTMEM, PHYSTOP, DEVSPACE, PGSIZE, PTE_W, PTE_U] <;> omega

theorem kmap_span (L : Layout) (x : ℕ) : (∃ k ∈ kmap L, x ∈ k.span) ↔
    (524288 ≤ x ∧ x < 581632) ∨ (1040384 ≤ x ∧ x < 1048576) := by
  have h1 := L.data_aligned
  have h2 := L.text_nonempty
  have h3 := L.data_lt_end
  have h4 := L.end_le
  simp only [kmap, List.exists_mem_cons_iff, List.not_mem_nil, false_and, exists_false, or_false, Kmap.span,
    Set.mem_Ico, Kmap.size]
  simp only [V2P, KERNLINK, KERNBASE, EXTMEM, PHYSTOP, DEVSPACE, PGSIZE] at *
  omega

theorem kmap_disjoint (L : Layout) : (kmap L).Pairwise fun k k' => Disjoint k.span k'.span := by
  have h1 := L.data_aligned
  have h2 := L.text_nonempty
  have h3 := L.data_lt_end
  have h4 := L.end_le
  simp only [kmap, List.pairwise_cons, List.forall_mem_cons, List.not_mem_nil, IsEmpty.forall_iff, implies_true,
    and_true, List.Pairwise.nil, Kmap.span, Set.Ico_disjoint_Ico, Kmap.size]
  simp only [V2P, KERNLINK, KERNBASE, EXTMEM, PHYSTOP, DEVSPACE, PGSIZE] at *
  omega

def kernelTables : Finset ℕ := Finset.Ico 512 568 ∪ Finset.Ico 1016 1024

theorem kernelTables_card : kernelTables.card = 64 := by decide +kernel

theorem mem_kernelTables (L : Layout) (i : ℕ) :
    i ∈ kernelTables ↔ ∃ x, (∃ k ∈ kmap L, x ∈ k.span) ∧ x / 1024 = i := by
  simp only [kernelTables, Finset.mem_union, Finset.mem_Ico, kmap_span]
  constructor
  · intro h
    exact ⟨i * 1024, by omega⟩
  · rintro ⟨x, h, rfl⟩
    omega

theorem closed_rooted (hA : Closed A) (d : ℕ) : Closed (A ∪ rooted d) := by
  refine ⟨?_, ?_⟩
  · rintro d' i (h | h)
    · exact Or.inl (hA.dir d' i h)
    · exact Or.inr h
  · rintro d' v (h | h)
    · exact Or.inl (hA.table d' v h)
    · exact Or.inr h

theorem Inv.root_notMem (hI : Inv L A M m) (hd : d ∉ M) (r : Role) (hr : r.root = d) : r ∉ A := by
  have hdir : .dir d ∉ A := fun h => hd (hI.dir_mem h)
  intro h
  cases r with
  | dir d' => exact hdir (by simpa only [Role.root, ← hr] using h)
  | table d' i => exact hdir (by simpa only [Role.root, ← hr] using hI.closed.dir d' i h)
  | frame d' v => exact hdir (by simpa only [Role.root, ← hr] using hI.closed.dir d' _ (hI.closed.table d' v h))

theorem mem_rooted (r : Role) (hr : r.root = d) : r ∈ A ∪ rooted d := Or.inr hr

theorem without_rooted (hd : Avoids A d) : without (A ∪ rooted d) d = A := by
  ext r
  constructor
  · rintro ⟨h | h, hne⟩
    · exact h
    · exact absurd h hne
  · intro h
    exact ⟨Or.inl h, fun hr => hd r hr h⟩

theorem zero_views : pde (m.setPage d zero) d i = 0 ∧ pte (m.setPage d zero) d v = 0 := by
  have h : ∀ i, pde (m.setPage d zero) d i = 0 := by
    intro i
    simp only [pde, setPage_mem_self, word_zero]
  refine ⟨h i, pte_of_absent ?_⟩
  rw [h]
  exact present_zero

theorem Inv.newDir (hI : Inv L A M m) (hd : d ∉ M) (hmd : Managed L d) :
    Inv L (A ∪ rooted d) (insert d M) (m.setPage d zero) := by
  have hI1 := hI.same (hI.same_setPage hd zero) rfl
  have hroot := hI.root_notMem hd
  refine ⟨closed_rooted hI.closed d, hI.nodup, ?_, ?_⟩
  · apply hI1.ledger.assign (r := .dir d) hd
    · exact if_neg (hroot _ rfl)
    · exact if_pos (Or.inr rfl)
    · intro r hr
      simp only [owned]
      by_cases he : r.root = d
      · have hmem : r ∈ A ∪ rooted d := Or.inr he
        rw [if_neg (hroot r he), if_pos hmem]
        cases r with
        | dir d' => exact absurd (by rw [← he]; rfl) hr
        | table d' i =>
          cases he
          simp only [held, Role.root, (zero_views (v := 0)).1, present_zero, and_false, if_false]
        | frame d' v =>
          cases he
          simp only [held, Role.root, (zero_views (i := 0)).2, present_zero, and_false, if_false]
      · by_cases hrA : r ∈ A
        · have hmem : r ∈ A ∪ rooted d := Or.inl hrA
          rw [if_pos hrA, if_pos hmem]
        · rw [if_neg hrA, if_neg (fun h : r ∈ A ∪ rooted d => h.elim hrA he)]
  · rintro q (rfl | hq)
    · exact hmd
    · exact hI.managed q hq

theorem Inv.newRoot (hI : Inv L A M m) {ps : List ℕ} (hf : m.freelist = d :: ps) :
    Inv L (A ∪ rooted d) M (({ m with freelist := ps } : PhysMem).setPage d zero) ∧ Avoids A d ∧
      Same A m (({ m with freelist := ps } : PhysMem).setPage d zero) := by
  obtain ⟨hdM, hI0⟩ := hI.kalloc hf
  have hdn : d ∉ M \ {d} := by simp
  have hs0 : Same A m { m with freelist := ps } := (Same.refl A m).of_mem rfl
  refine ⟨?_, hI0.root_notMem hdn, hs0.trans (hI0.same_setPage hdn zero)⟩
  have h := hI0.newDir hdn (hI.managed d hdM)
  rw [Set.insert_sdiff_singleton, Set.insert_eq_of_mem hdM] at h
  exact h

theorem setupkvm_eq {ps : List ℕ} (hf : m.freelist = d :: ps) : setupkvm L m = (do
    let (mapped, m) ← mapSegments d (kmap L) (({ m with freelist := ps } : PhysMem).setPage d zero)
    if mapped then .ok (some d, m)
    else
      let m ← freevm L m (some d)
      .ok (none, m)) := by
  simp only [setupkvm, kalloc, hf]
  rw [if_neg (by decide : ¬DEVSPACE < KERNBASE + PHYSTOP)]

theorem setupkvm_spec (hI : Inv L A M m) :
    (∃ m', setupkvm L m = .ok (none, m') ∧ Inv L A M m' ∧ Same A m m' ∧ m.freelist.length < 65) ∨
    ∃ d m', setupkvm L m = .ok (some d, m') ∧ Avoids A d ∧ Inv L (A ∪ rooted d) M m' ∧
      Same A m m' ∧ (∀ i, i < NPDENTRIES → (present (pde m' d i) ↔ i ∈ kernelTables)) ∧
      (∀ v, v < 2 ^ 20 → ¬userBit (pte m' d v)) ∧ m.freelist.length = m'.freelist.length + 65 := by
  cases hf : m.freelist with
  | nil =>
    refine Or.inl ⟨m, ?_, hI, Same.refl A m, by simp⟩
    simp only [setupkvm, kalloc, hf]
  | cons d ps =>
    obtain ⟨hI1, hroot, hs1⟩ := hI.newRoot hf
    have heq := setupkvm_eq (L := L) hf
    set m1 : PhysMem := ({ m with freelist := ps } : PhysMem).setPage d zero with hm1
    have hall : Spans (A ∪ rooted d) d := fun r hr => Or.inr hr
    have hzero : tables m1 d = 0 := by
      simp only [tables, Finset.card_eq_zero, Finset.filter_eq_empty_iff]
      intro i _
      rw [(zero_views (v := 0)).1]
      exact present_zero
    obtain ⟨b, m2, he, hI2, hm, hb0, hb1⟩ := mapSegments_spec (fun i => hall (.table d i) rfl) (kmap L) m1 hI1
      (kmap_proper L) (kmap_disjoint L) (fun k _ x _ => by rw [(zero_views (i := 0)).2]; exact present_zero)
    have hs2 : Same A m1 m2 := by
      refine ⟨?_, ?_⟩
      · intro d' i hd' hi
        exact hm.dirs d' i (Or.inl hd') hi (fun h => absurd hd' (hroot _ h))
      · intro d' v ht hv
        exact hm.entries d' v (Or.inl ht) hv (fun h => absurd ht (hroot _ h))
    have hsub : ∀ i, i < NPDENTRIES → present (pde m2 d i) → i ∈ kernelTables := by
      intro i hi hp
      by_contra hn
      rw [hm.dirs d i (hall _ rfl) hi (fun _ x hx hxi => hn ((mem_kernelTables L i).mpr ⟨x, hx, hxi⟩)),
        (zero_views (v := 0)).1] at hp
      exact present_zero hp
    have hcost : ps.length = m2.freelist.length + tables m2 d := by
      have h := hm.cost
      rw [hzero, Nat.add_zero] at h
      exact h
    have hun : setupkvm L m = (if b then .ok (some d, m2) else do
        let m ← freevm L m2 (some d)
        .ok (none, m)) := by
      rw [heq, he]
      rfl
    cases b with
    | false =>
      obtain ⟨m3, he3, hI3, hs3⟩ := freevm_spec hall hI2
      rw [without_rooted hroot] at hI3 hs3
      refine Or.inl ⟨m3, ?_, hI3, (hs1.trans hs2).trans hs3, ?_⟩
      · rw [hun, he3]
        rfl
      · obtain ⟨hnil, k, hk, x, hx, hp⟩ := hb0 rfl
        have hlt : tables m2 d < kernelTables.card := by
          apply Finset.card_lt_card
          refine Finset.ssubset_iff_of_subset ?_ |>.mpr ⟨x / 1024, (mem_kernelTables L _).mpr ⟨x, ⟨k, hk, hx⟩, rfl⟩, ?_⟩
          · intro i hi
            rw [Finset.mem_filter, Finset.mem_range] at hi
            exact hsub i hi.1 hi.2
          · intro hi
            exact hp (Finset.mem_filter.mp hi).2
        have hcard := kernelTables_card
        rw [hnil, List.length_nil] at hcost
        simp only [List.length_cons]
        omega
    | true =>
      refine Or.inr ⟨d, m2, by rw [hun]; rfl, hroot, hI2, hs1.trans hs2, ?_, ?_, ?_⟩
      · intro i hi
        refine ⟨hsub i hi, ?_⟩
        intro hk
        obtain ⟨x, ⟨k, hkm, hx⟩, rfl⟩ := (mem_kernelTables L i).mp hk
        exact hb1 rfl k hkm x hx
      · intro v hv
        refine hm.user v hv ?_
        rw [(zero_views (i := 0)).2]
        decide
      · have hset : ((Finset.range NPDENTRIES).filter fun i => present (pde m2 d i)) = kernelTables := by
          ext i
          rw [Finset.mem_filter, Finset.mem_range]
          constructor
          · exact fun h => hsub i h.1 h.2
          · intro hk
            have hi : i < NPDENTRIES := by
              simp only [kernelTables, Finset.mem_union, Finset.mem_Ico] at hk
              simp only [NPDENTRIES]
              omega
            obtain ⟨x, ⟨k, hkm, hx⟩, rfl⟩ := (mem_kernelTables L i).mp hk
            exact ⟨hi, hb1 rfl k hkm x hx⟩
        rw [tables, hset, kernelTables_card] at hcost
        simp only [List.length_cons]
        omega

end

end Xv6.Vm
