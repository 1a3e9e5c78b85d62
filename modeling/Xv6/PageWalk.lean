import Xv6.PageLedger

namespace Xv6.Vm

open Xv6.ByteMemory Xv6.Ownership

structure SetPte (A : Set Role) (d v w : ℕ) (m m' : PhysMem) : Prop where
  dirs : ∀ d' i, .dir d' ∈ A → i < NPDENTRIES → pde m' d' i = pde m d' i
  entries : ∀ d' v', .table d' (v' / 1024) ∈ A → v' < 2 ^ 20 →
    pte m' d' v' = if d' = d ∧ v' = v then w else pte m d' v'

structure Walked (A : Set Role) (d i : ℕ) (m m' : PhysMem) : Prop where
  here : present (pde m' d i)
  dirs : ∀ d' j, .dir d' ∈ A → j < NPDENTRIES → (d' = d → j ≠ i) → pde m' d' j = pde m d' j
  entries : ∀ d' v, .table d' (v / 1024) ∈ A → v < 2 ^ 20 → pte m' d' v = pte m d' v
  cost : present (pde m d i) ∧ m' = m ∨ ¬present (pde m d i) ∧ m.freelist.length = m'.freelist.length + 1

section

variable {L : Layout} {A B : Set Role} {M : Set ℕ} {m m' : PhysMem} {d i v p w : ℕ}

theorem Inv.installTable (hI : Inv L A M m) (ht : .table d i ∈ A) (hi : i < NPDENTRIES)
    (habs : ¬present (pde m d i)) (hp : p ∉ M) (hmp : Managed L p)
    (hm' : m' = (m.setPage p zero).setEntry d i (p * PGSIZE ||| PTE_P ||| PTE_W ||| PTE_U)) :
    Inv L A (insert p M) m' ∧ pde m' d i = p * PGSIZE + 7 ∧
      (∀ d' j, .dir d' ∈ A → j < NPDENTRIES → (d' = d → j ≠ i) → pde m' d' j = pde m d' j) ∧
      (∀ d' v, .table d' (v / 1024) ∈ A → v < 2 ^ 20 → pte m' d' v = pte m d' v) := by
  rw [pde_word] at hm'
  have hd : .dir d ∈ A := hI.closed.dir d i ht
  have hdp : p ≠ d := by rintro rfl; exact hp (hI.dir_mem hd)
  have hs := hI.same_setPage hp zero
  have hI1 : Inv L A M (m.setPage p zero) := hI.same hs rfl
  have hw : p * PGSIZE + 7 < 2 ^ 32 := by
    have := hmp.2
    simp only [PHYSTOP] at this
    omega
  have hnew : pde m' d i = p * PGSIZE + 7 := by
    simp only [pde, hm', word_setEntry _ _ _ hw, if_true]
  have hpde : ∀ d' j, .dir d' ∈ A → j < NPDENTRIES → (d' = d → j ≠ i) → pde m' d' j = pde m d' j := by
    intro d' j hd' hj hne
    by_cases he : d' = d
    · subst he
      rw [← hs.dirs d' j hd' hj]
      simp only [pde, hm', word_setEntry _ _ _ hw, if_neg (hne rfl)]
    · rw [← hs.dirs d' j hd' hj, hm', pde_setEntry_ne _ _ _ _ he]
  have hpte : ∀ d' v, .table d' (v / 1024) ∈ A → v < 2 ^ 20 → pte m' d' v = pte m d' v := by
    intro d' v ht' hv
    by_cases he : d' = d ∧ v / 1024 = i
    · obtain ⟨rfl, rfl⟩ := he
      have hpr : present (pde m' d' (v / 1024)) := by
        rw [hnew]
        simp only [present, PGSIZE]
        omega
      rw [pte_of_absent habs, pte_of_present hpr, hnew, frameOf_add p (by decide), hm',
        setEntry_mem_ne _ _ _ hdp, setPage_mem_self, word_zero]
    · have hne : d' = d → v / 1024 ≠ i := fun h1 h2 => he ⟨h1, h2⟩
      have hd' := hI.closed.dir _ _ ht'
      have hj := div_lt_entries hv
      have hp1 := hpde d' _ hd' hj hne
      rw [← hs.entries d' v ht' hv]
      have hp2 := hs.dirs d' _ hd' hj
      simp only [pte, hp1, hp2]
      split_ifs with hpr
      · rw [hm', setEntry_mem_ne]
        rw [← hp2] at hpr ⊢
        exact (hI1.table_ne_dir ht' hj hpr hd).symm
      · rfl
  refine ⟨⟨hI.closed, ?_, ?_, ?_⟩, hnew, hpde, hpte⟩
  · rw [hm']
    exact hI.nodup
  · have hfree : m'.freelist = m.freelist := by rw [hm']; rfl
    rw [hfree]
    apply hI.ledger.assign (r := .table d i) hp
    · simp only [owned, held, habs, and_false, if_false, ite_self]
    · have hpr : present (pde m' d i) := by
        rw [hnew]
        simp only [present, PGSIZE]
        omega
      rw [table_owned ht hi hpr, hnew, frameOf_add p (by decide)]
    · intro r hr
      simp only [owned]
      split_ifs with hrA
      · apply held_congr
        · rintro d' j rfl hj
          exact hpde d' j (hI.closed.dir _ _ hrA) hj (by rintro rfl rfl; exact hr rfl)
        · rintro d' v rfl hv
          rw [userPages_eq] at hv
          exact hpte d' v (hI.closed.table _ _ hrA) (by omega)
      · rfl
  · rintro q (rfl | hq)
    · exact hmp
    · exact hI.managed q hq

theorem walkpgdir_present {va : ℕ} {alloc : Bool} (hp : present (pde m d (PDX va))) :
    walkpgdir m d va alloc = (some (frameOf (pde m d (PDX va)), PTX va), m) := by
  simp only [walkpgdir]
  exact if_pos hp

theorem walkpgdir_absent {va : ℕ} (hp : ¬present (pde m d (PDX va))) : walkpgdir m d va false = (none, m) := by
  simp only [walkpgdir]
  exact (if_neg hp).trans rfl

theorem walkpgdir_alloc (hI : Inv L A M m) (va : ℕ) (ht : .table d (PDX va) ∈ A) (hva : PDX va < NPDENTRIES) :
    (m.freelist = [] ∧ ¬present (pde m d (PDX va)) ∧ walkpgdir m d va true = (none, m)) ∨
    ∃ m', walkpgdir m d va true = (some (frameOf (pde m' d (PDX va)), PTX va), m') ∧ Inv L A M m' ∧
      Walked A d (PDX va) m m' := by
  by_cases hp : present (pde m d (PDX va))
  · exact Or.inr ⟨m, walkpgdir_present hp, hI, hp, fun _ _ _ _ _ => rfl, fun _ _ _ _ => rfl, Or.inl ⟨hp, rfl⟩⟩
  · cases hf : m.freelist with
    | nil =>
      refine Or.inl ⟨rfl, hp, ?_⟩
      simp only [walkpgdir, kalloc, hf]
      exact (if_neg hp).trans rfl
    | cons q qs =>
      obtain ⟨hq, hI1⟩ := hI.kalloc hf
      obtain ⟨hI2, hnew, hpde, hpte⟩ := hI1.installTable ht hva hp (p := q) (by simp) (hI.managed q hq) rfl
      rw [Set.insert_sdiff_singleton, Set.insert_eq_of_mem hq] at hI2
      refine Or.inr ⟨_, ?_, hI2, ?_, hpde, hpte, Or.inr ⟨hp, ?_⟩⟩
      · rw [hnew, frameOf_add q (by decide)]
        simp only [walkpgdir, kalloc, hf]
        exact (if_neg hp).trans rfl
      · rw [hnew]
        simp only [present, PGSIZE]
        omega
      · simp only [hf, List.length_cons, setEntry_freelist, setPage_freelist]

theorem Inv.setPte_views (hI : Inv L A M m) (ht : .table d (v / 1024) ∈ A) (hv : v < 2 ^ 20)
    (hp : present (pde m d (v / 1024))) (hw : w < 2 ^ 32) :
    SetPte A d v w m (m.setEntry (frameOf (pde m d (v / 1024))) (v % 1024) w) := by
  have hi := div_lt_entries hv
  have hpde : ∀ d' i, .dir d' ∈ A →
      pde (m.setEntry (frameOf (pde m d (v / 1024))) (v % 1024) w) d' i = pde m d' i :=
    fun d' i hd' => pde_setEntry_ne _ _ _ _ (hI.table_ne_dir ht hi hp hd')
  refine ⟨fun d' i hd' _ => hpde d' i hd', ?_⟩
  intro d' v' ht' hv'
  have hd' := hI.closed.dir _ _ ht'
  have hi' := div_lt_entries hv'
  simp only [pte, hpde d' _ hd']
  by_cases hp' : present (pde m d' (v' / 1024))
  · simp only [hp', if_true]
    by_cases he : frameOf (pde m d' (v' / 1024)) = frameOf (pde m d (v / 1024))
    · obtain ⟨rfl, hj⟩ := hI.table_inj ht hi hp ht' hi' hp' he
      rw [he, word_setEntry _ _ _ hw]
      have hiff : v' % 1024 = v % 1024 ↔ d' = d' ∧ v' = v := by
        constructor
        · intro h; exact ⟨rfl, by omega⟩
        · rintro ⟨_, rfl⟩; rfl
      simp only [hiff]
    · rw [setEntry_mem_ne _ _ _ he, if_neg]
      rintro ⟨rfl, rfl⟩
      exact he rfl
  · simp only [hp', if_false]
    rw [if_neg]
    rintro ⟨rfl, rfl⟩
    exact hp' hp

theorem SetPte.owned_ne (hA : Closed A) (hs : SetPte A d v w m m') (r : Role) (hr : r ≠ .frame d v) :
    owned A m' r = owned A m r := by
  simp only [owned]
  split_ifs with hrA
  · apply held_congr
    · rintro d' j rfl hj
      exact hs.dirs d' j (hA.dir _ _ hrA) hj
    · rintro d' v' rfl hv'
      rw [userPages_eq] at hv'
      rw [hs.entries d' v' (hA.table _ _ hrA) (by omega), if_neg]
      rintro ⟨rfl, rfl⟩
      exact hr rfl
  · rfl

theorem SetPte.inv_kernel (hI : Inv L A M m) (hs : SetPte A d v w m m') (hf : m'.freelist = m.freelist)
    (hv : userPages ≤ v) : Inv L A M m' := by
  refine ⟨hI.closed, hf ▸ hI.nodup, ?_, hI.managed⟩
  rw [hf]
  apply hI.ledger.congr
  intro r
  by_cases hr : r = .frame d v
  · subst hr
    simp only [owned, held, Nat.not_lt.mpr hv, false_and, if_false, ite_self]
  · exact hs.owned_ne hI.closed r hr

theorem SetPte.inv_map (hI : Inv L A M m) (hs : SetPte A d v w m m') (hf : m'.freelist = m.freelist)
    (hv : v < userPages) (hr : .frame d v ∈ A) (habs : ¬present (pte m d v)) (hw : present w) (hp : frameOf w ∉ M)
    (hmp : Managed L (frameOf w)) : Inv L A (insert (frameOf w) M) m' := by
  have hnew : pte m' d v = w := by
    rw [hs.entries d v (hI.closed.table _ _ hr) (by rw [userPages_eq] at hv; omega), if_pos ⟨rfl, rfl⟩]
  refine ⟨hI.closed, hf ▸ hI.nodup, ?_, ?_⟩
  · rw [hf]
    apply hI.ledger.assign (r := .frame d v) hp
    · simp only [owned, held, habs, and_false, if_false, ite_self]
    · rw [frame_owned hr hv (hnew ▸ hw), hnew]
    · exact fun r hne => hs.owned_ne hI.closed r hne
  · rintro q (rfl | hq)
    · exact hmp
    · exact hI.managed q hq

theorem SetPte.inv_clear (hI : Inv L A M m) (hs : SetPte A d v 0 m m') (hf : m'.freelist = m.freelist)
    (hv : v < userPages) (hr : .frame d v ∈ A) (hp : present (pte m d v)) :
    Inv L A (M \ {frameOf (pte m d v)}) m' := by
  have hnew : pte m' d v = 0 := by
    rw [hs.entries d v (hI.closed.table _ _ hr) (by rw [userPages_eq] at hv; omega), if_pos ⟨rfl, rfl⟩]
  refine ⟨hI.closed, hf ▸ hI.nodup, ?_, fun q hq => hI.managed q hq.1⟩
  rw [hf]
  apply hI.ledger.release (frame_owned hr hv hp)
  · simp only [owned, held, hnew, present_zero, and_false, if_false, ite_self]
  · exact fun r hne => hs.owned_ne hI.closed r hne

theorem SetPte.inv_remark (hI : Inv L A M m) (hs : SetPte A d v w m m') (hf : m'.freelist = m.freelist)
    (hr : .frame d v ∈ A) (hv : v < userPages) (hp : present (pte m d v)) (hw : present w)
    (hfr : frameOf w = frameOf (pte m d v)) : Inv L A M m' := by
  refine ⟨hI.closed, hf ▸ hI.nodup, ?_, hI.managed⟩
  rw [hf]
  apply hI.ledger.congr
  intro r
  by_cases he : r = .frame d v
  · subst he
    have hnew : pte m' d v = w := by
      rw [hs.entries d v (hI.closed.table _ _ hr) (by rw [userPages_eq] at hv; omega), if_pos ⟨rfl, rfl⟩]
    rw [frame_owned hr hv hp, frame_owned hr hv (hnew ▸ hw), hnew, hfr]
  · exact hs.owned_ne hI.closed r he

theorem walkpgdir_entry {va : ℕ} (hp : present (pde m d (va / PGSIZE / 1024))) :
    (walkpgdir m d va false).1 = some (frameOf (pde m d (va / PGSIZE / 1024)), va / PGSIZE % 1024) ∧
      word (m.mem (frameOf (pde m d (va / PGSIZE / 1024)))) (va / PGSIZE % 1024) = pte m d (va / PGSIZE) := by
  have hi : PDX va = va / PGSIZE / 1024 := by
    simp only [PDX, PGSIZE]
    omega
  have hj : PTX va = va / PGSIZE % 1024 := by
    simp only [PTX, PGSIZE]
    norm_num
  refine ⟨?_, (pte_of_present hp).symm⟩
  rw [walkpgdir_present (by rw [hi]; exact hp), hi, hj]

theorem table_of_present (hp : present (pte m d v)) : present (pde m d (v / 1024)) := by
  by_contra h
  rw [pte_of_absent h] at hp
  exact present_zero hp

end

end Xv6.Vm
