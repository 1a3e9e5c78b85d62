import Xv6.PageMap

namespace Xv6.Vm

open Xv6.ByteMemory Xv6.Ownership

def pages (sz : ℕ) : ℕ := (sz + PGSIZE - 1) / PGSIZE

structure Cleared (A : Set Role) (d lo hi : ℕ) (m m' : PhysMem) : Prop where
  dirs : ∀ d' i, .dir d' ∈ A → i < NPDENTRIES → pde m' d' i = pde m d' i
  entries : ∀ d' v, .table d' (v / 1024) ∈ A → v < 2 ^ 20 →
    pte m' d' v = if d' = d ∧ lo ≤ v ∧ v < hi ∧ present (pte m d' v) then 0 else pte m d' v

section

variable {L : Layout} {A B : Set Role} {M : Set ℕ} {m m' m'' : PhysMem} {d v p : ℕ}

theorem PGROUNDUP_eq (sz : ℕ) : PGROUNDUP sz = pages sz * PGSIZE := rfl

theorem lt_pages {sz : ℕ} : v < pages sz ↔ v * PGSIZE < sz := by
  simp only [pages, PGSIZE]
  omega

theorem Cleared.refl {lo hi : ℕ} (hx : ∀ v, lo ≤ v → v < hi → ¬present (pte m d v)) : Cleared A d lo hi m m := by
  refine ⟨fun _ _ _ _ => rfl, ?_⟩
  intro d' v _ _
  rw [if_neg]
  rintro ⟨rfl, h1, h2, hp⟩
  exact hx v h1 h2 hp

theorem Cleared.trans {lo mid hi : ℕ} (h : Cleared A d lo mid m m') (h' : Cleared A d mid hi m' m'')
    (hlm : lo ≤ mid) (hmh : mid ≤ hi) : Cleared A d lo hi m m'' := by
  refine ⟨fun d' i hd hi => (h'.dirs d' i hd hi).trans (h.dirs d' i hd hi), ?_⟩
  intro d' v ht hv
  rw [h'.entries d' v ht hv, h.entries d' v ht hv]
  by_cases hc : d' = d ∧ lo ≤ v ∧ v < mid ∧ present (pte m d' v)
  · rw [if_pos hc, if_pos (⟨hc.1, hc.2.1, by omega, hc.2.2.2⟩ : d' = d ∧ lo ≤ v ∧ v < hi ∧ present (pte m d' v)),
      ite_self]
  · rw [if_neg hc]
    have hiff : (d' = d ∧ mid ≤ v ∧ v < hi ∧ present (pte m d' v)) ↔
        (d' = d ∧ lo ≤ v ∧ v < hi ∧ present (pte m d' v)) := by
      constructor
      · rintro ⟨h1, h2, h3, h4⟩
        exact ⟨h1, by omega, h3, h4⟩
      · rintro ⟨h1, h2, h3, h4⟩
        refine ⟨h1, ?_, h3, h4⟩
        by_contra hlt
        exact hc ⟨h1, h2, by omega, h4⟩
    simp only [hiff]

theorem unmap_one (hI : Inv L A M m) (hr : .frame d v ∈ A) (hv : v < userPages) (hp : present (pte m d v)) :
    ∃ m1, kfree L m (frameOf (pte m d v)) = .ok m1 ∧
      Inv L A M (m1.setEntry (frameOf (pde m d (v / 1024))) (v % 1024) 0) ∧
      Cleared A d v (v + 1) m (m1.setEntry (frameOf (pde m d (v / 1024))) (v % 1024) 0) := by
  have ht := hI.closed.table _ _ hr
  have hv' : v < 2 ^ 20 := by rw [userPages_eq] at hv; omega
  have hpd := table_of_present hp
  set t := frameOf (pde m d (v / 1024)) with ht_def
  set q := frameOf (pte m d v) with hq_def
  have hown := frame_owned hr hv hp
  have hqM : q ∈ M := hI.ledger.mem_of_held hown
  have hqt : t ≠ q := by
    intro he
    have h := hI.ledger.inj _ _ _ hown (by rw [← hq_def, ← he]; exact table_owned ht (div_lt_entries hv') hpd)
    cases h
  have hs := hI.setPte_views ht hv' hpd (w := 0) (by norm_num)
  have hI1 := hs.inv_clear hI rfl hv hr hp
  obtain ⟨m2, hk, hf, hmem, hsame, hI2⟩ := hI1.kfree (p := q) (by simp [hq_def]) (hI.managed q hqM)
  have hk0 : kfree L m q = .ok { m.setPage q (freed m.freelist) with freelist := q :: m.freelist } := by
    simp only [kfree] at hk ⊢
    split_ifs at hk ⊢
    rfl
  -- The freed frame is not the table, so filling it and clearing the entry commute.
  have hcomm : ({ m.setPage q (freed m.freelist) with freelist := q :: m.freelist } : PhysMem).setEntry t (v % 1024) 0 =
      m2 := by
    cases m2 with
    | mk mem fl =>
      simp only at hf hmem
      subst hf hmem
      simp only [PhysMem.setEntry, PhysMem.setPage, Function.update_of_ne hqt, PhysMem.mk.injEq]
      exact ⟨Function.update_comm hqt.symm _ _ _, trivial⟩
  rw [Set.insert_sdiff_singleton, Set.insert_eq_of_mem hqM] at hI2
  refine ⟨_, hk0, by rw [hcomm]; exact hI2, ?_⟩
  rw [hcomm]
  refine ⟨?_, ?_⟩
  · intro d' i hd' hi
    rw [hsame.dirs d' i hd' hi, hs.dirs d' i hd' hi]
  · intro d' v' ht' hv''
    rw [hsame.entries d' v' ht' hv'', hs.entries d' v' ht' hv'']
    by_cases hc : d' = d ∧ v' = v
    · obtain ⟨rfl, rfl⟩ := hc
      rw [if_pos ⟨rfl, rfl⟩, if_pos ⟨rfl, le_rfl, by omega, hp⟩]
    · rw [if_neg hc, if_neg]
      rintro ⟨h1, h2, h3, -⟩
      exact hc ⟨h1, by omega⟩

theorem deallocLoop_spec (hd : ∀ v, .frame d v ∈ A) {oldsz : ℕ} (hsz : oldsz ≤ KERNBASE) (lo : ℕ) (m : PhysMem)
    (hI : Inv L A M m) : ∃ m', deallocLoop L d oldsz (lo * PGSIZE) m = .ok m' ∧ Inv L A M m' ∧
      Cleared A d lo (pages oldsz) m m' := by
  induction hk : oldsz - lo * PGSIZE using Nat.strong_induction_on generalizing lo m with
  | _ k ih =>
    subst hk
    rw [deallocLoop]
    by_cases hlt : lo * PGSIZE < oldsz
    · have hlo : lo < pages oldsz := lt_pages.mpr hlt
      have hv : lo < userPages := by
        simp only [userPages, KERNBASE, PGSIZE] at *
        omega
      rw [if_pos hlt]
      by_cases hpd : present (pde m d (lo / 1024))
      · rw [walkpgdir_present (by rw [PDX_page]; exact hpd), PDX_page, PTX_page]
        simp only [← pte_of_present hpd]
        have hnext : lo * PGSIZE + PGSIZE = (lo + 1) * PGSIZE := by ring
        have hdec : oldsz - (lo + 1) * PGSIZE < oldsz - lo * PGSIZE := by
          simp only [PGSIZE] at *
          omega
        by_cases hp : present (pte m d lo)
        · obtain ⟨m1, hk, hI1, hc1⟩ := unmap_one hI (hd lo) hv hp
          have hne : frameOf (pte m d lo) ≠ 0 :=
            (hI.managed _ (hI.ledger.mem_of_held (frame_owned (hd lo) hv hp))).pos
          obtain ⟨m', he, hI', hc'⟩ := ih _ hdec (lo + 1) _ hI1 rfl
          refine ⟨m', ?_, hI', hc1.trans hc' (by omega) hlo⟩
          rw [if_pos hp, if_neg hne, hnext]
          simp only [hk]
          exact he
        · obtain ⟨m', he, hI', hc'⟩ := ih _ hdec (lo + 1) m hI rfl
          refine ⟨m', ?_, hI', (Cleared.refl ?_).trans hc' (Nat.le_succ lo) hlo⟩
          · rw [if_neg hp, hnext]
            exact he
          · intro v h1 h2
            rw [show v = lo by omega]
            exact hp
      · rw [walkpgdir_absent (by rw [PDX_page]; exact hpd), PDX_page]
        simp only
        have hnext : (lo / 1024 + 1) * 2 ^ 22 = (lo / 1024 + 1) * 1024 * PGSIZE := by
          simp only [PGSIZE]
          ring
        have hdec : oldsz - (lo / 1024 + 1) * 1024 * PGSIZE < oldsz - lo * PGSIZE := by
          simp only [PGSIZE] at *
          omega
        -- No entry of the missing table is present, so the skipped pages are clear already.
        have hskip : ∀ v, lo ≤ v → v < (lo / 1024 + 1) * 1024 → ¬present (pte m d v) := by
          intro v h1 h2
          rw [pte_of_absent (by rw [show v / 1024 = lo / 1024 by omega]; exact hpd)]
          exact present_zero
        obtain ⟨m', he, hI', hc'⟩ := ih _ hdec ((lo / 1024 + 1) * 1024) m hI rfl
        refine ⟨m', by rw [hnext]; exact he, hI', ?_⟩
        by_cases hend : (lo / 1024 + 1) * 1024 ≤ pages oldsz
        · exact (Cleared.refl hskip).trans hc' (by omega) hend
        · refine ⟨hc'.dirs, ?_⟩
          intro d' v ht hv
          rw [hc'.entries d' v ht hv, if_neg (by omega), if_neg]
          rintro ⟨rfl, h1, h2, hp⟩
          exact hskip v h1 (by omega) hp
    · rw [if_neg hlt]
      refine ⟨m, rfl, hI, Cleared.refl ?_⟩
      intro v h1 h2
      rw [lt_pages] at h2
      simp only [PGSIZE] at *
      omega

theorem deallocuvm_spec (hd : ∀ v, .frame d v ∈ A) {oldsz newsz : ℕ} (hsz : oldsz ≤ KERNBASE)
    (hlt : newsz < oldsz) (hI : Inv L A M m) :
    ∃ m', deallocuvm L m d oldsz newsz = .ok (newsz, m') ∧ Inv L A M m' ∧
      Cleared A d (pages newsz) (pages oldsz) m m' := by
  obtain ⟨m', he, hI', hc⟩ := deallocLoop_spec hd hsz (pages newsz) m hI
  refine ⟨m', ?_, hI', hc⟩
  rw [deallocuvm, if_neg (by omega), PGROUNDUP_eq, he]
  rfl

def without (A : Set Role) (d : ℕ) : Set Role := {r | r ∈ A ∧ r.root ≠ d}

def stage (A : Set Role) (d k : ℕ) : Set Role :=
  {r | r ∈ A ∧ (r.root ≠ d ∨ r = .dir d ∨ ∃ i, k ≤ i ∧ r = .table d i)}

theorem Inv.shrink (hI : Inv L A M m) (hB : Closed B) (hBA : B ⊆ A) (hnone : ∀ r ∈ A, r ∉ B → held m r = none) :
    Inv L B M m := by
  refine ⟨hB, hI.nodup, hI.ledger.congr ?_, hI.managed⟩
  intro r
  simp only [owned]
  by_cases hrB : r ∈ B
  · rw [if_pos hrB, if_pos (hBA hrB)]
  · rw [if_neg hrB]
    split_ifs with hrA
    · exact (hnone r hrA hrB).symm
    · rfl

theorem Inv.drop (hI : Inv L A M m) (hB : Closed B) {r : Role} (hr : r ∈ A) (hp : held m r = some p)
    (hBr : ∀ s, s ∈ B ↔ s ∈ A ∧ s ≠ r) : Inv L B (M \ {p}) m := by
  refine ⟨hB, hI.nodup, ?_, fun q hq => hI.managed q hq.1⟩
  apply hI.ledger.release (r := r)
  · simp only [owned, hr, if_true, hp]
  · exact if_neg (fun h => ((hBr r).mp h).2 rfl)
  · intro s hs
    simp only [owned]
    by_cases hsA : s ∈ A
    · rw [if_pos hsA, if_pos ((hBr s).mpr ⟨hsA, hs⟩)]
    · rw [if_neg hsA, if_neg (fun h => hsA ((hBr s).mp h).1)]

theorem Closed.without (hA : Closed A) (d : ℕ) : Closed (without A d) :=
  ⟨fun d' i h => ⟨hA.dir d' i h.1, h.2⟩, fun d' v h => ⟨hA.table d' v h.1, h.2⟩⟩

theorem without_subset (A : Set Role) (d : ℕ) : without A d ⊆ A := fun _ h => h.1

theorem Closed.stage (hA : Closed A) (d k : ℕ) : Closed (stage A d k) := by
  refine ⟨?_, ?_⟩
  · intro d' i h
    refine ⟨hA.dir d' i h.1, ?_⟩
    by_cases he : d' = d
    · exact Or.inr (Or.inl (by rw [he]))
    · exact Or.inl he
  · rintro d' v ⟨h, hne | he | ⟨i, _, he⟩⟩
    · exact ⟨hA.table d' v h, Or.inl hne⟩
    · cases he
    · cases he

theorem mem_stage_succ (k : ℕ) (s : Role) : s ∈ stage A d (k + 1) ↔ s ∈ stage A d k ∧ s ≠ .table d k := by
  constructor
  · rintro ⟨h, hne | he | ⟨i, hi, he⟩⟩
    · refine ⟨⟨h, Or.inl hne⟩, ?_⟩
      rintro rfl
      exact hne rfl
    · refine ⟨⟨h, Or.inr (Or.inl he)⟩, ?_⟩
      rintro rfl
      cases he
    · refine ⟨⟨h, Or.inr (Or.inr ⟨i, by omega, he⟩)⟩, ?_⟩
      rintro rfl
      cases he
      omega
  · rintro ⟨⟨h, hne | he | ⟨i, hi, he⟩⟩, hs⟩
    · exact ⟨h, Or.inl hne⟩
    · exact ⟨h, Or.inr (Or.inl he)⟩
    · refine ⟨h, Or.inr (Or.inr ⟨i, ?_, he⟩)⟩
      have : i ≠ k := by
        rintro rfl
        exact hs he
      omega

theorem mem_without_stage (s : Role) : s ∈ without A d → ∀ k, s ∈ stage A d k := fun h _ => ⟨h.1, Or.inl h.2⟩

theorem freeTables_spec (hd : ∀ i, .table d i ∈ A) (n i : ℕ) (m : PhysMem) (hI : Inv L (stage A d i) M m)
    (hn : i + n = NPDENTRIES) : ∃ m', freeTables L d n i m = .ok m' ∧ Inv L (stage A d NPDENTRIES) M m' ∧
      Same (stage A d NPDENTRIES) m m' ∧
      ∀ q, (∀ j, i ≤ j → j < NPDENTRIES → present (pde m d j) → q ≠ frameOf (pde m d j)) → m'.mem q = m.mem q := by
  induction n generalizing i m with
  | zero =>
    rw [Nat.add_zero] at hn
    rw [hn] at hI
    exact ⟨m, rfl, hI, Same.refl _ m, fun _ _ => rfl⟩
  | succ n ih =>
    have hsub : ∀ k, k ≤ NPDENTRIES → stage A d NPDENTRIES ⊆ stage A d k := by
      rintro k hk s ⟨h, hne | he | ⟨j, hj, he⟩⟩
      · exact ⟨h, Or.inl hne⟩
      · exact ⟨h, Or.inr (Or.inl he)⟩
      · exact ⟨h, Or.inr (Or.inr ⟨j, by omega, he⟩)⟩
    have hti : .table d i ∈ stage A d i := ⟨hd i, Or.inr (Or.inr ⟨i, le_rfl, rfl⟩)⟩
    have hcl : Closed (stage A d (i + 1)) := by
      have hA : Closed (stage A d i) := hI.closed
      refine ⟨?_, ?_⟩
      · intro d' j h
        exact (mem_stage_succ i _).mpr ⟨hA.dir d' j ((mem_stage_succ i _).mp h).1, by simp⟩
      · rintro d' v ⟨h, hne | he | ⟨j, _, he⟩⟩
        · refine (mem_stage_succ i _).mpr ⟨hA.table d' v ⟨h, Or.inl hne⟩, ?_⟩
          intro he
          cases he
          exact hne rfl
        · cases he
        · cases he
    by_cases hp : present (pde m d i)
    · have hh : held m (.table d i) = some (frameOf (pde m d i)) := by
        simp only [held, hp, and_true]
        rw [if_pos (by omega)]
      have hmem : frameOf (pde m d i) ∈ M := hI.table_mem hti (by omega) hp
      have hdir : .dir d ∈ stage A d (i + 1) := (mem_stage_succ i _).mpr ⟨hI.closed.dir d i hti, by simp⟩
      obtain ⟨m1, hk, -, hmem1, hs1, hI1⟩ := (hI.drop hcl hti hh (mem_stage_succ i)).kfree
        (p := frameOf (pde m d i)) (by simp) (hI.managed _ hmem)
      rw [Set.insert_sdiff_singleton, Set.insert_eq_of_mem hmem] at hI1
      obtain ⟨m', he, hI', hs', hmem'⟩ := ih (i + 1) m1 hI1 (by omega)
      refine ⟨m', ?_, hI', (hs1.mono (hsub (i + 1) (by omega))).trans hs', fun q hq => ?_⟩
      · have hp' : present (word (m.mem d) i) := hp
        simp only [freeTables]
        rw [if_pos hp', show frameOf (word (m.mem d) i) = frameOf (pde m d i) from rfl, hk]
        exact he
      · rw [hmem' q, hmem1, setPage_mem_ne _ _ (hq i le_rfl (by omega) hp)]
        intro j h1 h2
        rw [hs1.dirs d j hdir h2]
        exact hq j (by omega) h2
    · have hI1 : Inv L (stage A d (i + 1)) M m := by
        apply hI.shrink hcl (fun s h => ((mem_stage_succ i s).mp h).1)
        intro r hr hnr
        have he : r = .table d i := by
          by_contra hne
          exact hnr ((mem_stage_succ i r).mpr ⟨hr, hne⟩)
        rw [he]
        simp only [held, hp, and_false, if_false]
      obtain ⟨m', he, hI', hs', hmem'⟩ := ih (i + 1) m hI1 (by omega)
      refine ⟨m', ?_, hI', hs', fun q hq => hmem' q fun j h1 => hq j (by omega)⟩
      have hp' : ¬present (word (m.mem d) i) := hp
      simp only [freeTables]
      rw [if_neg hp']
      exact he

theorem freevm_stages (hd : Spans A d) (hI : Inv L A M m) :
    ∃ m' m1, freevm L m (some d) = .ok m' ∧ Inv L (without A d) M m' ∧ Same (without A d) m m' ∧
      deallocuvm L m d KERNBASE 0 = .ok (0, m1) ∧ Inv L (stage A d 0) M m1 ∧
      ∀ q, q ≠ d → (∀ i, i < NPDENTRIES → present (pde m1 d i) → q ≠ frameOf (pde m1 d i)) → m'.mem q = m1.mem q := by
  obtain ⟨m1, he1, hI1, hc⟩ := deallocuvm_spec (fun v => hd (.frame d v) rfl) le_rfl (by decide : 0 < KERNBASE) hI
  -- With no frame left, the frame roles of `d` can be forgotten.
  have hI2 : Inv L (stage A d 0) M m1 := by
    apply hI1.shrink (hI.closed.stage d 0) (fun s h => h.1)
    intro r hr hnr
    cases r with
    | dir d' =>
      refine absurd ⟨hr, ?_⟩ hnr
      by_cases he : d' = d
      · exact Or.inr (Or.inl (by rw [he]))
      · exact Or.inl he
    | table d' i =>
      refine absurd ⟨hr, ?_⟩ hnr
      by_cases he : d' = d
      · exact Or.inr (Or.inr ⟨i, Nat.zero_le i, by rw [he]⟩)
      · exact Or.inl he
    | frame d' v =>
      have he : d' = d := by
        by_contra hne
        exact hnr ⟨hr, Or.inl hne⟩
      subst he
      simp only [held]
      by_cases hv : v < userPages
      · rw [if_neg]
        rintro ⟨-, hp⟩
        have hv20 : v < 2 ^ 20 := by
          rw [userPages_eq] at hv
          omega
        rw [hc.entries d' v (hd _ rfl) hv20] at hp
        split_ifs at hp with hcond
        · exact present_zero hp
        · refine hcond ⟨rfl, ?_, ?_, hp⟩
          · simp only [pages, PGSIZE]
            omega
          · simp only [pages, userPages, KERNBASE, PGSIZE] at *
            omega
      · simp only [hv, false_and, if_false]
  obtain ⟨m2, he2, hI3, hs2, hmem2⟩ := freeTables_spec (fun i => hd (.table d i) rfl) NPDENTRIES 0 m1 hI2
      (Nat.zero_add _)
  have hdir : .dir d ∈ stage A d NPDENTRIES := ⟨hd _ rfl, Or.inr (Or.inl rfl)⟩
  have hdM : d ∈ M := hI3.dir_mem hdir
  have hI4 : Inv L (without A d) (M \ {d}) m2 := by
    have hcl : Closed {r | r ∈ A ∧ (r.root ≠ d ∨ r = .dir d)} := by
      refine ⟨?_, ?_⟩
      · rintro d' i ⟨h, hne | he⟩
        · exact ⟨hI.closed.dir _ _ h, Or.inl hne⟩
        · cases he
      · rintro d' v ⟨h, hne | he⟩
        · exact ⟨hI.closed.table _ _ h, Or.inl hne⟩
        · cases he
    have hI3' : Inv L {r | r ∈ A ∧ (r.root ≠ d ∨ r = .dir d)} M m2 := by
      apply hI3.shrink hcl
      · rintro s ⟨h, hne | he⟩
        · exact ⟨h, Or.inl hne⟩
        · exact ⟨h, Or.inr (Or.inl he)⟩
      · rintro r ⟨h, hne | he | ⟨i, hi, rfl⟩⟩ hnr
        · exact absurd ⟨h, Or.inl hne⟩ hnr
        · exact absurd ⟨h, Or.inr he⟩ hnr
        · simp only [held, Nat.not_lt.mpr hi, false_and, if_false]
    apply hI3'.drop (hI.closed.without d) (r := .dir d) ⟨hd _ rfl, Or.inr rfl⟩ rfl
    intro s
    constructor
    · rintro ⟨h, hne⟩
      refine ⟨⟨h, Or.inl hne⟩, ?_⟩
      rintro rfl
      exact hne rfl
    · rintro ⟨⟨h, hne | he⟩, hs⟩
      · exact ⟨h, hne⟩
      · exact absurd he hs
  obtain ⟨m3, he3, -, hmem3, hs3, hI5⟩ := hI4.kfree (p := d) (by simp) (hI.managed d hdM)
  rw [Set.insert_sdiff_singleton, Set.insert_eq_of_mem hdM] at hI5
  refine ⟨m3, m1, ?_, hI5, ?_, he1, hI2, fun q hqd hq => ?_⟩
  · simp only [freevm, he1, he2, Outcome.ok_bind]
    exact he3
  · have hs1 : Same (without A d) m m1 := by
      refine ⟨fun d' i hd' hi => hc.dirs d' i hd'.1 hi, ?_⟩
      intro d' v ht hv
      rw [hc.entries d' v ht.1 hv, if_neg]
      rintro ⟨rfl, -⟩
      exact ht.2 rfl
    exact (hs1.trans (hs2.mono (fun s h => mem_without_stage s h _))).trans hs3
  · rw [hmem3, setPage_mem_ne _ _ hqd, hmem2 q fun i _ => hq i]

theorem freevm_spec (hd : Spans A d) (hI : Inv L A M m) :
    ∃ m', freevm L m (some d) = .ok m' ∧ Inv L (without A d) M m' ∧ Same (without A d) m m' := by
  obtain ⟨m', m1, he, hI', hs, -⟩ := freevm_stages hd hI
  exact ⟨m', he, hI', hs⟩

end

end Xv6.Vm
