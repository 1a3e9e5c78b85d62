import Xv6.ExecRun

/-!
An argument of more than 32 MB: the stack pointer wraps to addresses for which no directory has a table, and `copyout`
goes by the word at address 0 of the caller. If that is an entry for the new directory, the string is written over it.
-/

namespace Xv6.Vm

open ByteMemory Ownership

def keptEntry (i : ℕ) : Prop := 512 ≤ i ∧ i < 568 ∨ 1016 ≤ i ∧ i < 1023

instance (i : ℕ) : Decidable (keptEntry i) := inferInstanceAs (Decidable (_ ∨ _))

def keptRoles (d : ℕ) : Set Role := {r | r = .dir d ∨ ∃ i, keptEntry i ∧ r = .table d i}

def dirByte (t : ℕ → ℕ) (k : ℕ) : UInt8 :=
  if keptEntry (k / 4) then UInt8.ofNat ((t (k / 4) * PGSIZE + 0x107) / 256 ^ (k % 4)) else 6

def wrapString (t : ℕ → ℕ) : List UInt8 :=
  List.replicate 1792 6 ++ (List.replicate (PGSIZE * (12288 + 1)) 6 ++ (List.range 4095).map (dirByte t))

section

variable {m : PhysMem} {d va : ℕ} {t : ℕ → ℕ} {null : PhysMem → Outcome ℕ} {b : Bytes}

theorem setPage_setPage (m : PhysMem) (p : ℕ) (b b' : Bytes) : (m.setPage p b).setPage p b' = m.setPage p b' := by
  simp only [PhysMem.setPage, Function.update_idem]

theorem pde_setPage (m : PhysMem) (d i : ℕ) (b : Bytes) : pde (m.setPage d b) d i = word b i := by
  rw [pde, setPage_mem_self]

theorem not_present_sixes {i : ℕ} (h : ∀ k, k / 4 = i → b k = 6) : ¬present (word b i) := by
  rw [word, h _ (by omega), h _ (by omega), h _ (by omega), h _ (by omega)]
  decide

theorem copyoutWith_over (hnull : ∀ b, null (m.setPage d b) = .ok (d * PGSIZE + 7)) (hva : va < 2 ^ 32)
    (hno : ¬present (word b (va / 2 ^ 22))) {buf : List UInt8} (hpos : 0 < buf.length) :
    copyoutWith null d va buf (m.setPage d b) =
      copyoutWith null d ((PGROUNDDOWN va + PGSIZE) % 2 ^ 32) (buf.drop (copyLen va buf.length))
        (m.setPage d (store b (va % PGSIZE) (buf.take (copyLen va buf.length)))) := by
  have htab : ¬HasTable (m.setPage d b) d (pageOf va) := by
    rw [HasTable, pde_setPage, show pageOf va / 1024 = va / 2 ^ 22 by simp only [pageOf, PGSIZE]; omega]
    exact hno
  have hdown : va - PGROUNDDOWN va = va % PGSIZE := by
    simp only [PGROUNDDOWN, PGSIZE]
    omega
  rw [copyoutWith_null htab hva hpos (hnull b) (by simp only [present, PGSIZE]; omega)
    (by simp only [userBit, PTE_U, PGSIZE]; omega), frameOf_add d (by decide), setPage_mem_self, setPage_setPage, hdown]

theorem copyoutWith_part (hnull : ∀ b, null (m.setPage d b) = .ok (d * PGSIZE + 7)) (hva : va < 2 ^ 32)
    (hno : ¬present (word b (va / 2 ^ 22))) {part : List UInt8} (hpart : part.length + va % PGSIZE = PGSIZE)
    (tail : List UInt8) :
    copyoutWith null d va (part ++ tail) (m.setPage d b) =
      copyoutWith null d ((va + part.length) % 2 ^ 32) tail (m.setPage d (store b (va % PGSIZE) part)) := by
  have hnum : copyLen va (part ++ tail).length = part.length ∧ PGROUNDDOWN va + PGSIZE = va + part.length ∧
      0 < part.length := by
    simp only [copyLen, PGROUNDDOWN, List.length_append, PGSIZE] at *
    omega
  obtain ⟨hlen, hnext, hpos⟩ := hnum
  rw [copyoutWith_over hnull hva hno (by rw [List.length_append]; omega), hlen, hnext, List.take_left, List.drop_left]

theorem store_sixes (b : Bytes) (i : ℕ) (hi : i < 1024) : ¬present (word (store b 0 (List.replicate PGSIZE 6)) i) := by
  apply not_present_sixes
  intro k hk
  have hlt : k < PGSIZE := by
    simp only [PGSIZE]
    omega
  rw [← Nat.zero_add k, store_apply_mem (by rw [List.length_replicate]; exact hlt),
    List.getD_eq_getElem _ _ (by rw [List.length_replicate]; exact hlt), List.getElem_replicate]

theorem copyoutWith_wipe (hnull : ∀ b, null (m.setPage d b) = .ok (d * PGSIZE + 7)) (tail : List UInt8) (k : ℕ) (va : ℕ)
    (b : Bytes) (hva : va < 2 ^ 32) (hal : va % PGSIZE = 0) (hno : ¬present (word b (va / 2 ^ 22))) :
    ∃ b', (∀ i, i < 1024 → ¬present (word b' i)) ∧
      copyoutWith null d va (List.replicate (PGSIZE * (k + 1)) 6 ++ tail) (m.setPage d b) =
        copyoutWith null d ((va + PGSIZE * (k + 1)) % 2 ^ 32) tail (m.setPage d b') := by
  have hpage : (List.replicate PGSIZE (6 : UInt8)).length + va % PGSIZE = PGSIZE := by
    rw [List.length_replicate, hal, Nat.add_zero]
  have hturn : ∀ rest, copyoutWith null d va (List.replicate PGSIZE 6 ++ rest) (m.setPage d b) =
      copyoutWith null d ((va + PGSIZE) % 2 ^ 32) rest (m.setPage d (store b 0 (List.replicate PGSIZE 6))) := by
    intro rest
    rw [copyoutWith_part hnull hva hno hpage, hal, List.length_replicate]
  induction k generalizing va b with
  | zero => exact ⟨_, store_sixes b, hturn tail⟩
  | succ k ih =>
    have hnum : (va + PGSIZE) % 2 ^ 32 < 2 ^ 32 ∧ (va + PGSIZE) % 2 ^ 32 % PGSIZE = 0 ∧
        (va + PGSIZE) % 2 ^ 32 / 2 ^ 22 < 1024 ∧
        ((va + PGSIZE) % 2 ^ 32 + PGSIZE * (k + 1)) % 2 ^ 32 = (va + PGSIZE * (k + 1 + 1)) % 2 ^ 32 := by
      simp only [PGSIZE] at hal ⊢
      omega
    obtain ⟨hva', hal', hi, hend⟩ := hnum
    have hno' := store_sixes b _ hi
    have hpage' : (List.replicate PGSIZE (6 : UInt8)).length + (va + PGSIZE) % 2 ^ 32 % PGSIZE = PGSIZE := by
      rw [List.length_replicate, hal', Nat.add_zero]
    obtain ⟨b', hb', hrun⟩ := ih ((va + PGSIZE) % 2 ^ 32) _ hva' hal' hno' hpage' (fun rest => by
      rw [copyoutWith_part hnull hva' hno' hpage', hal', List.length_replicate])
    refine ⟨b', hb', ?_⟩
    rw [show PGSIZE * (k + 1 + 1) = PGSIZE + PGSIZE *
        (k + 1) by ring, List.replicate_add, List.append_assoc, hturn, hrun, hend,
      show PGSIZE * (k + 1 + 1) = PGSIZE + PGSIZE * (k + 1) by ring]

theorem copyoutWith_wrapString (hnull : ∀ b, null (m.setPage d b) = .ok (d * PGSIZE + 7))
    (hno : ¬present (pde m d 1012)) :
    ∃ b, copyoutWith null d 4244637952 (wrapString t ++ [0]) m = .ok (true, m.setPage d b) ∧
      ∀ k, k < 4095 → b k = dirByte t k := by
  have hself : m = m.setPage d (m.mem d) := by simp only [PhysMem.setPage, Function.update_eq_self]
  obtain ⟨b1, hb1⟩ : ∃ b1, b1 = store (m.mem d) (4244637952 % PGSIZE) (List.replicate 1792 6) := ⟨_, rfl⟩
  have hfirst : ∀ rest, copyoutWith null d 4244637952 (List.replicate 1792 6 ++ rest) m =
      copyoutWith null d 4244639744 rest (m.setPage d b1) := by
    intro rest
    have hpart : (List.replicate 1792 (6 : UInt8)).length + 4244637952 % PGSIZE = PGSIZE := by
      rw [List.length_replicate]
      rfl
    have hturn := copyoutWith_part hnull (by decide : 4244637952 < 2 ^ 32) (b := m.mem d) hno hpart rest
    rw [← hself, ← hb1, List.length_replicate] at hturn
    exact hturn
  have hno1 : ¬present (word b1 (4244639744 / 2 ^ 22)) := by
    apply not_present_sixes
    intro k hk
    have hk' : k = 2304 + (k - 2304) ∧ k - 2304 < 1792 := by omega
    rw [hb1, hk'.1, show 4244637952 % PGSIZE = 2304 from rfl, store_apply_mem
        (by rw [List.length_replicate]; exact hk'.2),
      List.getD_eq_getElem _ _ (by rw [List.length_replicate]; exact hk'.2), List.getElem_replicate]
  obtain ⟨b2, hb2, hwipe⟩ := copyoutWith_wipe hnull ((List.range 4095).map (dirByte t) ++ [0]) 12288 4244639744 b1
      (by decide)
    (by decide) hno1
  have hlast : ((List.range 4095).map (dirByte t) ++ [0]).length + 8192 % PGSIZE = PGSIZE := by
    rw [List.length_append, List.length_map, List.length_range]
    rfl
  refine ⟨store b2 0 ((List.range 4095).map (dirByte t) ++ [0]), ?_, fun k hk => ?_⟩
  · rw [wrapString, List.append_assoc, List.append_assoc]
    rw [hfirst, hwipe, show (4244639744 + PGSIZE * (12288 + 1)) % 2 ^ 32 = 8192 from rfl]
    have hend := copyoutWith_part hnull (by decide) (hb2 (8192 / 2 ^ 22) (by decide)) hlast []
    rw [List.append_nil] at hend
    rw [hend, copyoutWith, dif_neg (by decide)]
    rfl
  · rw [← Nat.zero_add k, store_apply_mem (by rw [List.length_append, List.length_map, List.length_range]; omega),
        List.getD_append]
    · rw [List.getD_eq_getElem _ _ (by rw [List.length_map, List.length_range]; exact hk), List.getElem_map,
          List.getElem_range,
        Nat.zero_add]
    · rw [List.length_map, List.length_range]
      exact hk

theorem length_wrapString (t : ℕ → ℕ) : (wrapString t).length = 50341631 := by
  simp only [wrapString, List.length_append, List.length_replicate, List.length_map, List.length_range, PGSIZE]

theorem copyArgs_wrapString (hnull : ∀ b, null (m.setPage d b) = .ok (d * PGSIZE + 7)) (hno : ¬present (pde m d 1012))
    (t : ℕ → ℕ) :
    ∃ b, copyArgsWith null d 12288 [wrapString t] m = .ok (some (12288, 4244637932), m.setPage d b) ∧
      ∀ k, k < 4095 → ¬(2284 ≤ k ∧ k < 2304) → b k = dirByte t k := by
  obtain ⟨b, hrun, hb⟩ := copyoutWith_wrapString (t := t) hnull hno
  have hno' : ¬present (word b (4244637932 / 2 ^ 22)) := by
    apply not_present_sixes
    intro k hk
    rw [hb k (by omega), dirByte, if_neg]
    rw [hk]
    decide
  have hlen : ((ustack 4244637952 [4244637952]).flatMap wordBytes).length = 20 := rfl
  obtain ⟨buf, hbuf⟩ : ∃ buf, buf = (ustack 4244637952 [4244637952]).flatMap wordBytes := ⟨_, rfl⟩
  rw [← hbuf] at hlen
  have htable : copyoutWith null d 4244637932 buf (m.setPage d b) =
      .ok (true, m.setPage d (store b 2284 buf)) := by
    rw [copyoutWith_over hnull (by decide) hno' (by omega), hlen, show copyLen 4244637932 20 = 20 from rfl, ← hlen,
        List.take_length,
      List.drop_length, copyoutWith, dif_neg (by decide)]
    rfl
  refine ⟨store b 2284 buf, ?_, fun k h1 h2 => ?_⟩
  · simp only [copyArgsWith, pushArgsWith]
    rw [if_neg (by decide), length_wrapString, show (12288 + 2 ^ 32 - (50341631 + 1)) % 2 ^ 32 / 4 * 4 =
        4244637952 from rfl,
      hrun]
    simp only [Outcome.ok_bind, if_true, List.nil_append]
    rw [← hbuf, show (4244637952 + 2 ^ 32 - (3 + [4244637952].length + 1) * 4) % 2 ^ 32 = 4244637932 from rfl,
      htable]
    rfl
  · rw [store_apply_not_mem (by rw [hlen]; omega), hb k h1]

theorem word_dirByte {i : ℕ} (hi : keptEntry i) (ht : t i < 2 ^ 20) : word (dirByte t) i = t i * PGSIZE + 0x107 := by
  have hlt : t i * PGSIZE + 0x107 < 2 ^ 32 := by
    simp only [PGSIZE]
    omega
  rw [← word_setWord_same zero i hlt]
  apply word_congr
  intro k hk
  rw [dirByte, setWord, if_pos hk, hk, if_pos hi]

theorem dirByte_ne_zero (ht : ∀ i, keptEntry i → 4368 ≤ t i ∧ t i < 7936) (k : ℕ) : dirByte t k ≠ 0 := by
  rw [dirByte]
  split_ifs with hk
  · have hlt := ht _ hk
    intro h0
    have hmod : (t (k / 4) * PGSIZE + 0x107) / 256 ^ (k % 4) % 256 = 0 := by
      have := congrArg UInt8.toNat h0
      rwa [UInt8.toNat_ofNat'] at this
    simp only [PGSIZE] at hmod
    obtain hj | hj | hj | hj : k % 4 = 0 ∨ k % 4 = 1 ∨ k % 4 = 2 ∨ k % 4 = 3 := by omega
    all_goals
      rw [hj] at hmod
      norm_num at hmod
      omega
  · decide

theorem wrapString_ne_zero (ht : ∀ i, keptEntry i → 4368 ≤ t i ∧ t i < 7936) : 0 ∉ wrapString t := by
  intro h
  rw [wrapString, List.mem_append, List.mem_append, List.mem_replicate, List.mem_replicate, List.mem_map] at h
  rcases h with ⟨-, h⟩ | ⟨-, h⟩ | ⟨k, -, h⟩
  · exact absurd h (by decide)
  · exact absurd h (by decide)
  · exact dirByte_ne_zero ht k h

end

section

variable {L : Layout} {A B : Set Role} {M : Set ℕ} {m m' : PhysMem} {d : ℕ} {p : Proc}

theorem Inv.restrict (hI : Inv L A M m) (hB : Closed B) (hsub : B ⊆ A) (hheld : ∀ r ∈ B, held m' r = held m r)
    (hf : m'.freelist = m.freelist) : ∃ M', Inv L B M' m' := by
  have hown : ∀ r q, owned B m' r = some q → owned A m r = some q := by
    intro r q hr
    by_cases hrB : r ∈ B
    · rw [owned_of_held hrB, hheld r hrB] at hr
      rw [owned_of_held (hsub hrB), hr]
    · rw [owned, if_neg hrB] at hr
      cases hr
  refine ⟨{q | q ∈ m'.freelist ∨ ∃ r, owned B m' r = some q},
      hB, by rw [hf]; exact hI.nodup, ⟨?_, ?_, fun q => Iff.rfl⟩, ?_⟩
  · exact fun r q hr hq => hI.ledger.apart r q (hown r q hr) (hf ▸ hq)
  · exact fun r r' q hr hr' => hI.ledger.inj r r' q (hown r q hr) (hown r' q hr')
  · rintro q (hq | ⟨r, hr⟩)
    · exact hI.managed q ((hI.ledger.all q).mpr (Or.inl (hf ▸ hq)))
    · exact hI.managed q ((hI.ledger.all q).mpr (Or.inr ⟨r, hown r q hr⟩))

theorem keptRoles_root {r : Role} (hr : r ∈ keptRoles d) : r ∈ rooted d := by
  rcases hr with rfl | ⟨i, -, rfl⟩
  · rfl
  · rfl

theorem closed_keptRoles (hA : Closed A) (d : ℕ) : Closed (A ∪ keptRoles d) := by
  constructor
  · rintro d' i (ht | ht | ⟨j, -, ht⟩)
    · exact Or.inl (hA.dir d' i ht)
    · cases ht
    · cases ht
      exact Or.inr (Or.inl rfl)
  · rintro d' v (hf | hf | ⟨j, -, hf⟩)
    · exact Or.inl (hA.table d' v hf)
    · cases hf
    · cases hf

theorem Building.setDir_keeps {m0 : PhysMem} (h : Building L A M d m0 m) (hA : Closed A) (b : Bytes) :
    Same A m (m.setPage d b) ∧ Keeps A m (m.setPage d b) := by
  have hne : ∀ r ∈ A, held m r ≠ some d := fun r hr => h.notMem_frame hr (rfl : (Role.dir d).root = d) rfl
  have hs : Same A m (m.setPage d b) := by
    refine same_setPage hA (fun d' hd' he => ?_) (fun d' i ht hi hp he => ?_) b
    · exact hne (.dir d') hd' (congrArg some he)
    · exact hne (.table d' i) ht ((if_pos ⟨hi, hp⟩).trans (congrArg some he))
  refine ⟨hs, fun r q hr hq => ?_, fun d' v q hr hq => setPage_mem_ne _ _ ?_⟩
  · rw [← owned_of_held hr, owned_of_same hA hs, owned_of_held hr, hq]
  · rintro rfl
    exact hne _ hr hq

theorem exec_wraps (hI : Inv L A M m) (hp : Spans A p.pgdir) (hmem : 71 ≤ m.freelist.length)
    {ps : List ℕ} (hf : m.freelist = d :: ps) (hnull : loadInt m p.pgdir 0 = .ok (d * PGSIZE + 7)) :
    ∃ t q m', exec L m p (some (fileInode tinyProgram)) [wrapString t] = .ok (some q, m') ∧ q.sz = 12288 ∧
      q.esp = 4244637932 ∧ translate m' q.pgdir 0 = none ∧ (∀ i, keptEntry i → t i ∈ M) ∧
      ∀ k ∈ kmap L, ∀ v ∈ k.span, v < 1023 * 1024 → pte m' q.pgdir v = k.entry v := by
  obtain ⟨d', ps', m2, hf', hprep, hready⟩ := prepare_tiny hI hmem
  cases hf.symm.trans hf'
  have h := hready.image
  have hA := hI.closed
  have hnull' : ∀ b, loadInt (m2.setPage d b) p.pgdir 0 = .ok (d * PGSIZE + 7) := fun b =>
    (h.setDir_keeps hA b).2.loadInt hp (by decide) (hready.keeps.loadInt hp (by decide) hnull)
  obtain ⟨b, hrun, hb⟩ := @copyArgs_wrapString m2 d (fun m => loadInt m p.pgdir 0) hnull'
    (hready.kernel.gap 1012 (by decide) (by decide)) fun i => frameOf (pde m2 d i)
  -- the tables that the new content of the directory keeps
  have htab : ∀ i, keptEntry i → i < NPDENTRIES ∧ present (pde m2 d i) := by
    intro i hi
    have hik : i ∈ kernelTables := by
      simp only [keptEntry] at hi
      simp only [kernelTables, Finset.mem_union, Finset.mem_Ico]
      omega
    exact ⟨kernelTables_lt hik, h.tables i hik⟩
  have hM : ∀ i, keptEntry i → frameOf (pde m2 d i) ∈ M := fun i hi =>
    h.inv.table_mem (mem_rooted _ rfl) (htab i hi).1 (htab i hi).2
  have hword : ∀ i, keptEntry i → word b i = frameOf (pde m2 d i) * PGSIZE + 0x107 := by
    intro i hi
    have hlt := (h.inv.managed _ (hM i hi)).lt
    rw [← word_dirByte (t := fun i => frameOf (pde m2 d i)) hi (by omega)]
    apply word_congr
    intro k hk
    simp only [keptEntry] at hi
    exact hb k (by omega) (by omega)
  have hpde : ∀ i, keptEntry i → present (pde (m2.setPage d b) d i) ∧ frameOf (pde (m2.setPage d b) d i) =
      frameOf (pde m2 d i) := by
    intro i hi
    rw [pde_setPage, hword i hi]
    refine ⟨?_, frameOf_add _ (by decide)⟩
    simp only [present, PGSIZE]
    omega
  -- the old address spaces, the directory and these tables are a ledger
  have hne : d ≠ p.pgdir := fun he => h.root (.dir d) rfl (hp _ he)
  have hheld : ∀ r ∈ A ∪ keptRoles d, held (m2.setPage d b) r = held m2 r := by
    rintro r (hr | rfl | ⟨i, hi, rfl⟩)
    · rw [← owned_of_held hr, owned_of_same hA (h.setDir_keeps hA b).1, owned_of_held hr]
    · rfl
    · obtain ⟨hi', hp'⟩ := htab i hi
      rw [held, held, if_pos ⟨hi', (hpde i hi).1⟩, if_pos ⟨hi', hp'⟩, (hpde i hi).2]
  obtain ⟨M', hI'⟩ := h.inv.restrict (closed_keptRoles hA d) (fun r hr => hr.imp_right keptRoles_root) hheld rfl
  obtain ⟨m', he', -, hs'⟩ := freevm_spec (fun r hr => Or.inl (hp r hr)) hI'
  refine ⟨fun i => frameOf (pde m2 d i), _, m', (exec_eq_with L m p _ _).trans (execWith_done hprep hrun he'), rfl, rfl,
      ?_, hM, ?_⟩
  · rw [translate_eq_held (by decide), held, if_neg]
    rintro ⟨-, hp'⟩
    have hzero := hs'.dirs d 0 ⟨Or.inr (Or.inl rfl), hne⟩ (by decide)
    refine absurd (table_of_present hp') ?_
    rw [show 0 / PGSIZE / 1024 = 0 from rfl, hzero, pde_setPage]
    apply not_present_sixes
    intro k hk
    rw [hb k (by omega) (by omega), dirByte, hk]
    rfl
  · intro k hk v hv hlt
    have hspan := (kmap_span L v).mp ⟨k, hk, hv⟩
    have hi : keptEntry (v / 1024) := by
      simp only [keptEntry]
      omega
    have hv20 : v < 2 ^ 20 := by omega
    have hdir : d ≠ frameOf (pde m2 d (v / 1024)) :=
      h.inv.table_ne_dir (mem_rooted _ rfl) (htab _ hi).1 (htab _ hi).2 (mem_rooted (.dir d) rfl)
    rw [hs'.entries d v ⟨Or.inr (Or.inr ⟨_, hi, rfl⟩), hne⟩ hv20, pte_of_present (hpde _ hi).1, (hpde _ hi).2,
      setPage_mem_ne _ _ hdir.symm, ← pte_of_present (htab _ hi).2]
    exact hready.kernel.mapped.segments k hk v hv

end

theorem null_caller : ∃ (A : Set Role) (M : Set ℕ) (m : PhysMem) (p : Proc) (d : ℕ)
    (ps : List ℕ), Inv sampleLayout A M m ∧ Spans A p.pgdir ∧ 71 ≤ m.freelist.length ∧ m.freelist = d :: ps ∧
    loadInt m p.pgdir 0 = .ok (d * PGSIZE + 7) ∧ ∀ q ∈ M, 4368 ≤ q ∧ q < 7936 := by
  have hman : ∀ q ∈ List.range' 4368 200, Managed sampleLayout q := by
    intro q hq
    rw [List.mem_range'_1] at hq
    simp only [Managed, sampleLayout, KERNBASE, PHYSTOP, PGSIZE]
    omega
  have hI : Inv sampleLayout ∅ {q | q ∈ List.range' 4368 200} ⟨fun _ => zero, List.range' 4368 200⟩ :=
    inv_empty (m := ⟨fun _ => zero, List.range' 4368 200⟩) List.nodup_range' hman
  have hlen : (List.range' 4368 200).length = 200 := List.length_range'
  rcases setupkvm_spec hI with ⟨-, -, -, -, hlt⟩ | ⟨d1, m1, he1, -, -, -, -, -, hlen1⟩
  · dsimp only at hlt
    omega
  have h1 := setupkvm_image hI he1
  have hone : pages PGSIZE - pages 0 = 1 := rfl
  dsimp only at hlen1
  obtain ⟨m2, -, h2, hlen2⟩ := h1.allocuvm_enough rfl le_rfl (Nat.zero_le PGSIZE) (by decide) (by decide) (by omega)
  obtain ⟨d, ps, hf⟩ : ∃ d ps, m2.freelist = d :: ps := List.exists_cons_of_length_pos (by omega)
  have h3 := h2.setFrame (by decide : 0 < pages PGSIZE) (by decide) (setWord zero 0 (d * PGSIZE + 7))
  have hd : d ∈ List.range' 4368 200 := (h2.inv.ledger.all d).mpr (Or.inl (hf ▸ List.mem_cons_self : d ∈ m2.freelist))
  have hbyte : ∀ k, k < 4 → loadByte (m2.setPage (frameOf (pte m2 d1 0)) (setWord zero 0 (d * PGSIZE + 7))) d1 k =
      .ok (setWord zero 0 (d * PGSIZE + 7) k) := by
    intro k hk
    have hk0 : k / PGSIZE = 0 ∧ k % PGSIZE = k := by
      simp only [PGSIZE]
      omega
    rw [loadByte_user (by simp only [KERNBASE]; omega)
        (by rw [hk0.1]; exact (h3.present_of_lt (by decide) (by decide)).2),
      h2.userByte_setFrame (by decide) (by decide), if_pos hk0.1, hk0.2]
  refine ⟨_, _, _, ⟨d1, PGSIZE, 0, 0, 0⟩, d, ps, h3.inv, mem_rooted, ?_, hf, ?_, fun q hq => ?_⟩
  · rw [setPage_freelist]
    omega
  · have hw : d * PGSIZE + 7 < 2 ^ 32 := by
      rw [List.mem_range'_1] at hd
      simp only [PGSIZE]
      omega
    simp only [loadInt, Nat.zero_add, hbyte 0 (by decide), hbyte 1 (by decide), hbyte 2 (by decide),
        hbyte 3 (by decide),
      Outcome.ok_bind]
    exact congrArg Except.ok (word_setWord_same zero 0 hw)
  · have hq' : q ∈ List.range' 4368 200 := hq
    rw [List.mem_range'_1] at hq'
    omega

end Xv6.Vm
