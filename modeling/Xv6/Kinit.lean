import Xv6.PageConservation

/-!
The free list that `kinit1` and `kinit2` make of the memory behind the kernel.
-/

namespace Xv6.Vm

open Xv6.ByteMemory

variable {L : Layout} {m : PhysMem}

/-- `kfree` of a virtual address; below `KERNBASE` is below `end`. -/
def kfreeAddr (L : Layout) (m : PhysMem) (v : ℕ) : Outcome PhysMem :=
  if v % PGSIZE ≠ 0 ∨ v < KERNBASE then .error "kfree" else kfree L m ((v - KERNBASE) / PGSIZE)

def freeLoop (L : Layout) (vend p : ℕ) (m : PhysMem) : Outcome PhysMem :=
  if p + PGSIZE ≤ vend then do
    let m ← kfreeAddr L m p
    freeLoop L vend (p + PGSIZE) m
  else .ok m
termination_by vend - p
decreasing_by
  simp only [PGSIZE] at *
  omega

def freerange (L : Layout) (m : PhysMem) (vstart vend : ℕ) : Outcome PhysMem := freeLoop L vend (PGROUNDUP vstart) m

/-- `P2V(4*1024*1024)` -/
def entryEnd : ℕ := KERNBASE + 4 * 1024 * 1024

def kinit1 (L : Layout) (m : PhysMem) : Outcome PhysMem := freerange L m L.endAddr entryEnd

def kinit2 (L : Layout) (m : PhysMem) : Outcome PhysMem := freerange L m entryEnd (KERNBASE + PHYSTOP)

/-- The kstacks of the other processors. -/
def startothers : ℕ → PhysMem → List (Option ℕ) × PhysMem
  | 0, m => ([], m)
  | n + 1, m =>
    let (stack, m) := kalloc m
    let (kstacks, m) := startothers n m
    (stack :: kstacks, m)

/-- What `main` does with the memory before `userinit`, with `n` other processors. -/
def mainInit (L : Layout) (n : ℕ) (m : PhysMem) : Outcome (Option (ℕ × List (Option ℕ) × PhysMem)) := do
  let m ← kinit1 L m
  let (kpgdir, m) ← setupkvm L m
  match kpgdir with
  -- `kvmalloc` loads the page table without a test; the machine goes no further
  | none => .ok none
  | some kpgdir =>
    let (kstacks, m) := startothers n m
    let m ← kinit2 L m
    .ok (some (kpgdir, kstacks, m))

theorem freeLoop_frees {A : Set Role} {M : Set ℕ} {a b : ℕ} (hend : L.endAddr ≤ KERNBASE + a * PGSIZE)
    (htop : b * PGSIZE ≤ PHYSTOP) (m : PhysMem) (hI : Inv L A M m) (hnew : ∀ q, a ≤ q → q ∉ M) :
    ∃ m', freeLoop L (KERNBASE + b * PGSIZE) (KERNBASE + a * PGSIZE) m = .ok m' ∧ Inv L A (M ∪ Set.Ico a b) m' ∧
      m'.freelist.length = m.freelist.length + (b - a) ∧ Same A m m' := by
  have hpos : 0 < PGSIZE := by decide
  induction hn : b - a generalizing a M m with
  | zero =>
    have hle : b * PGSIZE ≤ a * PGSIZE := Nat.mul_le_mul_right _ (by omega)
    refine ⟨m, ?_, ?_, rfl, Same.refl A m⟩
    · rw [freeLoop, if_neg (by omega)]
    · rwa [Set.Ico_eq_empty (by omega), Set.union_empty]
  | succ n ih =>
    have hle : (a + 1) * PGSIZE ≤ b * PGSIZE := Nat.mul_le_mul_right _ (by omega)
    have hnext := Nat.add_one_mul a PGSIZE
    obtain ⟨m1, hfree, hlist, -, hs1, hI1⟩ := hI.kfree (hnew a le_rfl) ⟨hend, by omega⟩
    have hkfree : kfreeAddr L m (KERNBASE + a * PGSIZE) = .ok m1 := by
      have hmod : (KERNBASE + a * PGSIZE) % PGSIZE = 0 := by
        rw [Nat.add_mul_mod_self_right]
        rfl
      rw [kfreeAddr, if_neg (by omega), Nat.add_sub_cancel_left, Nat.mul_div_cancel _ hpos, hfree]
    obtain ⟨m2, hloop, hI2, hlen, hs2⟩ := ih (a := a + 1) (by omega) m1 hI1 (by
      rintro q hq (rfl | hqM)
      · omega
      · exact hnew q (by omega) hqM) (by omega)
    refine ⟨m2, ?_, ?_, ?_, hs1.trans hs2⟩
    · have hpage : KERNBASE + a * PGSIZE + PGSIZE = KERNBASE + (a + 1) * PGSIZE := by omega
      rw [freeLoop, if_pos (by omega), hkfree, Outcome.ok_bind, hpage, hloop]
    · have hset : M ∪ Set.Ico a b = insert a M ∪ Set.Ico (a + 1) b := by
        rw [← Set.insert_Ico_add_one_left_eq_Ico (by omega : a < b), Set.union_insert, Set.insert_union]
      rwa [hset]
    · rw [hlen, hlist, List.length_cons]
      omega

theorem startothers_eq (n : ℕ) (m : PhysMem) (hn : n ≤ m.freelist.length) :
    startothers n m = ((m.freelist.take n).map some, { m with freelist := m.freelist.drop n }) := by
  induction n generalizing m with
  | zero => rfl
  | succ n ih =>
    cases hf : m.freelist with
    | nil => simp [hf] at hn
    | cons p ps =>
      rw [hf, List.length_cons] at hn
      simp only [startothers, kalloc, hf]
      rw [ih { m with freelist := ps } (by simpa using hn)]
      rfl

theorem Inv.kallocs {A : Set Role} {M : Set ℕ} (n : ℕ) (m : PhysMem) (hI : Inv L A M m) :
    Inv L A (M \ {q | q ∈ m.freelist.take n}) { m with freelist := m.freelist.drop n } := by
  induction n generalizing M m with
  | zero => simpa using hI
  | succ n ih =>
    obtain ⟨mem, _ | ⟨p, ps⟩⟩ := m
    · simpa using hI
    · have h := ih ⟨mem, ps⟩ (hI.kalloc rfl).2
      have hset : M \ {q | q ∈ (p :: ps).take (n + 1)} = (M \ {p}) \ {q | q ∈ ps.take n} := by
        ext q
        simp only [List.take_succ_cons, List.mem_cons, Set.mem_sdiff, Set.mem_ofPred_eq, Set.mem_singleton_iff]
        tauto
      rw [hset]
      exact h

/-- The number of the first page behind the kernel. -/
def firstFree (L : Layout) : ℕ := (L.endAddr - KERNBASE + PGSIZE - 1) / PGSIZE

theorem roundup_end (L : Layout) : PGROUNDUP L.endAddr = KERNBASE + firstFree L * PGSIZE := by
  have h1 := L.text_nonempty
  have h2 := L.data_lt_end
  simp only [PGROUNDUP, firstFree, KERNLINK, KERNBASE, PGSIZE] at *
  omega

theorem firstFree_le_iff (L : Layout) (q : ℕ) : firstFree L ≤ q ↔ L.endAddr ≤ KERNBASE + q * PGSIZE := by
  have h1 := L.text_nonempty
  have h2 := L.data_lt_end
  simp only [firstFree, KERNLINK, KERNBASE, PGSIZE] at *
  omega

theorem room_iff (L : Layout) (k : ℕ) : L.endAddr + k * PGSIZE ≤ entryEnd ↔ firstFree L + k ≤ 1024 := by
  have h1 := L.text_nonempty
  have h2 := L.data_lt_end
  have hend : entryEnd = 2151677952 := rfl
  simp only [hend, firstFree, KERNLINK, KERNBASE, PGSIZE] at *
  omega

theorem managed_iff (L : Layout) (q : ℕ) : Managed L q ↔ firstFree L ≤ q ∧ q < 57344 := by
  rw [firstFree_le_iff, Managed, show PHYSTOP = 57344 * PGSIZE from rfl, Nat.mul_lt_mul_right (by decide)]

theorem kinit1_frees (L : Layout) (mem : ℕ → Bytes) : ∃ m, kinit1 L ⟨mem, []⟩ = .ok m ∧
    Inv L ∅ (Set.Ico (firstFree L) 1024) m ∧ m.freelist.length = 1024 - firstFree L := by
  have hI : Inv L ∅ ∅ ⟨mem, []⟩ := by
    refine ⟨⟨fun _ _ h => h.elim, fun _ _ h => h.elim⟩, List.nodup_nil, ⟨?_, ?_, ?_⟩, fun _ h => h.elim⟩
    · intro r x h
      simp [owned] at h
    · intro r r' x h
      simp [owned] at h
    · simp [owned]
  obtain ⟨m, hm, hIm, hlen, -⟩ := freeLoop_frees ((firstFree_le_iff L _).mp le_rfl) (b := 1024) (by decide) _ hI
    (fun _ _ h => h.elim)
  rw [Set.empty_union] at hIm
  refine ⟨m, ?_, hIm, hlen.trans (Nat.zero_add _)⟩
  rw [kinit1, freerange, roundup_end]
  exact hm

/-- With room for its page table below 4 MB the kernel has every page behind it on the free list, in the page table or
as the stack of another processor, and in one of these places only; otherwise it gets no page table. -/
theorem boot_pages (L : Layout) (mem : ℕ → Bytes) (n : ℕ) :
    (L.endAddr + (65 + n) * PGSIZE ≤ entryEnd → ∃ (kpgdir : ℕ) (kstacks : List ℕ) (m' : PhysMem),
      mainInit L n ⟨mem, []⟩ = .ok (some (kpgdir, kstacks.map some, m')) ∧ kstacks.length = n ∧ kstacks.Nodup ∧
      (∀ q ∈ kstacks, Managed L q) ∧ Inv L (rooted kpgdir) {q | Managed L q ∧ q ∉ kstacks} m' ∧
      (∀ i, i < NPDENTRIES → (present (pde m' kpgdir i) ↔ i ∈ kernelTables)) ∧
      firstFree L + m'.freelist.length + 65 + n = 57344) ∧
    (entryEnd < L.endAddr + 65 * PGSIZE → mainInit L n ⟨mem, []⟩ = .ok none) := by
  obtain ⟨m1, hm1, hI1, hlen1⟩ := kinit1_frees L mem
  constructor
  · intro hle
    rw [room_iff] at hle
    rcases setupkvm_spec hI1 with ⟨_, -, -, -, hlt⟩ | ⟨d, m2, hm2, -, hI2, -, htables, -, hlen2⟩
    · omega
    rw [Set.empty_union] at hI2
    have hI3 := hI2.kallocs n
    obtain ⟨m4, hm4, hI4, hlen4, hs4⟩ := freeLoop_frees (L := L) (a := 1024) (b := 57344)
      ((firstFree_le_iff L _).mp (by omega)) (by decide) _ hI3 fun q hq hqM => by
        have := hqM.1.2
        omega
    have hstack : ∀ q ∈ m2.freelist.take n, firstFree L ≤ q ∧ q < 1024 := fun q hq =>
      hI2.ledger.mem_of_free (List.mem_of_mem_take hq)
    refine ⟨d, m2.freelist.take n, m4, ?_, ?_, hI2.nodup.sublist (List.take_sublist ..), ?_, ?_, ?_, ?_⟩
    · rw [mainInit, hm1, Outcome.ok_bind, hm2, Outcome.ok_bind]
      simp only [startothers_eq n m2 (by omega), kinit2, freerange]
      rw [show PGROUNDUP entryEnd = KERNBASE + 1024 * PGSIZE by decide,
        show KERNBASE + PHYSTOP = KERNBASE + 57344 * PGSIZE from rfl, hm4]
      rfl
    · rw [List.length_take]
      omega
    · intro q hq
      have := hstack q hq
      rw [managed_iff]
      omega
    · have hset : {q | Managed L q ∧ q ∉ m2.freelist.take n} =
          Set.Ico (firstFree L) 1024 \ {q | q ∈ m2.freelist.take n} ∪ Set.Ico 1024 57344 := by
        ext q
        simp only [managed_iff, Set.mem_ofPred_eq, Set.mem_union, Set.mem_sdiff, Set.mem_Ico]
        by_cases hq : q ∈ m2.freelist.take n
        · have := hstack q hq
          simp only [hq, not_true_eq_false, and_false, false_or, false_iff]
          omega
        · simp only [hq, not_false_eq_true, and_true]
          omega
      rw [hset]
      exact hI4
    · intro i hi
      rw [← htables i hi, hs4.dirs d i rfl hi]
      rfl
    · simp only [List.length_drop] at hlen4
      omega
  · intro hlt
    rw [← not_le, room_iff] at hlt
    rcases setupkvm_spec hI1 with ⟨m2, hm2, -⟩ | ⟨_, _, -, -, -, -, -, -, hlen2⟩
    · rw [mainInit, hm1, Outcome.ok_bind, hm2]
      rfl
    · omega

theorem boot_pages_sample : ∃ (kpgdir : ℕ) (kstacks : List ℕ) (m' : PhysMem),
    mainInit sampleLayout 3 ⟨fun _ => zero, []⟩ = .ok (some (kpgdir, kstacks.map some, m')) ∧ kstacks.length = 3 ∧
      kstacks.Nodup ∧ m'.freelist.length = 56999 ∧ Inv sampleLayout (rooted kpgdir)
        {q | Managed sampleLayout q ∧ q ∉ kstacks} m' := by
  obtain ⟨d, ps, m', he, hlen, hnodup, -, hI, -, hfree⟩ := (boot_pages sampleLayout (fun _ => zero) 3).1 (by decide)
  have hfirst : firstFree sampleLayout = 277 := by decide
  exact ⟨d, ps, m', he, hlen, hnodup, by omega, hI⟩

end Xv6.Vm
