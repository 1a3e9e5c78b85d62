import Xv6.Ownership
import Xv6.Vm

namespace Xv6.Vm

open Xv6.ByteMemory Xv6.Ownership

inductive Role where
  | dir (d : ℕ)
  | table (d i : ℕ)
  | frame (d v : ℕ)
deriving DecidableEq

def Role.root : Role → ℕ
  | .dir d => d
  | .table d _ => d
  | .frame d _ => d

abbrev Spans (A : Set Role) (d : ℕ) : Prop := ∀ r : Role, r.root = d → r ∈ A

abbrev Avoids (A : Set Role) (d : ℕ) : Prop := ∀ r : Role, r.root = d → r ∉ A

def userPages : ℕ := KERNBASE / PGSIZE

def pde (m : PhysMem) (d i : ℕ) : ℕ := word (m.mem d) i

def pte (m : PhysMem) (d v : ℕ) : ℕ :=
  if present (pde m d (v / 1024)) then word (m.mem (frameOf (pde m d (v / 1024)))) (v % 1024) else 0

def held (m : PhysMem) : Role → Option ℕ
  | .dir d => some d
  | .table d i => if i < NPDENTRIES ∧ present (pde m d i) then some (frameOf (pde m d i)) else none
  | .frame d v => if v < userPages ∧ present (pte m d v) then some (frameOf (pte m d v)) else none

open Classical in
noncomputable def owned (A : Set Role) (m : PhysMem) (r : Role) : Option ℕ := if r ∈ A then held m r else none

structure Closed (A : Set Role) : Prop where
  dir : ∀ d i, .table d i ∈ A → .dir d ∈ A
  table : ∀ d v, .frame d v ∈ A → .table d (v / 1024) ∈ A

def Managed (L : Layout) (p : ℕ) : Prop := L.endAddr ≤ KERNBASE + p * PGSIZE ∧ p * PGSIZE < PHYSTOP

structure Inv (L : Layout) (A : Set Role) (M : Set ℕ) (m : PhysMem) : Prop where
  closed : Closed A
  nodup : m.freelist.Nodup
  ledger : Ledger M {p | p ∈ m.freelist} (owned A m)
  managed : ∀ p ∈ M, Managed L p

structure Same (A : Set Role) (m m' : PhysMem) : Prop where
  dirs : ∀ d i, .dir d ∈ A → i < NPDENTRIES → pde m' d i = pde m d i
  entries : ∀ d v, .table d (v / 1024) ∈ A → v < 2 ^ 20 → pte m' d v = pte m d v

theorem present_zero : ¬present 0 := by decide

variable {f p d : ℕ} {m m' : PhysMem} {A : Set Role}

theorem entry_add (p : ℕ) (hf : f < PGSIZE) : p * PGSIZE ||| f = p * PGSIZE + f := by
  have h := Nat.two_pow_add_eq_or_of_lt (i := 12) hf p
  rw [show (2 : ℕ) ^ 12 = PGSIZE from rfl, Nat.mul_comm] at h
  exact h.symm

theorem or_present (w : ℕ) : present (w ||| PTE_P) := by
  have h := Nat.or_mod_two_pow (n := 1) (a := w) (b := 1)
  rcases Nat.mod_two_eq_zero_or_one w with hw | hw <;>
    simp only [present, PTE_P, pow_one, hw] at h ⊢ <;> rw [h] <;> rfl

theorem frameOf_add (p : ℕ) (hf : f < PGSIZE) : frameOf (p * PGSIZE + f) = p := by
  simp only [frameOf, PGSIZE] at *
  omega

theorem perm_lt (hf : f < PGSIZE) : f ||| PTE_P < PGSIZE :=
  Nat.or_lt_two_pow (n := 12) hf (by decide)

theorem pte_word (p : ℕ) (hf : f < PGSIZE) : p * PGSIZE ||| f ||| PTE_P = p * PGSIZE + (f ||| PTE_P) := by
  rw [Nat.or_assoc, entry_add p (perm_lt hf)]

theorem pde_word (p : ℕ) : p * PGSIZE ||| PTE_P ||| PTE_W ||| PTE_U = p * PGSIZE + 7 := by
  rw [Nat.or_assoc, Nat.or_assoc, show PTE_P ||| (PTE_W ||| PTE_U) = 7 from rfl, entry_add p (by decide)]

theorem Managed.lt {L : Layout} (h : Managed L p) : p < 57344 := by
  have := h.2
  simp only [PGSIZE, PHYSTOP] at this
  omega

theorem Managed.pos {L : Layout} (h : Managed L p) : p ≠ 0 := by
  have h1 := h.1
  have h2 := L.text_nonempty
  have h3 := L.data_lt_end
  simp only [KERNLINK, EXTMEM, PGSIZE] at *
  omega

@[simp] theorem setPage_freelist (m : PhysMem) (p : ℕ) (b : Bytes) : (m.setPage p b).freelist = m.freelist := rfl

@[simp] theorem setEntry_freelist (m : PhysMem) (p i w : ℕ) : (m.setEntry p i w).freelist = m.freelist := rfl

theorem setPage_mem_ne (m : PhysMem) {p q : ℕ} (b : Bytes) (h : q ≠ p) : (m.setPage p b).mem q = m.mem q :=
  Function.update_of_ne h _ _

theorem setPage_mem_self (m : PhysMem) (p : ℕ) (b : Bytes) : (m.setPage p b).mem p = b :=
  Function.update_self _ _ _

theorem setEntry_mem_ne (m : PhysMem) {p q : ℕ} (i w : ℕ) (h : q ≠ p) : (m.setEntry p i w).mem q = m.mem q :=
  setPage_mem_ne m _ h

theorem pde_setEntry_ne (m : PhysMem) (i w j : ℕ) (h : d ≠ p) : pde (m.setEntry p i w) d j = pde m d j := by
  simp only [pde, setEntry_mem_ne m i w h]

theorem word_setEntry (m : PhysMem) (p : ℕ) {i w : ℕ} (j : ℕ) (hw : w < 2 ^ 32) :
    word ((m.setEntry p i w).mem p) j = if j = i then w else word (m.mem p) j := by
  simp only [PhysMem.setEntry, setPage_mem_self]
  split_ifs with h
  · rw [h, word_setWord_same _ _ hw]
  · exact word_setWord_ne _ _ h

theorem pte_of_absent {d v : ℕ} (h : ¬present (pde m d (v / 1024))) : pte m d v = 0 := if_neg h

theorem pte_of_present {d v : ℕ} (h : present (pde m d (v / 1024))) :
    pte m d v = word (m.mem (frameOf (pde m d (v / 1024)))) (v % 1024) := if_pos h

theorem Same.refl (A : Set Role) (m : PhysMem) : Same A m m := ⟨fun _ _ _ _ => rfl, fun _ _ _ _ => rfl⟩

theorem Same.trans {m m' m'' : PhysMem} (h : Same A m m') (h' : Same A m' m'') : Same A m m'' :=
  ⟨fun d i hd hi => (h'.dirs d i hd hi).trans (h.dirs d i hd hi),
    fun d v ht hv => (h'.entries d v ht hv).trans (h.entries d v ht hv)⟩

theorem Same.of_mem {m m' m'' : PhysMem} (h : Same A m m') (he : m''.mem = m'.mem) : Same A m m'' := by
  refine ⟨?_, ?_⟩
  · intro d i hd hi
    simp only [pde, he]
    exact h.dirs d i hd hi
  · intro d v ht hv
    simp only [pte, pde, he]
    exact h.entries d v ht hv

theorem Same.mono {A B : Set Role} (h : Same B m m') (hAB : A ⊆ B) : Same A m m' :=
  ⟨fun d i hd hi => h.dirs d i (hAB hd) hi, fun d v ht hv => h.entries d v (hAB ht) hv⟩

theorem held_congr {r : Role} (hpde : ∀ d i, r = .table d i → i < NPDENTRIES → pde m' d i = pde m d i)
    (hpte : ∀ d v, r = .frame d v → v < userPages → pte m' d v = pte m d v) : held m' r = held m r := by
  cases r with
  | dir d => rfl
  | table d i =>
    simp only [held]
    by_cases hi : i < NPDENTRIES
    · rw [hpde d i rfl hi]
    · simp only [hi, false_and, if_false]
  | frame d v =>
    simp only [held]
    by_cases hv : v < userPages
    · rw [hpte d v rfl hv]
    · simp only [hv, false_and, if_false]

theorem userPages_eq : userPages = 524288 := by decide

theorem owned_of_same (hA : Closed A) (h : Same A m m') (r : Role) : owned A m' r = owned A m r := by
  simp only [owned]
  split_ifs with hr
  · apply held_congr
    · rintro d i rfl hi
      exact h.dirs d i (hA.dir d i hr) hi
    · rintro d v rfl hv
      rw [userPages_eq] at hv
      exact h.entries d v (hA.table d v hr) (by omega)
  · rfl

section

variable {L : Layout} {A : Set Role} {M : Set ℕ} {m m' : PhysMem}

theorem Inv.same (hI : Inv L A M m) (h : Same A m m') (hf : m'.freelist = m.freelist) : Inv L A M m' where
  closed := hI.closed
  nodup := hf ▸ hI.nodup
  ledger := by
    rw [hf]
    exact hI.ledger.congr (owned_of_same hI.closed h)
  managed := hI.managed

theorem inv_empty (hnodup : m.freelist.Nodup) (hman : ∀ p ∈ m.freelist, Managed L p) :
    Inv L ∅ {p | p ∈ m.freelist} m := by
  have hnone : ∀ r, owned ∅ m r = none := fun r => if_neg (Set.notMem_empty r)
  refine ⟨⟨fun _ _ h => h.elim, fun _ _ h => h.elim⟩, hnodup, ⟨?_, ?_, ?_⟩, hman⟩
  · intro r p h
    rw [hnone] at h
    cases h
  · intro r r' p h
    rw [hnone] at h
    cases h
  · intro p
    simp only [hnone, reduceCtorEq, exists_false, or_false]

theorem Inv.dir_owned {d : ℕ} (hd : .dir d ∈ A) : owned A m (.dir d) = some d := if_pos hd

theorem table_owned {d i : ℕ} (ht : .table d i ∈ A) (hi : i < NPDENTRIES) (hp : present (pde m d i)) :
    owned A m (.table d i) = some (frameOf (pde m d i)) := by
  simp only [owned, held, ht, hi, hp, and_self, if_true]

theorem frame_owned {d v : ℕ} (ht : .frame d v ∈ A) (hv : v < userPages) (hp : present (pte m d v)) :
    owned A m (.frame d v) = some (frameOf (pte m d v)) := by
  simp only [owned, held, ht, hv, hp, and_self, if_true]

theorem Inv.dir_mem (hI : Inv L A M m) {d : ℕ} (hd : .dir d ∈ A) : d ∈ M :=
  hI.ledger.mem_of_held (Inv.dir_owned hd)

theorem Inv.table_mem (hI : Inv L A M m) {d i : ℕ} (ht : .table d i ∈ A) (hi : i < NPDENTRIES)
    (hp : present (pde m d i)) : frameOf (pde m d i) ∈ M := hI.ledger.mem_of_held (table_owned ht hi hp)

theorem Inv.table_ne_dir (hI : Inv L A M m) {d d' i : ℕ} (ht : .table d i ∈ A) (hi : i < NPDENTRIES)
    (hp : present (pde m d i)) (hd : .dir d' ∈ A) : d' ≠ frameOf (pde m d i) := by
  intro he
  have h := hI.ledger.inj _ _ _ (table_owned ht hi hp) (he ▸ Inv.dir_owned hd)
  cases h

theorem Inv.table_inj (hI : Inv L A M m) {d d' i i' : ℕ} (ht : .table d i ∈ A) (hi : i < NPDENTRIES)
    (hp : present (pde m d i)) (ht' : .table d' i' ∈ A) (hi' : i' < NPDENTRIES) (hp' : present (pde m d' i'))
    (he : frameOf (pde m d' i') = frameOf (pde m d i)) : d' = d ∧ i' = i := by
  have h := hI.ledger.inj _ _ _ (table_owned ht hi hp) (he ▸ table_owned ht' hi' hp')
  cases h
  exact ⟨rfl, rfl⟩

theorem div_lt_entries {v : ℕ} (hv : v < 2 ^ 20) : v / 1024 < NPDENTRIES := by
  simp only [NPDENTRIES]
  omega

theorem same_setPage (hA : Closed A) {p : ℕ} (hdir : ∀ d, .dir d ∈ A → d ≠ p)
    (htab : ∀ d i, .table d i ∈ A → i < NPDENTRIES → present (pde m d i) → frameOf (pde m d i) ≠ p) (b : Bytes) :
    Same A m (m.setPage p b) := by
  have hpde : ∀ d i, .dir d ∈ A → pde (m.setPage p b) d i = pde m d i := by
    intro d i hd
    simp only [pde, setPage_mem_ne m b (hdir d hd)]
  refine ⟨fun d i hd _ => hpde d i hd, ?_⟩
  intro d v ht hv
  simp only [pte, hpde d _ (hA.dir d _ ht)]
  split_ifs with hpr
  · rw [setPage_mem_ne m b (htab d _ ht (div_lt_entries hv) hpr)]
  · rfl

theorem Inv.same_setPage (hI : Inv L A M m) {p : ℕ} (hp : p ∉ M) (b : Bytes) : Same A m (m.setPage p b) := by
  apply Vm.same_setPage hI.closed
  · rintro d hd rfl
    exact hp (hI.dir_mem hd)
  · rintro d i ht hi hpr rfl
    exact hp (hI.table_mem ht hi hpr)

theorem Inv.same_setFrame (hI : Inv L A M m) {d v : ℕ} (hr : .frame d v ∈ A) (hv : v < userPages)
    (hp : present (pte m d v)) (b : Bytes) : Same A m (m.setPage (frameOf (pte m d v)) b) := by
  have hown := frame_owned hr hv hp
  apply Vm.same_setPage hI.closed
  · intro d' hd' he
    have h := hI.ledger.inj _ _ _ hown (he ▸ Inv.dir_owned hd')
    cases h
  · intro d' i ht hi hpr he
    have h := hI.ledger.inj _ _ _ hown (he ▸ table_owned ht hi hpr)
    cases h

theorem Inv.kalloc (hI : Inv L A M m) {p : ℕ} {ps : List ℕ} (hf : m.freelist = p :: ps) :
    p ∈ M ∧ Inv L A (M \ {p}) { m with freelist := ps } := by
  have hn := hI.nodup
  rw [hf, List.nodup_cons] at hn
  have hp : p ∈ {q | q ∈ m.freelist} := by simp [hf]
  refine ⟨hI.ledger.mem_of_free hp, hI.closed, hn.2, ?_, fun q hq => hI.managed q hq.1⟩
  have he : ({q | q ∈ m.freelist} : Set ℕ) \ {p} = {q | q ∈ ps} := by
    ext q
    simp only [hf, List.mem_cons, Set.mem_sdiff, Set.mem_ofPred_eq, Set.mem_singleton_iff]
    constructor
    · rintro ⟨rfl | hq, hne⟩
      · exact absurd rfl hne
      · exact hq
    · intro hq
      exact ⟨Or.inr hq, by rintro rfl; exact hn.1 hq⟩
  rw [← he]
  exact hI.ledger.pop hp

theorem Inv.kfree (hI : Inv L A M m) {p : ℕ} (hp : p ∉ M) (hmp : Managed L p) :
    ∃ m', Vm.kfree L m p = .ok m' ∧ m'.freelist = p :: m.freelist ∧ m'.mem = (m.setPage p (freed m.freelist)).mem ∧
      Same A m m' ∧ Inv L A (insert p M) m' := by
  have hok : Vm.kfree L m p = .ok { m.setPage p (freed m.freelist) with freelist := p :: m.freelist } := by
    simp only [Vm.kfree]
    rw [if_neg]
    have h1 := hmp.1
    have h2 := hmp.2
    omega
  have hs : Same A m { m.setPage p (freed m.freelist) with freelist := p :: m.freelist } :=
    (hI.same_setPage hp (freed m.freelist)).of_mem rfl
  refine ⟨_, hok, rfl, rfl, hs, hI.closed, ?_, ?_, ?_⟩
  · refine List.nodup_cons.mpr ⟨fun hf => hp (hI.ledger.mem_of_free hf), hI.nodup⟩
  · have h := (hI.ledger.put hp).congr (owned_of_same hI.closed hs)
    convert h using 1
    ext q
    simp only [List.mem_cons, Set.mem_ofPred_eq, Set.mem_insert_iff]
  · rintro q (rfl | hq)
    · exact hmp
    · exact hI.managed q hq

end

end Xv6.Vm
