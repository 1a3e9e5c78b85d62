import Xv6.CopyOut
import Xv6.ExecImage
import Xv6.KernelEntries

/-!
The bytes of the address space that `exec` builds, and what the other address spaces keep meanwhile.
-/

namespace Xv6.Vm

open ByteMemory Ownership

def userByte (m : PhysMem) (d a : ℕ) : UInt8 :=
  match held m (.frame d (a / PGSIZE)) with
  | none => 0
  | some p => m.mem p (a % PGSIZE)

structure Stack (m : PhysMem) (d sz : ℕ) : Prop where
  aligned : sz % PGSIZE = 0
  two : 2 * PGSIZE ≤ sz
  guard : ¬userBit (pte m d (sz / PGSIZE - 2))
  top : userBit (pte m d (sz / PGSIZE - 1))

section

variable {L : Layout} {A : Set Role} {M : Set ℕ} {d sz v a : ℕ} {m0 m m' : PhysMem}

theorem userByte_of_held {q : ℕ} (h : held m (.frame d (a / PGSIZE)) = some q) : userByte m d a =
    m.mem q (a % PGSIZE) := by
  rw [userByte, h]

theorem userByte_of_none (h : held m (.frame d (a / PGSIZE)) = none) : userByte m d a = 0 := by
  rw [userByte, h]

variable {va : ℕ} {oldsz newsz r : ℕ} {ip : Inode} {b : Bool} {addr offset n : ℕ} {buf : List UInt8}

theorem translate_eq_held (hva : va < KERNBASE) : translate m d va = held m (.frame d (va / PGSIZE)) := by
  have hv : va / PGSIZE < userPages := by
    simp only [userPages, KERNBASE, PGSIZE] at *
    omega
  by_cases hp : present (pde m d (va / PGSIZE / 1024))
  · obtain ⟨hw, hpte⟩ := walkpgdir_entry hp
    simp only [translate, hw, hpte, held, hv, true_and]
  · have hpd : PDX va = va / PGSIZE / 1024 := by
      simp only [PDX, PGSIZE]
      omega
    rw [translate, walkpgdir_absent (by rwa [hpd]), held, if_neg]
    rw [pte_of_absent hp]
    exact fun h => present_zero h.2

theorem loadByte_user (ha : a < KERNBASE) (hp : present (pte m d (a / PGSIZE))) : loadByte m d a =
    .ok (userByte m d a) := by
  have hheld : held m (.frame d (a / PGSIZE)) = some (frameOf (pte m d (a / PGSIZE))) :=
    if_pos ⟨by simp only [userPages, KERNBASE, PGSIZE] at *; omega, hp⟩
  simp only [loadByte, translate_eq_held ha, userByte, hheld]

theorem userByte_congr (hheld : held m' (.frame d (a / PGSIZE)) = held m (.frame d (a / PGSIZE)))
    (hmem : ∀ q, held m (.frame d (a / PGSIZE)) = some q → m'.mem q (a % PGSIZE) = m.mem q (a % PGSIZE)) :
    userByte m' d a = userByte m d a := by
  cases hq : held m (.frame d (a / PGSIZE)) with
  | none => rw [userByte_of_none hq, userByte_of_none (hheld.trans hq)]
  | some q => rw [userByte_of_held hq, userByte_of_held (hheld.trans hq), hmem q hq]

theorem held_of_same (hI : Inv L A M m) (hs : Same A m m') {r : Role} (hr : r ∈ A) : held m' r = held m r := by
  rw [← owned_of_held hr, owned_of_same hI.closed hs, owned_of_held hr]

theorem Building.notMem_frame (h : Building L A M d m0 m) {r r' : Role} {q : ℕ} (hr : r ∈ A) (hr' : r'.root = d)
    (hq' : held m r' = some q) : held m r ≠ some q := by
  intro hq
  cases h.inv.held_inj (Or.inl hr) (mem_rooted r' hr') hq hq'
  exact h.root r hr' hr

theorem Building.setFrame_keeps (h : Building L A M d m0 m) (hv : v < userPages) (hp : present (pte m d v))
    (b : Bytes) :
    Keeps A m (m.setPage (frameOf (pte m d v)) b) := by
  refine ⟨fun r q hr hq => ?_, fun d' x q hr hq => setPage_mem_ne _ _ ?_⟩
  · rw [← hq]
    exact held_of_same h.inv (h.inv.same_setFrame (mem_rooted _ rfl) hv hp b) (Or.inl hr)
  · rintro rfl
    exact h.notMem_frame hr (rfl : (Role.frame d v).root = d) (if_pos ⟨hv, hp⟩) hq

theorem Image.present_of_lt (h : Image L A M d sz m0 m) (hsz : sz ≤ KERNBASE) (hv : v < pages sz) :
    v < userPages ∧ present (pte m d v) := by
  have hvu := hv.trans_le (pages_le_userPages hsz)
  exact ⟨hvu, (h.mapped v hvu).mpr hv⟩

theorem Image.userByte_setFrame (h : Image L A M d sz m0 m) (hsz : sz ≤ KERNBASE) (hv : v < pages sz) (b : Bytes) :
    userByte (m.setPage (frameOf (pte m d v)) b) d a = if a / PGSIZE = v then b (a % PGSIZE) else userByte m d a := by
  obtain ⟨hvu, hp⟩ := h.present_of_lt hsz hv
  have hs := h.inv.same_setFrame (mem_rooted (.frame d v) rfl) hvu hp b
  have hheld : ∀ x, held (m.setPage (frameOf (pte m d v)) b) (.frame d x) = held m (.frame d x) :=
    fun x => held_of_same h.inv hs (mem_rooted _ rfl)
  have hframe : held m (.frame d v) = some (frameOf (pte m d v)) := if_pos ⟨hvu, hp⟩
  split_ifs with ha
  · subst ha
    rw [userByte_of_held ((hheld _).trans hframe), setPage_mem_self]
  · refine userByte_congr (hheld _) fun q hq => ?_
    rw [setPage_mem_ne]
    rintro rfl
    exact ha (Role.frame.inj (h.inv.held_inj (mem_rooted _ rfl) (mem_rooted _ rfl) hq hframe)).2

theorem Image.allocuvm_bytes (h : Image L A M d sz m0 m) (hold : pages oldsz = pages sz)
    (hle : sz ≤ oldsz) (he : Vm.allocuvm L m d oldsz newsz = .ok (r, m')) :
    Keeps A m m' ∧ (r ≠ 0 → ∀ a, a < KERNBASE → userByte m' d a = userByte m d a) := by
  by_cases hnew : KERNBASE ≤ newsz
  · rw [Vm.allocuvm, if_pos hnew] at he
    cases he
    exact ⟨Keeps.refl A m, fun hr => absurd rfl hr⟩
  by_cases hlt : newsz < oldsz
  · rw [Vm.allocuvm, if_neg hnew, if_pos hlt] at he
    cases he
    exact ⟨Keeps.refl A m, fun _ _ _ => rfl⟩
  have hm : MapsBelow m d (pages oldsz) := by
    intro v hv
    rw [hold]
    exact h.mapped v hv
  obtain ⟨hk, hz⟩ := allocuvm_keeps mem_rooted (Nat.le_of_not_lt hlt) (Nat.lt_of_not_le hnew) h.inv hm he
  refine ⟨hk.mono Set.subset_union_left, fun hr a ha => ?_⟩
  have hau : a / PGSIZE < userPages := by
    simp only [userPages, KERNBASE, PGSIZE] at *
    omega
  cases hq : held m (.frame d (a / PGSIZE)) with
  | some q =>
    rw [userByte_of_held hq, userByte_of_held (hk.holds _ q (mem_rooted _ rfl) hq),
        hk.bytes d _ q (mem_rooted _ rfl) hq]
  | none =>
    -- a page that is new, or is still not there
    rw [userByte_of_none hq]
    cases hq' : held m' (.frame d (a / PGSIZE)) with
    | none => rw [userByte_of_none hq']
    | some q' =>
      obtain ⟨-, hp, rfl⟩ := held_frame_some hq'
      have hold' : pages oldsz ≤ a / PGSIZE := by
        by_contra hin
        rw [held, if_pos ⟨hau, (hm _ hau).mpr (by omega)⟩] at hq
        cases hq
      have hnew' : a / PGSIZE < pages newsz := by
        rcases h.allocuvm oldsz newsz hold hle with ⟨m2, he', -⟩ | ⟨m2, he', -, h'⟩
        · cases he.symm.trans he'
          exact absurd rfl hr
        · cases he.symm.trans he'
          rw [max_eq_right (Nat.le_of_not_lt hlt)] at h'
          exact (h'.mapped _ hau).mp hp
      rw [userByte_of_held hq', hz _ hold' hnew' hp]
      rfl

theorem allocLoop_dirs (hd : Spans A d) (hnew : newsz < KERNBASE) (hr : r ≠ 0)
    (v : ℕ) (m : PhysMem) (hI : Inv L A M m) (he : allocLoop L d oldsz newsz (v * PGSIZE) m = .ok (r, m')) {j : ℕ}
    (hj : j < NPDENTRIES) (hle : pages newsz ≤ 1024 * j) : pde m' d j = pde m d j := by
  have hpg : pages newsz ≤ userPages := pages_le_userPages hnew.le
  have hpg20 : pages newsz ≤ 2 ^ 20 := by rw [userPages_eq] at hpg; omega
  induction hk : pages newsz - v generalizing v m with
  | zero =>
    have hno : ¬v * PGSIZE < newsz := by
      rw [← lt_pages]
      omega
    rw [allocLoop, if_neg hno] at he
    cases he
    rfl
  | succ k ih =>
    rw [allocLoop, if_pos (lt_pages.mp (by omega))] at he
    cases hf : m.freelist with
    | nil =>
      simp only [kalloc, hf] at he
      obtain ⟨x, -, hok⟩ := Outcome.bind_eq_ok.mp he
      cases hok
      exact absurd rfl hr
    | cons p ps =>
      obtain ⟨hpM, hmp, hI1, hs1⟩ := hI.take hf zero
      simp only [kalloc, hf] at he
      rw [mappages_one (by omega : v < 2 ^ 20)] at he
      by_cases hpr : present (pte (({ m with freelist := ps } : PhysMem).setPage p zero) d v)
      · rw [mapPage_remap hpr] at he
        cases he
      rcases mapPage_user hI1 (hd (.frame d v) rfl) (by omega) hpr (by simp) hmp (PTE_W ||| PTE_U) (by decide) with
        ⟨-, -, hmap⟩ | ⟨m2, hmap, hI2, hm⟩
      · simp only [hmap, Outcome.ok_bind, Bool.false_eq_true, if_false] at he
        obtain ⟨x, -, hrest⟩ := Outcome.bind_eq_ok.mp he
        obtain ⟨y, -, hok⟩ := Outcome.bind_eq_ok.mp hrest
        cases hok
        exact absurd rfl hr
      · rw [insert_sdiff_mem hpM] at hI2
        have hnext : v * PGSIZE + PGSIZE = (v + 1) * PGSIZE := by ring
        rw [hmap] at he
        simp only [Outcome.ok_bind, if_true, hnext] at he
        rw [ih (v + 1) m2 hI2 he (by omega), hm.dirs d j (hd _ rfl) hj (fun _ => by omega), hs1.dirs d j (hd _ rfl) hj]

def Gap (m : PhysMem) (d : ℕ) : Prop := ∀ i, 568 ≤ i → i < 1016 → ¬present (pde m d i)

structure KernelPart (L : Layout) (m : PhysMem) (d : ℕ) : Prop where
  mapped : KernelMapped L m d
  gap : Gap m d

theorem Gap.of_dirs (h : Gap m d) (hd : ∀ i, 568 ≤ i → i < 1016 → pde m' d i = pde m d i) : Gap m' d := by
  intro i h1 h2
  rw [hd i h1 h2]
  exact h i h1 h2

theorem Gap.of_same {R : Set Role} (h : Gap m d) (hR : .dir d ∈ R) (hs : Same R m m') : Gap m' d :=
  h.of_dirs fun i _ h2 => hs.dirs d i hR (by simp only [NPDENTRIES]; omega)

theorem KernelPart.of_same (h : KernelPart L m d) (hs : Same (A ∪ rooted d) m m') : KernelPart L m' d :=
  ⟨h.mapped.congr fun v _ hv => hs.entries d v (mem_rooted _ rfl) hv, h.gap.of_same (mem_rooted _ rfl) hs⟩

theorem Image.allocuvm_kernel (h : Image L A M d sz m0 m) (hkern : KernelPart L m d)
    (he : Vm.allocuvm L m d oldsz newsz = .ok (r, m')) (hr : r ≠ 0) : KernelPart L m' d := by
  rcases allocuvm_spec (mem_rooted (A := A)) oldsz newsz h.inv with
    ⟨-, x, -, -, -, he'⟩ | ⟨-, -, he'⟩ | ⟨hle, hnew, m1, he', -, hc⟩ | ⟨-, he'⟩ | ⟨-, m1, he', -⟩
  · cases he.symm.trans he'
  · cases he.symm.trans he'
    exact hkern
  · cases he.symm.trans he'
    have hpg := pages_le_userPages hnew.le
    rw [Vm.allocuvm, if_neg (Nat.not_le.mpr hnew), if_neg (Nat.not_lt.mpr hle), PGROUNDUP_eq] at he
    refine ⟨hkern.mapped.congr fun v h1 h2 => ?_, hkern.gap.of_dirs fun i h1 h2 => ?_⟩
    · exact hc.others d v (mem_rooted _ rfl) h2 fun _ => Or.inr (by omega)
    · rw [userPages_eq] at hpg
      exact allocLoop_dirs mem_rooted hnew hr _ m h.inv he (by simp only [NPDENTRIES]; omega) (by omega)
  · cases he.symm.trans he'
    exact absurd rfl hr
  · cases he.symm.trans he'
    exact absurd rfl hr

def chunk (n i : ℕ) : ℕ := if n - i < PGSIZE then n - i else PGSIZE

def loadedPage (m : PhysMem) (d a : ℕ) (bs : List UInt8) : PhysMem :=
  m.setPage (frameOf (pte m d (a / PGSIZE))) (store (m.mem (frameOf (pte m d (a / PGSIZE)))) 0 bs)

theorem loadLoop_turn (h : Image L A M d sz m0 m) (hsz : sz ≤ KERNBASE) {addr offset n i : ℕ}
    (hn : addr + n ≤ sz) (hlt : i < n) (he : loadLoop d addr offset n ip i m = .ok (b, m')) :
    (addr + i) / PGSIZE < pages sz ∧ (b = false ∧ m' = m ∨ ∃ bs, ip.readi ((offset + i) % 2 ^ 32)
      (chunk n i) = some bs ∧ (b = false ∧ m' = loadedPage m d (addr + i) bs ∨ bs.length = chunk n i ∧
        loadLoop d addr offset n ip (i + PGSIZE) (loadedPage m d (addr + i) bs) = .ok (b, m'))) := by
  have hpg : (addr + i) / PGSIZE < pages sz := by
    rw [lt_pages]
    simp only [PGSIZE]
    omega
  refine ⟨hpg, ?_⟩
  obtain ⟨t, j, hw, hpte, -⟩ := h.walk hpg hsz
  rw [loadLoop, if_pos hlt, hw] at he
  simp only [hpte] at he
  simp only [chunk, loadedPage]
  generalize (if n - i < PGSIZE then n - i else PGSIZE) = k at he ⊢
  cases hr : ip.readi ((offset + i) % 2 ^ 32) k with
  | none =>
    rw [hr] at he
    cases he
    exact Or.inl ⟨rfl, rfl⟩
  | some bs =>
    rw [hr] at he
    simp only at he
    refine Or.inr ⟨bs, rfl, ?_⟩
    by_cases hlen : bs.length = k
    · rw [if_neg (not_not.mpr hlen)] at he
      exact Or.inr ⟨hlen, he⟩
    · rw [if_pos hlen] at he
      cases he
      exact Or.inl ⟨rfl, rfl⟩

theorem loadLoop_keeps (hsz : sz ≤ KERNBASE) (hn : addr + n ≤ sz) (ip : Inode) (i : ℕ)
    (m : PhysMem) (h : Image L A M d sz m0 m) (he : loadLoop d addr offset n ip i m = .ok (b, m')) : Keeps A m m' := by
  induction hk : n - i using Nat.strong_induction_on generalizing i m with
  | _ k ih =>
    subst hk
    by_cases hlt : i < n
    · obtain ⟨hpg, hturn⟩ := loadLoop_turn h hsz hn hlt he
      obtain ⟨hvu, hp⟩ := h.present_of_lt hsz hpg
      rcases hturn with ⟨-, rfl⟩ | ⟨bs, -, ⟨-, rfl⟩ | ⟨-, hrest⟩⟩
      · exact Keeps.refl A _
      · exact h.setFrame_keeps hvu hp _
      · exact (h.setFrame_keeps hvu hp _).trans
          (ih (n - (i + PGSIZE)) (by simp only [PGSIZE]; omega) (i + PGSIZE) _ (h.setFrame hpg hsz _) hrest rfl)
    · rw [loadLoop, if_neg hlt] at he
      cases he
      exact Keeps.refl A _

theorem loadLoop_same (hsz : sz ≤ KERNBASE) (hn : addr + n ≤ sz) (ip : Inode) (i : ℕ)
    (m : PhysMem) (h : Image L A M d sz m0 m) (he : loadLoop d addr offset n ip i m = .ok (b, m')) :
    Same (A ∪ rooted d) m m' := by
  induction hk : n - i using Nat.strong_induction_on generalizing i m with
  | _ k ih =>
    subst hk
    by_cases hlt : i < n
    · obtain ⟨hpg, hturn⟩ := loadLoop_turn h hsz hn hlt he
      obtain ⟨hvu, hp⟩ := h.present_of_lt hsz hpg
      have hs := fun b => h.inv.same_setFrame (mem_rooted (.frame d _) rfl) hvu hp b
      rcases hturn with ⟨-, rfl⟩ | ⟨bs, -, ⟨-, rfl⟩ | ⟨-, hrest⟩⟩
      · exact Same.refl _ _
      · exact hs _
      · exact (hs _).trans (ih (n - (i + PGSIZE)) (by simp only [PGSIZE]; omega)
            (i + PGSIZE) _ (h.setFrame hpg hsz _) hrest rfl)
    · rw [loadLoop, if_neg hlt] at he
      cases he
      exact Same.refl _ _

theorem loadSegments_turn {n off : ℕ} {r : Option ℕ}
    (he : Vm.loadSegments L ip d (n + 1) off sz m = .ok (r, m')) : (r = none ∧ m' = m) ∨
    ∃ bs, readAll ip off sizeofProghdr = some bs ∧ ((proghdr bs).type ≠ ELF_PROG_LOAD ∧
          Vm.loadSegments L ip d n ((off + sizeofProghdr) % 2 ^ 32) sz m = .ok (r, m') ∨
        (proghdr bs).type = ELF_PROG_LOAD ∧ (proghdr bs).filesz ≤ (proghdr bs).memsz ∧
          ∃ sz1 m1, Vm.allocuvm L m d sz ((proghdr bs).vaddr + (proghdr bs).memsz) = .ok (sz1, m1) ∧
            (r = none ∧ m' = m1 ∨ sz1 ≠ 0 ∧ (proghdr bs).vaddr % PGSIZE = 0 ∧
              ∃ b m2, loadLoop d (proghdr bs).vaddr (proghdr bs).off (proghdr bs).filesz ip 0 m1 = .ok (b, m2) ∧
                (r = none ∧ m' = m2 ∨ b = true ∧
                  Vm.loadSegments L ip d n ((off + sizeofProghdr) % 2 ^ 32) sz1 m2 = .ok (r, m')))) := by
  rw [Vm.loadSegments] at he
  cases hr : readAll ip off sizeofProghdr with
  | none =>
    rw [hr] at he
    cases he
    exact Or.inl ⟨rfl, rfl⟩
  | some bs =>
    rw [hr] at he
    simp only at he
    by_cases ht : (proghdr bs).type ≠ ELF_PROG_LOAD
    · rw [if_pos ht] at he
      exact Or.inr ⟨bs, rfl, Or.inl ⟨ht, he⟩⟩
    rw [if_neg ht] at he
    by_cases hm : (proghdr bs).memsz < (proghdr bs).filesz
    · rw [if_pos hm] at he
      cases he
      exact Or.inl ⟨rfl, rfl⟩
    rw [if_neg hm] at he
    by_cases hw : ((proghdr bs).vaddr + (proghdr bs).memsz) % 2 ^ 32 < (proghdr bs).vaddr
    · rw [if_pos hw] at he
      cases he
      exact Or.inl ⟨rfl, rfl⟩
    rw [if_neg hw] at he
    have hvlt : (proghdr bs).vaddr < 2 ^ 32 := word_lt _ _
    have hmlt : (proghdr bs).memsz < 2 ^ 32 := word_lt _ _
    rw [show ((proghdr bs).vaddr + (proghdr bs).memsz) % 2 ^ 32 = (proghdr bs).vaddr + (proghdr bs).memsz by omega]
        at he
    obtain ⟨⟨sz1, m1⟩, he1, hrest⟩ := Outcome.bind_eq_ok.mp he
    refine Or.inr ⟨bs, rfl, Or.inr ⟨not_not.mp ht, by omega, sz1, m1, he1, ?_⟩⟩
    simp only at hrest
    by_cases hz : sz1 = 0
    · rw [if_pos hz] at hrest
      cases hrest
      exact Or.inl ⟨rfl, rfl⟩
    rw [if_neg hz] at hrest
    by_cases hal : (proghdr bs).vaddr % PGSIZE ≠ 0
    · rw [if_pos hal] at hrest
      cases hrest
      exact Or.inl ⟨rfl, rfl⟩
    rw [if_neg hal] at hrest
    obtain ⟨⟨b, m2⟩, he2, hrest⟩ := Outcome.bind_eq_ok.mp hrest
    rw [Vm.loaduvm, if_neg hal] at he2
    refine Or.inr ⟨hz, not_not.mp hal, b, m2, he2, ?_⟩
    cases b with
    | false =>
      cases hrest
      exact Or.inl ⟨rfl, rfl⟩
    | true => exact Or.inr ⟨rfl, hrest⟩

theorem Image.segment (h : Image L A M d sz m0 m) (hsz : sz < KERNBASE) {newsz sz1 : ℕ} {m1 : PhysMem}
    (he : Vm.allocuvm L m d sz newsz = .ok (sz1, m1)) (hpos : sz1 ≠ 0) :
    sz1 = max sz newsz ∧ sz1 < KERNBASE ∧ Image L A M d sz1 m0 m1 := by
  rcases h.allocuvm sz newsz rfl le_rfl with ⟨m2, he', -⟩ | ⟨m2, he', hk, h1⟩
  · cases he.symm.trans he'
    exact absurd rfl hpos
  · cases he.symm.trans he'
    exact ⟨rfl, max_lt hsz hk, h1⟩

theorem Image.loaded (h : Image L A M d sz m0 m) (hsz : sz ≤ KERNBASE)
    (hn : addr + n ≤ sz) (he : loadLoop d addr offset n ip 0 m = .ok (b, m')) : Image L A M d sz m0 m' := by
  obtain ⟨b', m2, he', h'⟩ : ∃ b' m2, loadLoop d addr offset n ip 0 m = .ok (b', m2) ∧ Image L A M d sz m0 m2 :=
    loadLoop_spec hsz hn ip 0 m h
  cases he.symm.trans he'
  exact h'

theorem Image.loadSegments_keeps (ip : Inode) (n off sz : ℕ) (m : PhysMem) (h : Image L A M d sz m0 m)
    (hsz : sz < KERNBASE) {r : Option ℕ} (he : Vm.loadSegments L ip d n off sz m = .ok (r, m')) : Keeps A m m' := by
  induction n generalizing off sz m with
  | zero =>
    cases he
    exact Keeps.refl A _
  | succ n ih =>
    rcases loadSegments_turn he with ⟨-, rfl⟩ | ⟨bs, -, ⟨-, hrest⟩ | ⟨-, hle, sz1, m1, he1, hrest⟩⟩
    · exact Keeps.refl A _
    · exact ih _ sz m h hsz hrest
    · have hk1 := (h.allocuvm_bytes rfl le_rfl he1).1
      rcases hrest with ⟨-, rfl⟩ | ⟨hpos, -, b, m2, he2, hrest⟩
      · exact hk1
      · obtain ⟨hmax, hlt, h1⟩ := h.segment hsz he1 hpos
        have hload : (proghdr bs).vaddr + (proghdr bs).filesz ≤ sz1 := by omega
        have hk2 := hk1.trans (loadLoop_keeps hlt.le hload ip 0 m1 h1 he2)
        rcases hrest with ⟨-, rfl⟩ | ⟨-, hrest⟩
        · exact hk2
        · exact hk2.trans (ih _ sz1 m2 (h1.loaded hlt.le hload he2) hlt hrest)

theorem Image.clearpteu_entries (h : Image L A M d sz m0 m) (hsz : sz ≤ KERNBASE) (hv : va / PGSIZE < pages sz)
    (he : Vm.clearpteu m d va = .ok m') :
    Keeps A m m' ∧ (∀ a, userByte m' d a = userByte m d a) ∧ (∀ i, i < NPDENTRIES → pde m' d i = pde m d i) ∧
      ∀ x, x < 2 ^ 20 → pte m' d x = if x = va / PGSIZE then clearBit (pte m d x) else pte m d x := by
  obtain ⟨hvu, hp⟩ := h.present_of_lt hsz hv
  have hv20 := lt_of_lt_userPages hvu
  have hpd := table_of_present hp
  obtain ⟨hw, hpte⟩ := walkpgdir_entry hpd
  obtain ⟨hc1, hc2, hc3⟩ := clearBit_spec hp
  simp only [Vm.clearpteu, hw, hpte] at he
  cases he
  have hlt : clearBit (pte m d (va / PGSIZE)) < 2 ^ 32 := by
    rw [← hpte] at hc3 ⊢
    exact lt_of_le_of_lt hc3 (word_lt _ _)
  have hs := h.inv.setPte_views (mem_rooted _ rfl) hv20 hpd hlt
  have hent : ∀ x, x < 2 ^ 20 → pte (m.setEntry (frameOf (pde m d (va / PGSIZE / 1024))) (va / PGSIZE % 1024)
      (clearBit (pte m d (va / PGSIZE)))) d x = if x = va / PGSIZE then clearBit (pte m d x) else pte m d x := by
    intro x hx
    rw [hs.entries d x (mem_rooted _ rfl) hx]
    by_cases hxv : x = va / PGSIZE
    · rw [if_pos ⟨rfl, hxv⟩, if_pos hxv, hxv]
    · rw [if_neg fun hc => hxv hc.2, if_neg hxv]
  have hkeep := hs.keeps h.inv (mem_rooted _ rfl) hv20 hpd rfl fun q hq => setEntry_mem_ne m _ _ hq
  refine ⟨hkeep.mono fun r hr => ⟨Or.inl hr, ?_⟩, fun a => ?_, fun i hi => hs.dirs d i (mem_rooted _ rfl) hi, hent⟩
  · rintro x rfl
    exact absurd hr (h.root _ rfl)
  · refine userByte_congr ?_ fun q hq => ?_
    · simp only [held]
      by_cases hau : a / PGSIZE < userPages
      · rw [hent _ (lt_of_lt_userPages hau)]
        split_ifs with hxv hx1 hx2 hx2
        · rw [hxv, hc2]
        · exact absurd ⟨hau, by rw [hxv]; exact hp⟩ hx2
        · exact absurd ⟨hau, by rw [hxv]; exact hc1⟩ hx1
        · rfl
        · rfl
        · rfl
      · simp only [hau, false_and, if_false]
    · rw [setEntry_mem_ne]
      rintro rfl
      cases h.inv.held_inj (mem_rooted _ rfl) (mem_rooted (.table d (va / PGSIZE / 1024)) rfl) hq
        (if_pos ⟨div_lt_entries hv20, hpd⟩)

theorem Image.clearpteu_kernel (h : Image L A M d sz m0 m) (hsz : sz ≤ KERNBASE) (hv : va / PGSIZE < pages sz)
    (hkern : KernelPart L m d) (he : Vm.clearpteu m d va = .ok m') : KernelPart L m' d := by
  obtain ⟨-, -, hdirs, hent⟩ := h.clearpteu_entries hsz hv he
  have hvu := (h.present_of_lt hsz hv).1
  refine ⟨hkern.mapped.congr fun v h1 h2 => ?_, hkern.gap.of_dirs fun i _ h2 => hdirs i ?_⟩
  · rw [hent v h2, if_neg (by omega)]
  · simp only [NPDENTRIES]
    omega

theorem Building.apart (h : Building L A M d m0 m) (hk : ∀ v, userPages ≤ v → v < 2 ^ 20 →
    ¬userBit (pte m d v)) : Apart m d :=
  h.inv.apart mem_rooted hk

theorem WrittenInside.same (h : Image L A M d sz m0 m) (hw : WrittenInside m m' d) : Same (A ∪ rooted d) m m' := by
  have hframe : ∀ v, v < 2 ^ 20 → Accessible m d v → held m (.frame d v) = some (frameOf (pte m d v)) := by
    intro v hv ha
    refine if_pos ⟨?_, ha.1⟩
    by_contra hu
    exact h.kernel v (by omega) hv ha.2
  have hdir : ∀ d', .dir d' ∈ A ∪ rooted d → m'.mem d' = m.mem d' := by
    intro d' hd'
    refine hw.others d' fun v hv ha he => ?_
    cases h.inv.held_inj hd' (mem_rooted (.frame d v) rfl) rfl (he ▸ hframe v hv ha)
  have hpde : ∀ d' i, .dir d' ∈ A ∪ rooted d → pde m' d' i = pde m d' i := fun d' i hd' => by rw [pde, hdir d' hd', pde]
  refine ⟨fun d' i hd' _ => hpde d' i hd', fun d' x ht hx => ?_⟩
  have hd' := h.inv.closed.dir _ _ ht
  by_cases hp : present (pde m d' (x / 1024))
  · have htab : m'.mem (frameOf (pde m d' (x / 1024))) = m.mem (frameOf (pde m d' (x / 1024))) := by
      refine hw.others _ fun v hv ha he => ?_
      have hheld : held m (.table d' (x / 1024)) = some (frameOf (pde m d' (x / 1024))) :=
          if_pos ⟨div_lt_entries hx, hp⟩
      cases h.inv.held_inj ht (mem_rooted (.frame d v) rfl) hheld (he ▸ hframe v hv ha)
    rw [pte_of_present (by rw [hpde d' _ hd']; exact hp), pte_of_present hp, hpde d' _ hd', htab]
  · rw [pte_of_absent (by rw [hpde d' _ hd']; exact hp), pte_of_absent hp]

theorem WrittenInside.keeps (h : Image L A M d sz m0 m) (hw : WrittenInside m m' d) : Keeps A m m' := by
  refine ⟨fun r q hr hq => ?_, fun d' x q hr hq => hw.others q fun v hv ha he => ?_⟩
  · rw [← hq]
    exact held_of_same h.inv (hw.same h) (Or.inl hr)
  · refine h.notMem_frame hr (rfl : (Role.frame d v).root = d) (if_pos ⟨?_, ha.1⟩) (he ▸ hq)
    by_contra hu
    exact h.kernel v (by omega) hv ha.2

theorem Written.inside (hw : Written m m' d va buf)
    (hall : ∀ i, i < buf.length → Accessible m d (pageOf (va + i))) : WrittenInside m m' d := by
  refine ⟨fun p hp => ?_, hw.free⟩
  funext k
  refine hw.others p k fun i hi he => absurd he (hp _ (pageOf_lt _) (hall i hi))

theorem Written.userByte (h : Image L A M d sz m0 m) (hw : Written m m' d va buf)
    (hall : ∀ i, i < buf.length → Accessible m d (pageOf (va + i))) (hva : va + buf.length ≤ KERNBASE)
    (ha : a < KERNBASE) :
    userByte m' d a = if va ≤ a ∧ a < va + buf.length then buf.getD (a - va) 0 else Vm.userByte m d a := by
  have hs := (hw.inside hall).same h
  have hpage : ∀ x, x < KERNBASE → pageOf x = x / PGSIZE := by
    intro x hx
    simp only [pageOf, KERNBASE] at *
    rw [Nat.mod_eq_of_lt (by omega)]
  have hheld := held_of_same h.inv hs (mem_rooted (.frame d (a / PGSIZE)) rfl)
  split_ifs with hin
  · obtain ⟨i, rfl⟩ := Nat.exists_eq_add_of_le hin.1
    have hi : i < buf.length := by omega
    have hacc := hall i hi
    rw [hpage _ ha] at hacc
    have hframe : held m (.frame d ((va + i) / PGSIZE)) = some (frameOf (pte m d ((va + i) / PGSIZE))) :=
      if_pos ⟨by simp only [userPages, KERNBASE, PGSIZE] at *; omega, hacc.1⟩
    have hbyte := hw.bytes i hi
    rw [frameAt, hpage _ ha] at hbyte
    rw [userByte_of_held (hheld.trans hframe), hbyte, Nat.add_sub_cancel_left, List.getD_eq_getElem _ _ hi]
  · refine userByte_congr hheld fun q hq => hw.others q _ fun i hi he hk => hin ?_
    have hx : va + i < KERNBASE := by omega
    have hacc := hall i hi
    rw [hpage _ hx] at hacc
    have hframe : held m (.frame d ((va + i) / PGSIZE)) = some q := by
      rw [he, frameAt, hpage _ hx]
      exact if_pos ⟨by simp only [userPages, KERNBASE, PGSIZE] at *; omega, hacc.1⟩
    have hv := (Role.frame.inj (h.inv.held_inj (mem_rooted _ rfl) (mem_rooted _ rfl) hq hframe)).2
    simp only [PGSIZE] at hv hk
    omega

def Tabled (sz va len : ℕ) : Prop :=
  va + len ≤ sz ∨ KERNBASE ≤ va ∧ va < 2 ^ 32 ∧ (va < KERNBASE + PHYSTOP ∨ DEVSPACE ≤ va)

theorem Image.copyout_stack (h : Image L A M d sz m0 m) (hsz : sz ≤ KERNBASE)
    (hst : Stack m d sz) (hr : Tabled sz va buf.length) (hpos : 0 < buf.length)
    (hend : sz ≤ va + buf.length + PGSIZE + 3) :
    ∃ b m', (∀ null, copyoutWith null d va buf m = .ok (b, m')) ∧ Image L A M d sz m0 m' ∧ Stack m' d sz ∧
      Keeps A m m' ∧ Same (A ∪ rooted d) m m' ∧ (b = true ↔ va + buf.length ≤ sz ∧ sz - PGSIZE ≤ va) ∧
      (b = true → ∀ a, a < KERNBASE →
        userByte m' d a = if va ≤ a ∧ a < va + buf.length then buf.getD (a - va) 0 else userByte m d a) ∧
      ∀ a, a / PGSIZE = sz / PGSIZE - 2 → userByte m' d a = userByte m d a := by
  have hapart := h.toBuilding.apart h.kernel
  obtain ⟨haligned, htwo, hguard, htop⟩ := hst
  have hva : va < 2 ^ 32 := by
    simp only [Tabled, KERNBASE] at *
    omega
  have hpage : ∀ x, x < KERNBASE → pageOf x = x / PGSIZE := by
    intro x hx
    simp only [pageOf, KERNBASE] at *
    rw [Nat.mod_eq_of_lt (by omega)]
  have hnum : pages sz = sz / PGSIZE ∧ 2 ≤ sz / PGSIZE := by
    simp only [pages, PGSIZE] at *
    omega
  have hguardFrame : held m (.frame d (sz / PGSIZE - 2)) = some (frameOf (pte m d (sz / PGSIZE - 2))) :=
    if_pos (h.present_of_lt hsz (by omega))
  have hinside : ∀ m', WrittenInside m m' d → Image L A M d sz m0 m' ∧ Stack m' d sz ∧ Keeps A m m' ∧
      Same (A ∪ rooted d) m m' ∧
      ∀ a, a / PGSIZE = sz / PGSIZE - 2 → userByte m' d a = userByte m d a := by
    intro m' hw
    have hs := hw.same h
    have hlt : sz / PGSIZE < 2 ^ 20 := by
      simp only [KERNBASE, PGSIZE] at *
      omega
    refine ⟨h.of_same hs hw.free, ⟨haligned, htwo, ?_, ?_⟩, hw.keeps h, hs, fun a ha => ?_⟩
    · rw [hs.entries d _ (mem_rooted _ rfl) (by omega)]
      exact hguard
    · rw [hs.entries d _ (mem_rooted _ rfl) (by omega)]
      exact htop
    · refine userByte_congr (held_of_same h.inv hs (mem_rooted _ rfl)) fun q hq => ?_
      rw [ha, hguardFrame] at hq
      cases hq
      rw [hw.others _ fun v hv hv' he => ?_]
      have hvu : v < userPages := by
        by_contra hu
        exact h.kernel v (by omega) hv hv'.2
      have heq := h.inv.held_inj (mem_rooted _ rfl) (mem_rooted (.frame d v) rfl) hguardFrame (he ▸ if_pos ⟨hvu, hv'.1⟩)
      rw [← (Role.frame.inj heq).2] at hv'
      exact hguard hv'.2
  have hkern : KERNBASE ≤ va → ¬Accessible m d (pageOf (va + 0)) := by
    intro hk hacc
    refine absurd hacc.2 (h.kernel _ ?_ (pageOf_lt _))
    simp only [pageOf, userPages, KERNBASE, PGSIZE] at *
    omega
  rcases missing_or_all m d va buf.length with hall | ⟨i, hi, hm⟩
  · have hin : va + buf.length ≤ sz := by
      rcases hr with hin | ⟨hk, -, -⟩
      · exact hin
      · exact absurd (hall 0 hpos) (hkern hk)
    obtain ⟨m', hrun, hw⟩ := copyoutWith_all hapart hva (by simp only [KERNBASE] at *; omega) hall
    obtain ⟨himg, hst', hkeep, hs, hg⟩ := hinside m' (hw.inside hall)
    have hlow : sz - PGSIZE ≤ va := by
      by_contra hlow
      -- the byte below the stack page, or the last byte, is in the guard page
      obtain ⟨j, hj, hpg⟩ : ∃ j, j < buf.length ∧ (va + j) / PGSIZE = sz / PGSIZE - 2 := by
        rcases Nat.lt_or_ge (va + buf.length) (sz - PGSIZE) with hshort | hlong
        · exact ⟨buf.length - 1, by omega, by simp only [PGSIZE] at *; omega⟩
        · exact ⟨sz - PGSIZE - 1 - va, by omega, by simp only [PGSIZE] at *; omega⟩
      have hacc := hall j hj
      rw [hpage _ (by omega), hpg] at hacc
      exact hguard hacc.2
    exact ⟨true, m', hrun, himg, hst', hkeep, hs, iff_of_true rfl ⟨hin, hlow⟩,
      fun _ a ha => hw.userByte h hall (by omega) ha, hg⟩
  · have htab : HasTable m d (pageOf (va + i)) := by
      rcases hr with hin | ⟨hk, hlt, hk'⟩
      · rw [hpage _ (by omega)]
        have hpg : (va + i) / PGSIZE < pages sz := by
          rw [lt_pages]
          simp only [PGSIZE]
          omega
        exact table_of_present (h.present_of_lt hsz hpg).2
      · obtain rfl : i = 0 := by
          by_contra hne
          exact hkern hk (hm.1 0 (by omega))
        refine h.tables _ ?_
        simp only [pageOf, KERNBASE, PHYSTOP, DEVSPACE, PGSIZE, kernelTables, Finset.mem_union, Finset.mem_Ico] at *
        omega
    obtain ⟨m', hrun, hw⟩ := (copyoutWith_missing hapart hva hi hm).1 htab
    obtain ⟨himg, hst', hkeep, hs, hg⟩ := hinside m' hw
    refine ⟨false, m', hrun, himg, hst', hkeep, hs, iff_of_false (by decide) ?_,
      fun hb => absurd hb (by decide), hg⟩
    rintro ⟨hin, hlow⟩
    apply hm.2
    have hpg : (va + i) / PGSIZE = sz / PGSIZE - 1 := by
      simp only [PGSIZE] at *
      omega
    rw [hpage _ (by omega), hpg]
    exact ⟨(h.present_of_lt hsz (by omega)).2, htop⟩

end

end Xv6.Vm
