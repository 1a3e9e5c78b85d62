import Xv6.UserMap

namespace Xv6.Vm

open Xv6.ByteMemory Xv6.Ownership

structure Keeps (R : Set Role) (m m' : PhysMem) : Prop where
  holds : ∀ r q, r ∈ R → held m r = some q → held m' r = some q
  bytes : ∀ d v q, .frame d v ∈ R → held m (.frame d v) = some q → m'.mem q = m.mem q

def outside (A : Set Role) (d lo hi : ℕ) : Set Role := {r | r ∈ A ∧ ∀ v, r = .frame d v → v < lo ∨ hi ≤ v}

def MapsBelow (m : PhysMem) (d n : ℕ) : Prop := ∀ v, v < userPages → (present (pte m d v) ↔ v < n)

section

variable {L : Layout} {A R R' : Set Role} {M : Set ℕ} {m m' m'' : PhysMem} {d v p q lo hi : ℕ}

theorem Keeps.refl (R : Set Role) (m : PhysMem) : Keeps R m m := ⟨fun _ _ _ h => h, fun _ _ _ _ _ => rfl⟩

theorem Keeps.trans (h : Keeps R m m') (h' : Keeps R m' m'') : Keeps R m m'' := by
  constructor
  · intro r q hr hq
    exact h'.holds r q hr (h.holds r q hr hq)
  · intro d v q hr hq
    rw [h'.bytes d v q hr (h.holds _ q hr hq), h.bytes d v q hr hq]

theorem Keeps.mono (h : Keeps R' m m') (hR : R ⊆ R') : Keeps R m m' :=
  ⟨fun r q hr => h.holds r q (hR hr), fun d v q hr => h.bytes d v q (hR hr)⟩

theorem outside_subset (A : Set Role) (d lo hi : ℕ) : outside A d lo hi ⊆ A := fun _ h => h.1

theorem outside_mono {lo' : ℕ} (h : lo ≤ lo') : outside A d lo hi ⊆ outside A d lo' hi := by
  rintro r ⟨hr, hv⟩
  refine ⟨hr, fun v he => ?_⟩
  have := hv v he
  omega

theorem Keeps.of_absent (h : Keeps (outside A d lo hi) m m')
    (habs : ∀ v, lo ≤ v → v < hi → ¬present (pte m d v)) : Keeps A m m' := by
  have hout : ∀ r q, r ∈ A → held m r = some q → r ∈ outside A d lo hi := by
    refine fun r q hr hq => ⟨hr, ?_⟩
    rintro v rfl
    by_contra hv
    have hno := habs v (by omega) (by omega)
    simp only [held, hno, and_false, if_false] at hq
    cases hq
  exact ⟨fun r q hr hq => h.holds r q (hout r q hr hq) hq, fun d v q hr hq => h.bytes d v q (hout _ q hr hq) hq⟩

theorem held_frame_some (h : held m (.frame d v) = some q) :
    v < userPages ∧ present (pte m d v) ∧ frameOf (pte m d v) = q := by
  simp only [held] at h
  split_ifs at h with hc
  exact ⟨hc.1, hc.2, Option.some.inj h⟩

theorem owned_of_held {r : Role} (hr : r ∈ A) : owned A m r = held m r := if_pos hr

theorem Inv.held_notMem_free (hI : Inv L A M m) {r : Role} (hr : r ∈ A) (hq : held m r = some q) : q ∉ m.freelist :=
  hI.ledger.apart r q ((owned_of_held hr).trans hq)

theorem Inv.held_inj (hI : Inv L A M m) {r r' : Role} (hr : r ∈ A) (hr' : r' ∈ A) (hq : held m r = some q)
    (hq' : held m r' = some q) : r = r' :=
  hI.ledger.inj r r' q ((owned_of_held hr).trans hq) ((owned_of_held hr').trans hq')

theorem Inv.free_or_held (hI : Inv L A M m) (hq : q ∈ M) : q ∈ m.freelist ∨ ∃ r ∈ A, held m r = some q := by
  rcases (hI.ledger.all q).mp hq with h | ⟨r, hr⟩
  · exact Or.inl h
  · by_cases hA : r ∈ A
    · exact Or.inr ⟨r, hA, (owned_of_held hA).symm.trans hr⟩
    · rw [owned, if_neg hA] at hr
      cases hr

theorem Keeps.of_same (hA : Closed A) (hs : Same A m m') (hR : R ⊆ A)
    (hp : ∀ d v, .frame d v ∈ R → held m (.frame d v) ≠ some p) (hm : ∀ q, q ≠ p → m'.mem q = m.mem q) :
    Keeps R m m' := by
  constructor
  · intro r q hr hq
    have := owned_of_same hA hs r
    rw [owned_of_held (hR hr), owned_of_held (hR hr)] at this
    rw [this, hq]
  · intro d v q hr hq
    apply hm
    rintro rfl
    exact hp d v hr hq

theorem Inv.take_keeps (hI : Inv L A M m) {ps : List ℕ} (hf : m.freelist = p :: ps) (b : Bytes) :
    Keeps A m (({ m with freelist := ps } : PhysMem).setPage p b) := by
  obtain ⟨-, -, -, hs⟩ := hI.take hf b
  refine Keeps.of_same (p := p) hI.closed hs le_rfl (fun d v hr hq => ?_) fun q hq => setPage_mem_ne _ b hq
  exact hI.held_notMem_free hr hq (by rw [hf]; exact List.mem_cons_self)

theorem Inv.kfree_keeps (hI : Inv L A M m) (hp : p ∉ M) (he : Vm.kfree L m p = .ok m') (hmp : Managed L p) :
    Keeps A m m' := by
  obtain ⟨m1, he', -, hmem, hs, -⟩ := hI.kfree hp hmp
  cases he.symm.trans he'
  refine Keeps.of_same (p := p) hI.closed hs le_rfl (fun d v hr hq => ?_) fun q hq => ?_
  · exact hp (hI.ledger.mem_of_held ((owned_of_held hr).trans hq))
  · rw [hmem]
    exact setPage_mem_ne _ _ hq

theorem walkpgdir_mem {va : ℕ} (hd : q ≠ d) (hq : q ∉ m.freelist) : (walkpgdir m d va true).2.mem q = m.mem q := by
  by_cases hp : present (pde m d (PDX va))
  · rw [walkpgdir_present hp]
  · change ¬present (word (m.mem d) (PDX va)) at hp
    simp only [walkpgdir, if_neg hp, Bool.not_true, Bool.false_eq_true, if_false]
    cases hf : m.freelist with
    | nil => simp only [kalloc, hf]
    | cons p ps =>
      have hqp : q ≠ p := by
        rintro rfl
        exact hq (by rw [hf]; exact List.mem_cons_self)
      simp only [kalloc, hf]
      rw [setEntry_mem_ne _ _ _ hd, setPage_mem_ne _ _ hqp]

theorem walkpgdir_keeps (hI : Inv L A M m) {va : ℕ} (ht : .table d (PDX va) ∈ A) (hva : PDX va < NPDENTRIES) :
    Keeps A m (walkpgdir m d va true).2 := by
  constructor
  · intro r q hr hq
    rcases walkpgdir_alloc hI va ht hva with ⟨-, -, he⟩ | ⟨m', he, -, hw⟩
    · rw [he]
      exact hq
    · rw [he, ← hq]
      apply held_congr
      · rintro d' i rfl hi
        -- The table of the walk is new, or the walk changed nothing.
        rcases hw.cost with ⟨-, rfl⟩ | ⟨habs, -⟩
        · rfl
        · refine hw.dirs d' i (hI.closed.dir _ _ hr) hi ?_
          rintro rfl rfl
          simp only [held, habs, and_false, if_false] at hq
          cases hq
      · rintro d' v rfl hv
        exact hw.entries d' v (hI.closed.table _ _ hr) (lt_of_lt_userPages hv)
  · intro d' v q hr hq
    apply walkpgdir_mem _ (hI.held_notMem_free hr hq)
    rintro rfl
    cases hI.held_inj hr (hI.closed.dir _ _ ht) hq rfl

theorem SetPte.keeps {w t : ℕ} (hI : Inv L A M m) (ht : .table d (v / 1024) ∈ A) (hv : v < 2 ^ 20)
    (hp : present (pde m d (v / 1024))) (hs : SetPte A d v w m m') (htab : frameOf (pde m d (v / 1024)) = t)
    (hm : ∀ q, q ≠ t → m'.mem q = m.mem q) : Keeps (outside A d v (v + 1)) m m' := by
  have hown : held m (.table d (v / 1024)) = some t := by
    rw [← htab]
    exact if_pos ⟨div_lt_entries hv, hp⟩
  constructor
  · rintro r q ⟨hr, hne⟩ hq
    rw [← hq]
    apply held_congr
    · rintro d' i rfl hi
      exact hs.dirs d' i (hI.closed.dir _ _ hr) hi
    · rintro d' x rfl hx
      rw [hs.entries d' x (hI.closed.table _ _ hr) (lt_of_lt_userPages hx), if_neg]
      rintro ⟨rfl, rfl⟩
      have := hne x rfl
      omega
  · intro d' x q hr hq
    apply hm
    rintro rfl
    cases hI.held_inj hr.1 ht hq hown

variable {pa perm : ℕ} {b : Bool} {oldsz newsz r : ℕ}

theorem mapPage_eq (hI : Inv L A M m) (ht : .table d (v / 1024) ∈ A) (hv : v < 2 ^ 20) (habs : ¬present (pte m d v))
    (he : mapPage m d (v * PGSIZE) pa perm = .ok (b, m')) :
    m' = m ∨ ∃ m1, (walkpgdir m d (v * PGSIZE) true).2 = m1 ∧ Inv L A M m1 ∧ Walked A d (v / 1024) m m1 ∧
      m' = m1.setEntry (frameOf (pde m1 d (v / 1024))) (v % 1024) (pa ||| perm ||| PTE_P) := by
  have halloc := walkpgdir_alloc hI (v * PGSIZE) (d := d)
  rw [PDX_page, PTX_page] at halloc
  simp only [mapPage] at he
  rcases halloc ht (div_lt_entries hv) with ⟨-, -, hwalk⟩ | ⟨m1, hwalk, hI1, hw⟩
  · rw [hwalk] at he
    cases he
    exact Or.inl rfl
  · rw [hwalk] at he
    simp only at he
    have hentry : ¬present (pte m1 d v) := by
      rw [hw.entries d v ht hv]
      exact habs
    rw [← pte_of_present hw.here, if_neg hentry] at he
    cases he
    exact Or.inr ⟨m1, by rw [hwalk], hI1, hw, rfl⟩

theorem mapPage_keeps (hI : Inv L A M m) (ht : .table d (v / 1024) ∈ A) (hv : v < 2 ^ 20) (habs : ¬present (pte m d v))
    (hw : pa ||| perm ||| PTE_P < 2 ^ 32) (he : mapPage m d (v * PGSIZE) pa perm = .ok (b, m')) : Keeps A m m' := by
  rcases mapPage_eq hI ht hv habs he with rfl | ⟨m1, hwalk, hI1, hw1, rfl⟩
  · exact Keeps.refl A m'
  · have hkeep : Keeps A m (walkpgdir m d (v * PGSIZE) true).2 :=
      walkpgdir_keeps hI (by rw [PDX_page]; exact ht) (by rw [PDX_page]; exact div_lt_entries hv)
    rw [hwalk] at hkeep
    refine hkeep.trans ?_
    have hset := hI1.setPte_views ht hv hw1.here hw
    have hk := hset.keeps hI1 ht hv hw1.here rfl fun q hq => setEntry_mem_ne m1 _ _ hq
    refine hk.of_absent fun x h1 h2 => ?_
    rw [show x = v by omega, hw1.entries d v ht hv]
    exact habs

theorem mapPage_mem (hI : Inv L A M m) (ht : .table d (v / 1024) ∈ A) (hv : v < 2 ^ 20) (habs : ¬present (pte m d v))
    (he : mapPage m d (v * PGSIZE) pa perm = .ok (b, m')) (hq : q ∉ M) : m'.mem q = m.mem q := by
  rcases mapPage_eq hI ht hv habs he with rfl | ⟨m1, hwalk, hI1, hw1, rfl⟩
  · rfl
  · have h1 : q ≠ frameOf (pde m1 d (v / 1024)) := by
      rintro rfl
      exact hq (hI1.table_mem ht (div_lt_entries hv) hw1.here)
    have h2 : q ≠ d := by
      rintro rfl
      exact hq (hI.dir_mem (hI.closed.dir _ _ ht))
    rw [setEntry_mem_ne _ _ _ h1, ← hwalk, walkpgdir_mem h2 fun hf => hq (hI.ledger.mem_of_free hf)]

theorem unmap_keeps (hI : Inv L A M m) (hr : .frame d v ∈ A) (hv : v < userPages) (hp : present (pte m d v))
    (he : kfree L m (frameOf (pte m d v)) = .ok m') :
    Keeps (outside A d v (v + 1)) m (m'.setEntry (frameOf (pde m d (v / 1024))) (v % 1024) 0) := by
  have ht := hI.closed.table _ _ hr
  have hv' := lt_of_lt_userPages hv
  have hpd := table_of_present hp
  have hmem : m'.mem = (m.setPage (frameOf (pte m d v)) (freed m.freelist)).mem := by
    rw [kfree] at he
    split_ifs at he
    cases he
    rfl
  obtain ⟨m1, hk, -, hc⟩ := unmap_one hI hr hv hp
  cases he.symm.trans hk
  have hown : held m (.frame d v) = some (frameOf (pte m d v)) := if_pos ⟨hv, hp⟩
  have htab : held m (.table d (v / 1024)) = some (frameOf (pde m d (v / 1024))) := if_pos ⟨div_lt_entries hv', hpd⟩
  constructor
  · rintro r q ⟨hrA, hne⟩ hq
    rw [← hq]
    apply held_congr
    · rintro d' i rfl hi
      exact hc.dirs d' i (hI.closed.dir _ _ hrA) hi
    · rintro d' x rfl hx
      rw [hc.entries d' x (hI.closed.table _ _ hrA) (lt_of_lt_userPages hx), if_neg]
      rintro ⟨rfl, h1, h2, -⟩
      have := hne x rfl
      omega
  · rintro d' x q ⟨hrA, hne⟩ hq
    have h1 : q ≠ frameOf (pde m d (v / 1024)) := by
      rintro rfl
      cases hI.held_inj hrA ht hq htab
    have h2 : q ≠ frameOf (pte m d v) := by
      rintro rfl
      cases hI.held_inj hrA hr hq hown
      have := hne v rfl
      omega
    rw [setEntry_mem_ne _ _ _ h1, hmem, setPage_mem_ne _ _ h2]

def deallocEach (L : Layout) (pgdir : ℕ) : ℕ → ℕ → PhysMem → Outcome PhysMem
  | 0, _, m => .ok m
  | n + 1, a, m =>
    match (walkpgdir m pgdir a false).1 with
    | none => deallocEach L pgdir n (a + PGSIZE) m
    | some (pgtab, j) =>
      let pte := word (m.mem pgtab) j
      if present pte then do
        if frameOf pte = 0 then .error "kfree"
        let m ← kfree L m (frameOf pte)
        deallocEach L pgdir n (a + PGSIZE) (m.setEntry pgtab j 0)
      else deallocEach L pgdir n (a + PGSIZE) m

theorem deallocEach_absent (hpd : ¬present (pde m d (v / 1024))) (n : ℕ) :
    deallocEach L d (n + 1) (v * PGSIZE) m = deallocEach L d n ((v + 1) * PGSIZE) m := by
  rw [deallocEach, walkpgdir_absent (by rw [PDX_page]; exact hpd), show v * PGSIZE + PGSIZE = (v + 1) * PGSIZE by ring]

theorem deallocEach_skip (k n : ℕ) (hpd : ¬present (pde m d (v / 1024))) (hk : v % 1024 + k ≤ 1024) :
    deallocEach L d (k + n) (v * PGSIZE) m = deallocEach L d n ((v + k) * PGSIZE) m := by
  induction k generalizing v with
  | zero => rw [Nat.zero_add, Nat.add_zero]
  | succ k ih =>
    rw [show k + 1 + n = k + n + 1 by omega, deallocEach_absent hpd]
    rcases Nat.eq_zero_or_pos k with rfl | hpos
    · rw [Nat.zero_add]
    · have hsame : (v + 1) / 1024 = v / 1024 := by omega
      rw [ih (by rwa [hsame]) (by omega), show v + 1 + k = v + (k + 1) by omega]

theorem deallocLoop_eq_each (L : Layout) (d oldsz v : ℕ) (m : PhysMem) :
    deallocLoop L d oldsz (v * PGSIZE) m = deallocEach L d (pages oldsz - v) (v * PGSIZE) m := by
  induction hk : oldsz - v * PGSIZE using Nat.strong_induction_on generalizing v m with
  | _ k ih =>
    subst hk
    rw [deallocLoop]
    by_cases hlt : v * PGSIZE < oldsz
    · have hpg : v < pages oldsz := lt_pages.mpr hlt
      rw [if_pos hlt]
      have hnext : v * PGSIZE + PGSIZE = (v + 1) * PGSIZE := by ring
      have hdec : oldsz - (v + 1) * PGSIZE < oldsz - v * PGSIZE := by
        simp only [PGSIZE] at *
        omega
      obtain ⟨n, hn⟩ : ∃ n, pages oldsz - v = n + 1 := ⟨pages oldsz - v - 1, by omega⟩
      have hrest : pages oldsz - (v + 1) = n := by omega
      by_cases hpd : present (pde m d (v / 1024))
      · rw [hn, deallocEach, walkpgdir_present (by rw [PDX_page]; exact hpd), hnext]
        simp only [← hrest, ih _ hdec (v + 1) _ rfl]
      · rw [walkpgdir_absent (by rw [PDX_page]; exact hpd), PDX_page]
        have hjump : (v / 1024 + 1) * 2 ^ 22 = (v / 1024 + 1) * 1024 * PGSIZE := by
          simp only [PGSIZE]
          ring
        have hdec' : oldsz - (v / 1024 + 1) * 1024 * PGSIZE < oldsz - v * PGSIZE := by
          simp only [PGSIZE] at hlt ⊢
          omega
        simp only [hjump, ih _ hdec' _ m rfl]
        -- The jump may go past the last page.
        rcases Nat.lt_or_ge (pages oldsz) ((v / 1024 + 1) * 1024) with hend | hend
        · have h0 : pages oldsz - (v / 1024 + 1) * 1024 = 0 := by omega
          have hs := deallocEach_skip (L := L) (pages oldsz - v) 0 hpd (by omega)
          rw [Nat.add_zero] at hs
          rw [h0, hs]
          simp only [deallocEach]
        · have hs := deallocEach_skip (L := L) ((v / 1024 + 1) * 1024 - v) (pages oldsz - (v / 1024 + 1) * 1024) hpd
            (by omega)
          rw [show (v / 1024 + 1) * 1024 - v + (pages oldsz - (v / 1024 + 1) * 1024) = pages oldsz - v by omega,
            show v + ((v / 1024 + 1) * 1024 - v) = (v / 1024 + 1) * 1024 by omega] at hs
          exact hs.symm
    · have h0 : pages oldsz - v = 0 := by
        have hpages : v < pages oldsz ↔ v * PGSIZE < oldsz := lt_pages
        omega
      rw [if_neg hlt, h0]
      rfl

theorem deallocEach_keeps (hd : ∀ v, .frame d v ∈ A) (n v : ℕ) (m : PhysMem) (hv : v + n ≤ userPages)
    (hI : Inv L A M m) (he : deallocEach L d n (v * PGSIZE) m = .ok m') : Keeps (outside A d v (v + n)) m m' := by
  induction n generalizing v m with
  | zero =>
    cases he
    exact Keeps.refl _ _
  | succ n ih =>
    have hnext : v * PGSIZE + PGSIZE = (v + 1) * PGSIZE := by ring
    have hsub : outside A d v (v + (n + 1)) ⊆ outside A d (v + 1) (v + 1 + n) := by
      rintro r ⟨hr, hx⟩
      refine ⟨hr, fun x hxe => ?_⟩
      have := hx x hxe
      omega
    have hone : outside A d v (v + (n + 1)) ⊆ outside A d v (v + 1) := by
      rintro r ⟨hr, hx⟩
      refine ⟨hr, fun x hxe => ?_⟩
      have := hx x hxe
      omega
    by_cases hpd : present (pde m d (v / 1024))
    · rw [deallocEach, walkpgdir_present (by rw [PDX_page]; exact hpd), PDX_page, PTX_page, hnext] at he
      simp only [← pte_of_present hpd] at he
      by_cases hp : present (pte m d v)
      · obtain ⟨m1, hk, hI1, -⟩ := unmap_one hI (hd v) (by omega) hp
        have hne : frameOf (pte m d v) ≠ 0 :=
          (hI.managed _ (hI.ledger.mem_of_held (frame_owned (hd v) (by omega) hp))).pos
        rw [if_pos hp, if_neg hne] at he
        simp only [hk] at he
        have hfirst := unmap_keeps hI (hd v) (by omega) hp hk
        exact (hfirst.mono hone).trans ((ih (v + 1) _ (by omega) hI1 he).mono hsub)
      · rw [if_neg hp] at he
        exact (ih (v + 1) m (by omega) hI he).mono hsub
    · rw [deallocEach_absent hpd] at he
      exact (ih (v + 1) m (by omega) hI he).mono hsub

theorem deallocuvm_keeps (hd : ∀ v, .frame d v ∈ A) (hsz : oldsz ≤ KERNBASE)
    (hI : Inv L A M m) (he : deallocuvm L m d oldsz newsz = .ok (r, m')) :
    Keeps (outside A d (pages newsz) (pages oldsz)) m m' := by
  rw [deallocuvm] at he
  split_ifs at he with hle
  · cases he
    exact Keeps.refl _ m
  · rw [PGROUNDUP_eq, deallocLoop_eq_each] at he
    cases hx : deallocEach L d (pages oldsz - pages newsz) (pages newsz * PGSIZE) m with
    | error e =>
      rw [hx] at he
      cases he
    | ok m1 =>
      rw [hx] at he
      cases he
      have hmono : pages newsz ≤ pages oldsz := Nat.div_le_div_right (by omega)
      have hpg := pages_le_userPages hsz
      have h := deallocEach_keeps hd _ _ m (by omega) hI hx
      rwa [Nat.add_sub_cancel' hmono] at h

theorem user_word_lt (hmp : Managed L p) : p * PGSIZE ||| (PTE_W ||| PTE_U) ||| PTE_P < 2 ^ 32 := by
  have hlt := hmp.lt
  rw [pte_word p (by decide), show PTE_W ||| PTE_U ||| PTE_P = 7 from rfl]
  simp only [PGSIZE]
  omega

theorem allocLoop_keeps (hd : Spans A d) (hnew : newsz < KERNBASE)
    (v : ℕ) (m : PhysMem) (hv : pages oldsz ≤ v) (hI : Inv L A M m)
    (he : allocLoop L d oldsz newsz (v * PGSIZE) m = .ok (r, m')) :
    (Keeps (outside A d v (pages newsz)) m m' ∧ ∀ x, v ≤ x → x < pages newsz →
      ∃ p, held m' (.frame d x) = some p ∧ m'.mem p = zero) ∨
    (Keeps (outside A d (pages oldsz) (pages newsz)) m m' ∧ ∀ x, pages oldsz ≤ x → x < pages newsz →
      ¬present (pte m' d x)) := by
  have hdir : .dir d ∈ A := hd (.dir d) rfl
  have hti : ∀ i, .table d i ∈ A := fun i => hd (.table d i) rfl
  have hfr : ∀ v, .frame d v ∈ A := fun v => hd (.frame d v) rfl
  have hpg : pages newsz ≤ userPages := pages_le_userPages hnew.le
  have hpg20 : pages newsz ≤ 2 ^ 20 := by rw [userPages_eq] at hpg; omega
  induction hk : pages newsz - v generalizing v m with
  | zero =>
    have hno : ¬v * PGSIZE < newsz := by
      rw [← lt_pages]
      omega
    rw [allocLoop, if_neg hno] at he
    cases he
    exact Or.inl ⟨Keeps.refl _ _, fun x h1 h2 => by omega⟩
  | succ k ih =>
    have hvp : v < pages newsz := by omega
    have hlt : v * PGSIZE < newsz := lt_pages.mp hvp
    have holdlt : oldsz < newsz := by
      simp only [pages, PGSIZE] at hv hlt
      omega
    rw [allocLoop, if_pos hlt] at he
    cases hf : m.freelist with
    | nil =>
      obtain ⟨m1, hde, -, hc⟩ := deallocuvm_spec hfr hnew.le holdlt hI
      have hkeep := deallocuvm_keeps hfr hnew.le hI hde
      simp only [kalloc, hf, hde, Outcome.ok_bind] at he
      cases he
      exact Or.inr ⟨hkeep, (hc.changed hdir hti hpg20).inside⟩
    | cons p ps =>
      obtain ⟨hpM, hmp, hI1, hs1⟩ := hI.take hf zero
      have hk1 := hI.take_keeps hf zero
      simp only [kalloc, hf] at he
      rw [mappages_one (by omega : v < 2 ^ 20)] at he
      by_cases hpr : present (pte m d v)
      · rw [mapPage_remap (by rw [hs1.entries d v (hti _) (by omega)]; exact hpr)] at he
        cases he
      · have habs1 : ¬present (pte (({ m with freelist := ps } : PhysMem).setPage p zero) d v) := by
          rw [hs1.entries d v (hti _) (by omega)]
          exact hpr
        have hpp : p ∉ M \ {p} := by simp
        rcases mapPage_user hI1 (hfr v) (by omega) habs1 hpp hmp (PTE_W ||| PTE_U) (by decide) with
          ⟨-, -, hmap⟩ | ⟨m2, hmap, hI2, hm⟩
        · obtain ⟨m2, hde, hI2, hc⟩ := deallocuvm_spec hfr hnew.le holdlt hI1
          have hkeep := deallocuvm_keeps hfr hnew.le hI1 hde
          obtain ⟨m3, hfree, -, -, hs3, -⟩ := hI2.kfree hpp hmp
          have hk3 := hI2.kfree_keeps hpp hfree hmp
          simp only [hmap, Outcome.ok_bind, Bool.false_eq_true, if_false, hde, hfree] at he
          cases he
          have hsub := outside_subset A d (pages oldsz) (pages newsz)
          refine Or.inr ⟨((hk1.mono hsub).trans hkeep).trans (hk3.mono hsub), fun x h1 h2 => ?_⟩
          rw [hs3.entries d x (hti _) (by omega)]
          exact (hc.changed hdir hti hpg20).inside x h1 h2
        · have hk2 := mapPage_keeps hI1 (hti _) (by omega) habs1 (user_word_lt hmp) hmap
          rw [insert_sdiff_mem hpM] at hI2
          have hnext : v * PGSIZE + PGSIZE = (v + 1) * PGSIZE := by ring
          simp only [hmap, Outcome.ok_bind, if_true, hnext] at he
          -- The page at `v` is mapped to the frame `p`, still zero.
          have hheld : held m2 (.frame d v) = some p := by
            have hent : pte m2 d v = p * PGSIZE + (PTE_W ||| PTE_U ||| PTE_P) := by
              rw [hm.entries d v (hti _) (by omega), if_pos ⟨rfl, rfl⟩]
            have hpres : present (pte m2 d v) := by
              rw [hent]
              exact UserEntry.present ⟨p, rfl⟩
            rw [held, if_pos ⟨by omega, hpres⟩, hent, frameOf_add p (by decide)]
          have hzero : m2.mem p = zero := by
            rw [mapPage_mem hI1 (hti _) (by omega) habs1 hmap hpp, setPage_mem_self]
          rcases ih (v + 1) m2 (by omega) hI2 he (by omega) with ⟨hkeep, hz⟩ | ⟨hkeep, hz⟩
          · refine Or.inl ⟨?_, fun x h1 h2 => ?_⟩
            · have hsub := outside_subset A d v (pages newsz)
              exact ((hk1.trans hk2).mono hsub).trans (hkeep.mono (outside_mono (Nat.le_succ v)))
            · rcases Nat.eq_or_lt_of_le h1 with rfl | h1
              · have hin : (.frame d v : Role) ∈ outside A d (v + 1) (pages newsz) :=
                  ⟨hfr v, fun x hx => by cases hx; omega⟩
                exact ⟨p, hkeep.holds _ p hin hheld, (hkeep.bytes d v p hin hheld).trans hzero⟩
              · exact hz x h1 h2
          · have hsub := outside_subset A d (pages oldsz) (pages newsz)
            exact Or.inr ⟨((hk1.trans hk2).mono hsub).trans hkeep, hz⟩

theorem allocuvm_keeps (hd : Spans A d) (hle : oldsz ≤ newsz)
    (hnew : newsz < KERNBASE) (hI : Inv L A M m) (hm : MapsBelow m d (pages oldsz))
    (he : allocuvm L m d oldsz newsz = .ok (r, m')) :
    Keeps A m m' ∧ ∀ v, pages oldsz ≤ v → v < pages newsz → present (pte m' d v) →
      m'.mem (frameOf (pte m' d v)) = zero := by
  rw [allocuvm, if_neg (Nat.not_le.mpr hnew), if_neg (Nat.not_lt.mpr hle), PGROUNDUP_eq] at he
  have hpg : pages newsz ≤ userPages := pages_le_userPages hnew.le
  have habs : ∀ v, pages oldsz ≤ v → v < pages newsz → ¬present (pte m d v) := by
    intro v h1 h2
    rw [hm v (by omega)]
    omega
  rcases allocLoop_keeps hd hnew (pages oldsz) m le_rfl hI he with ⟨hk, hz⟩ | ⟨hk, hno⟩
  · refine ⟨hk.of_absent habs, fun v h1 h2 _ => ?_⟩
    obtain ⟨q, hq, hzero⟩ := hz v h1 h2
    rw [(held_frame_some hq).2.2, hzero]
  · exact ⟨hk.of_absent habs, fun v h1 h2 hp => absurd hp (hno v h1 h2)⟩

end

end Xv6.Vm
