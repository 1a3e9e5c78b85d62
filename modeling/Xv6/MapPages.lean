import Xv6.Fueled
import Xv6.FrameContents
import Xv6.UserVm

/-!
`mappages` with the loop of the source, which ends where `a` equals `last`.
-/

namespace Xv6.MapPages

open Fueled Vm ByteMemory Ownership

def mapUntil (pgdir perm last : ℕ) : ℕ → ℕ → ℕ → PhysMem → Res String (Bool × PhysMem)
  | 0, _, _, _ => .more
  | fuel + 1, a, pa, m =>
    match mapPage m pgdir a pa perm with
    | .error e => .stop e
    | .ok (false, m) => .ok (false, m)
    | .ok (true, m) =>
      if a = last then .ok (true, m)
      else mapUntil pgdir perm last fuel ((a + PGSIZE) % 2 ^ 32) ((pa + PGSIZE) % 2 ^ 32) m

def mappages (fuel : ℕ) (m : PhysMem) (pgdir va size pa perm : ℕ) : Res String (Bool × PhysMem) :=
  mapUntil pgdir perm (PGROUNDDOWN ((va + size + 2 ^ 32 - 1) % 2 ^ 32)) fuel (PGROUNDDOWN va) pa m

structure Built (L : Layout) (m : PhysMem) (d : ℕ) : Prop where
  nodup : m.freelist.Nodup
  free : ∀ p ∈ m.freelist, Managed L p
  dir : Managed L d ∧ d ∉ m.freelist
  table : ∀ i, i < NPDENTRIES → present (pde m d i) →
    Managed L (frameOf (pde m d i)) ∧ frameOf (pde m d i) ∉ m.freelist ∧ frameOf (pde m d i) ≠ d
  apart : ∀ i j, i < NPDENTRIES → j < NPDENTRIES → present (pde m d i) → present (pde m d j) →
    frameOf (pde m d i) = frameOf (pde m d j) → i = j

def spine (d : ℕ) : Set Role := {r | r = .dir d ∨ ∃ i, r = .table d i}

structure Range (d v : ℕ) (e : ℕ → ℕ) (n : ℕ) (m m' : PhysMem) : Prop where
  mapped : ∀ x ∈ Set.Ico v (v + n), pte m' d x = e x
  others : ∀ x, x < 2 ^ 20 → x ∉ Set.Ico v (v + n) → pte m' d x = pte m d x
  dirs : ∀ i, i < NPDENTRIES → (present (pde m d i) ∨ ∀ x ∈ Set.Ico v (v + n), x / 1024 ≠ i) → pde m' d i = pde m d i
  fresh : ∀ i, i < NPDENTRIES → ¬present (pde m d i) → present (pde m' d i) → frameOf (pde m' d i) ∈ m.freelist
  free : m'.freelist <:+ m.freelist
  mem : ∀ q, q ≠ d → q ∉ m.freelist → (∀ i, i < NPDENTRIES → present (pde m d i) → frameOf (pde m d i) ≠ q) →
    m'.mem q = m.mem q

def entry (v pa perm x : ℕ) : ℕ := (pa + (x - v) * PGSIZE) % 2 ^ 32 ||| perm ||| PTE_P

section

variable {L : Layout} {A : Set Role} {M : Set ℕ} {m m' m'' : PhysMem} {d v n k pa perm w : ℕ} {e e' : ℕ → ℕ}

theorem closed_spine (d : ℕ) : Closed (spine d) := by
  constructor
  · rintro d' i (h | ⟨j, h⟩)
    · cases h
    · cases h
      exact Or.inl rfl
  · rintro d' v (h | ⟨j, h⟩) <;> cases h

theorem mem_spine (d i : ℕ) : .table d i ∈ spine d := Or.inr ⟨i, rfl⟩

theorem owned_spine {r : Role} {q : ℕ} (h : owned (spine d) m r = some q) :
    (r = .dir d ∧ q = d) ∨ ∃ i, r = .table d i ∧ i < NPDENTRIES ∧ present (pde m d i) ∧ q = frameOf (pde m d i) := by
  by_cases hr : r ∈ spine d
  · rw [owned_of_held hr] at h
    rcases hr with rfl | ⟨i, rfl⟩
    · cases h
      exact Or.inl ⟨rfl, rfl⟩
    · simp only [held] at h
      split_ifs at h with hi
      cases h
      exact Or.inr ⟨i, rfl, hi.1, hi.2, rfl⟩
  · rw [owned, if_neg hr] at h
    cases h

theorem Built.inv (h : Built L m d) : ∃ M, Inv L (spine d) M m := by
  refine ⟨{q | q ∈ m.freelist ∨ ∃ r, owned (spine d) m r = some q}, closed_spine d, h.nodup, ⟨?_, ?_, fun q => Iff.rfl⟩,
      ?_⟩
  · intro r q hr
    rcases owned_spine hr with ⟨-, rfl⟩ | ⟨i, -, hi, hp, rfl⟩
    · exact h.dir.2
    · exact (h.table i hi hp).2.1
  · intro r r' q hr hr'
    rcases owned_spine hr with ⟨rfl, rfl⟩ | ⟨i, rfl, hi, hp, rfl⟩
    · rcases owned_spine hr' with ⟨rfl, -⟩ | ⟨j, -, hj, hpj, he⟩
      · rfl
      · exact absurd he.symm (h.table j hj hpj).2.2
    · rcases owned_spine hr' with ⟨-, he⟩ | ⟨j, rfl, hj, hpj, he⟩
      · exact absurd he (h.table i hi hp).2.2
      · rw [h.apart i j hi hj hp hpj he]
  · rintro q (hq | ⟨r, hr⟩)
    · exact h.free q hq
    · rcases owned_spine hr with ⟨-, rfl⟩ | ⟨i, -, hi, hp, rfl⟩
      · exact h.dir.1
      · exact (h.table i hi hp).1

theorem built_of_inv (hI : Inv L A M m) (hd : ∀ i, .table d i ∈ A) : Built L m d := by
  have hdir := hI.closed.dir d 0 (hd 0)
  refine ⟨hI.nodup, ?_, ⟨?_, ?_⟩, ?_, ?_⟩
  · exact fun p hp => hI.managed p (hI.ledger.mem_of_free hp)
  · exact hI.managed d (hI.dir_mem hdir)
  · exact hI.held_notMem_free hdir rfl
  · intro i hi hp
    refine ⟨hI.managed _ (hI.table_mem (hd i) hi hp), ?_, (hI.table_ne_dir (hd i) hi hp hdir).symm⟩
    exact hI.ledger.apart _ _ (table_owned (hd i) hi hp)
  · intro i j hi hj hpi hpj he
    exact (hI.table_inj (hd j) hj hpj (hd i) hi hpi he).2

theorem Range.refl (d v : ℕ) (e : ℕ → ℕ) (m : PhysMem) : Range d v e 0 m m where
  mapped x hx := absurd (Set.mem_Ico.mp hx) (by omega)
  others _ _ _ := rfl
  dirs _ _ _ := rfl
  fresh _ _ hn hp := absurd hp hn
  free := List.suffix_rfl
  mem _ _ _ _ := rfl

theorem Range.congr (h : Range d v e n m m') (he : ∀ x ∈ Set.Ico v (v + n), e' x = e x) : Range d v e' n m m' :=
  { h with mapped := fun x hx => by rw [h.mapped x hx, he x hx] }

theorem Range.trans (h : Range d v e n m m') (h' : Range d (v + n) e k m' m'') (hv : v + n + k ≤ 2 ^ 20) :
    Range d v e (n + k) m m'' := by
  refine ⟨fun x hx => ?_, fun x hlt hx => ?_, fun i hi hor => ?_, fun i hi hn hp => ?_, h'.free.trans h.free,
    fun q hd hq ht => ?_⟩
  · rw [Set.mem_Ico] at hx
    by_cases hxn : x < v + n
    · rw [h'.others x (by omega) (by rw [Set.mem_Ico]; omega)]
      exact h.mapped x (Set.mem_Ico.mpr ⟨hx.1, hxn⟩)
    · exact h'.mapped x (Set.mem_Ico.mpr ⟨by omega, by omega⟩)
  · rw [Set.mem_Ico] at hx
    rw [h'.others x hlt (by rw [Set.mem_Ico]; omega), h.others x hlt (by rw [Set.mem_Ico]; omega)]
  · have hfirst : pde m' d i = pde m d i := by
      refine h.dirs i hi (hor.imp_right fun hno x hx => hno x ?_)
      rw [Set.mem_Ico] at hx ⊢
      omega
    rw [h'.dirs i hi, hfirst]
    rw [hfirst]
    refine hor.imp_right fun hno x hx => hno x ?_
    rw [Set.mem_Ico] at hx ⊢
    omega
  · by_cases hp' : present (pde m' d i)
    · rw [h'.dirs i hi (Or.inl hp')]
      exact h.fresh i hi hn hp'
    · exact h.free.subset (h'.fresh i hi hp' hp)
  · rw [h'.mem q hd (fun hc => hq (h.free.subset hc)), h.mem q hd hq ht]
    intro i hi hp he
    by_cases hpi : present (pde m d i)
    · rw [h.dirs i hi (Or.inl hpi)] at he
      exact ht i hi hpi he
    · exact hq (he ▸ h.fresh i hi hpi hp)

theorem walkpgdir_new {q a : ℕ} {ps : List ℕ} (hb : Built L m d) (hf : m.freelist = q :: ps)
    (hp : ¬present (pde m d (PDX a))) : ∃ m', walkpgdir m d a true = (some (q, PTX a), m') ∧ m'.freelist = ps ∧
      pde m' d (PDX a) = q * PGSIZE + 7 ∧ m'.mem q = zero := by
  have hmem : q ∈ m.freelist := by
    rw [hf]
    exact List.mem_cons_self
  have hqd : q ≠ d := by
    rintro rfl
    exact hb.dir.2 hmem
  have hq : q * PGSIZE + 7 < 2 ^ 32 := by
    have := (hb.free q hmem).lt
    simp only [PGSIZE]
    omega
  refine ⟨(({ m with freelist := ps } : PhysMem).setPage q zero).setEntry d (PDX a)
    (q * PGSIZE ||| PTE_P ||| PTE_W ||| PTE_U), ?_, rfl, ?_, ?_⟩
  · simp only [walkpgdir, kalloc, hf]
    exact (if_neg hp).trans rfl
  · rw [pde_word, pde, word_setEntry _ _ _ hq, if_pos rfl]
  · rw [setEntry_mem_ne _ _ _ hqd, setPage_mem_self]

structure Walk (d a : ℕ) (m m' : PhysMem) : Prop where
  entries : ∀ x, x < 2 ^ 20 → pte m' d x = pte m d x
  dirs : ∀ i, i < NPDENTRIES → i ≠ PDX a → pde m' d i = pde m d i
  table : present (pde m d (PDX a)) ∧ m' = m ∨ ¬present (pde m d (PDX a)) ∧
    ∃ q, m.freelist = q :: m'.freelist ∧ pde m' d (PDX a) = q * PGSIZE + 7 ∧ m'.mem q = zero

theorem walkpgdir_cases (hI : Inv L (spine d) M m) {a : ℕ} (ha : PDX a < NPDENTRIES) :
    (m.freelist = [] ∧ ¬present (pde m d (PDX a)) ∧ walkpgdir m d a true = (none, m)) ∨
    ∃ m', walkpgdir m d a true = (some (frameOf (pde m' d (PDX a)), PTX a), m') ∧ Inv L (spine d) M m' ∧
      present (pde m' d (PDX a)) ∧ Walk d a m m' := by
  rcases walkpgdir_alloc hI a (mem_spine d _) ha with hfail | ⟨m', he, hI', hw⟩
  · exact Or.inl hfail
  refine Or.inr ⟨m', he, hI', hw.here, fun x hx => hw.entries d x (mem_spine d _) hx,
    fun i hi hne => hw.dirs d i (Or.inl rfl) hi fun _ => hne, ?_⟩
  rcases hw.cost with hsame | ⟨hp, hlen⟩
  · exact Or.inl hsame
  · cases hf : m.freelist with
    | nil =>
      rw [hf] at hlen
      simp at hlen
    | cons q ps =>
      obtain ⟨m1, he1, hps, hpde, hzero⟩ := walkpgdir_new (built_of_inv hI (mem_spine d)) hf hp
      cases he.symm.trans he1
      exact Or.inr ⟨hp, _, by rw [hps], hpde, hzero⟩

theorem SetPte.inv_spine (hI : Inv L (spine d) M m) (hs : SetPte (spine d) d v w m m') (hf : m'.freelist = m.freelist) :
    Inv L (spine d) M m' := by
  refine ⟨hI.closed, hf ▸ hI.nodup, ?_, hI.managed⟩
  rw [hf]
  apply hI.ledger.congr
  intro r
  by_cases hr : r = .frame d v
  · have hno : r ∉ spine d := by
      subst hr
      rintro (h | ⟨i, h⟩) <;> cases h
    rw [owned, owned, if_neg hno, if_neg hno]
  · exact hs.owned_ne hI.closed r hr

theorem mapPage_round (hI : Inv L (spine d) M m) (hv : v < 2 ^ 20) (habs : ¬present (pte m d v))
    (hw : pa ||| perm ||| PTE_P < 2 ^ 32) :
    (m.freelist = [] ∧ mapPage m d (v * PGSIZE) pa perm = .ok (false, m)) ∨
    ∃ m', mapPage m d (v * PGSIZE) pa perm = .ok (true, m') ∧ Inv L (spine d) M m' ∧
      Range d v (fun _ => pa ||| perm ||| PTE_P) 1 m m' := by
  have hi := div_lt_entries hv
  have hcases := walkpgdir_cases hI (a := v * PGSIZE)
  rw [PDX_page, PTX_page] at hcases
  rcases hcases hi with ⟨hf, -, he⟩ | ⟨m1, he, hI1, hp, hwalk⟩
  · exact Or.inl ⟨hf, by simp only [mapPage, he]⟩
  have hs := hI1.setPte_views (mem_spine d _) hv hp hw
  have hmem : ∀ q, q ≠ d → q ∉ m.freelist → m1.mem q = m.mem q := by
    intro q hqd hq
    have hkept : (walkpgdir m d (v * PGSIZE) true).2.mem q = m.mem q := walkpgdir_mem hqd hq
    rwa [he] at hkept
  have htable : present (pde m d (v / 1024)) ∧ m1 = m ∨ ¬present (pde m d (v / 1024)) ∧
      frameOf (pde m1 d (v / 1024)) ∈ m.freelist ∧ m1.freelist <:+ m.freelist := by
    rcases hwalk.table with ⟨h, he⟩ | ⟨h, q, hq, hpde, -⟩
    · rw [PDX_page] at h
      exact Or.inl ⟨h, he⟩
    · rw [PDX_page] at h hpde
      rw [hpde, frameOf_add q (by decide), hq]
      exact Or.inr ⟨h, List.mem_cons_self, List.suffix_cons _ _⟩
  have hdirs : ∀ i, i < NPDENTRIES → i ≠ v / 1024 → pde m1 d i = pde m d i := by
    rw [← PDX_page]
    exact hwalk.dirs
  refine Or.inr ⟨_, ?_, SetPte.inv_spine hI1 hs rfl, ?_, ?_, ?_, ?_, ?_, ?_⟩
  · simp only [mapPage, he]
    rw [if_neg]
    rw [← pte_of_present hp, hwalk.entries v hv]
    exact habs
  · intro x hx
    rw [Set.mem_Ico] at hx
    rw [hs.entries d x (mem_spine d _) (by omega), if_pos ⟨rfl, by omega⟩]
  · intro x hlt hx
    rw [Set.mem_Ico] at hx
    rw [hs.entries d x (mem_spine d _) hlt, if_neg (by omega), hwalk.entries x hlt]
  · intro i hlt hor
    rw [hs.dirs d i (Or.inl rfl) hlt]
    by_cases hne : i = v / 1024
    · subst hne
      rcases htable with ⟨-, rfl⟩ | ⟨hn, -⟩
      · rfl
      · rcases hor with hc | hno
        · exact absurd hc hn
        · exact absurd rfl (hno v (Set.mem_Ico.mpr ⟨le_rfl, by omega⟩))
    · exact hdirs i hlt hne
  · intro i hlt hn hpres
    rw [hs.dirs d i (Or.inl rfl) hlt] at hpres ⊢
    by_cases hne : i = v / 1024
    · subst hne
      rcases htable with ⟨hc, -⟩ | ⟨-, hfree, -⟩
      · exact absurd hc hn
      · exact hfree
    · rw [hdirs i hlt hne] at hpres
      exact absurd hpres hn
  · rcases htable with ⟨-, rfl⟩ | ⟨-, -, hsuf⟩
    · exact List.suffix_rfl
    · exact hsuf
  · intro q hqd hq ht
    rw [setEntry_mem_ne, hmem q hqd hq]
    rintro rfl
    rcases htable with ⟨hc, rfl⟩ | ⟨-, hfree, -⟩
    · exact ht _ hi hc rfl
    · exact hq hfree

theorem entry_lt (hperm : perm < 2 ^ 32) (x : ℕ) : entry v pa perm x < 2 ^ 32 :=
  Nat.or_lt_two_pow (Nat.or_lt_two_pow (Nat.mod_lt _ (by decide)) hperm) (by decide)

theorem entry_self (hpa : pa < 2 ^ 32) : entry v pa perm v = pa ||| perm ||| PTE_P := by
  rw [entry, Nat.sub_self, Nat.zero_mul, Nat.add_zero, Nat.mod_eq_of_lt hpa]

theorem entry_next {x : ℕ} (hx : v + 1 ≤ x) : entry (v + 1) ((pa + PGSIZE) % 2 ^ 32) perm x = entry v pa perm x := by
  have h : ((pa + PGSIZE) % 2 ^ 32 + (x - (v + 1)) * PGSIZE) % 2 ^ 32 = (pa + (x - v) * PGSIZE) % 2 ^ 32 := by
    simp only [PGSIZE]
    omega
  rw [entry, entry, h]

theorem mapUntil_range (n v pa : ℕ) (m : PhysMem) (hI : Inv L (spine d) M m) (hvn : v + n < 2 ^ 20) (hpa : pa < 2 ^ 32)
    (hperm : perm < 2 ^ 32) (habs : ∀ x ∈ Set.Ico v (v + n + 1), ¬present (pte m d x)) :
    ∃ b k m', mapUntil d perm ((v + n) * PGSIZE) (n + 1) (v * PGSIZE) pa m = .ok (b, m') ∧ Inv L (spine d) M m' ∧
      Range d v (entry v pa perm) k m m' ∧ (b = true → k = n + 1) ∧ (b = false → k ≤ n ∧ m'.freelist = []) := by
  induction n generalizing v pa m with
  | zero =>
    have hw : entry v pa perm v < 2 ^ 32 := entry_lt hperm v
    rw [entry_self hpa] at hw
    rcases mapPage_round hI (show v < 2 ^ 20 by omega) (habs v (Set.mem_Ico.mpr ⟨le_rfl, by omega⟩)) hw
        with ⟨hf, he⟩ | ⟨m', he, hI', hr⟩
    · exact ⟨false, 0, m, by simp only [mapUntil, he], hI, .refl d v _ m, by simp, fun _ => ⟨le_rfl, hf⟩⟩
    · refine ⟨true, 1,
          m', by simp only [mapUntil, he, Nat.add_zero, if_true], hI', hr.congr fun x hx => ?_, by simp, by simp⟩
      rw [Set.mem_Ico] at hx
      rw [show x = v by omega, entry_self hpa]
  | succ n ih =>
    have hw : entry v pa perm v < 2 ^ 32 := entry_lt hperm v
    rw [entry_self hpa] at hw
    rcases mapPage_round hI (by omega) (habs v (Set.mem_Ico.mpr ⟨le_rfl, by omega⟩)) hw
        with ⟨hf, he⟩ | ⟨m1, he, hI1, hr⟩
    · exact ⟨false, 0, m, by simp only [mapUntil, he], hI, .refl d v _ m, by simp, fun _ => ⟨Nat.zero_le _, hf⟩⟩
    · have hnext : (v * PGSIZE + PGSIZE) % 2 ^ 32 = (v + 1) * PGSIZE := by
        simp only [PGSIZE]
        omega
      have hne : v * PGSIZE ≠ (v + (n + 1)) * PGSIZE := by
        simp only [PGSIZE]
        omega
      obtain ⟨b, k, m', he', hI', hr', htrue, hfalse⟩ := ih (v + 1) ((pa + PGSIZE) % 2 ^ 32) m1 hI1 (by omega)
        (Nat.mod_lt _ (by decide)) (by
          intro x hx
          rw [Set.mem_Ico] at hx
          rw [hr.others x (by omega) (by rw [Set.mem_Ico]; omega)]
          exact habs x (Set.mem_Ico.mpr (by omega)))
      refine ⟨b, 1 + k, m', ?_, hI', ?_, fun hb => by rw [htrue hb]; omega, fun hb => ⟨?_, (hfalse hb).2⟩⟩
      · rw [mapUntil, he]
        simp only [hne, if_false, hnext]
        rw [show v + (n + 1) = v + 1 + n by omega]
        exact he'
      · have hk : k ≤ n + 1 := by
          cases b with
          | true => exact (htrue rfl).le
          | false => exact (hfalse rfl).1.trans (Nat.le_succ n)
        refine Range.trans (hr.congr fun x hx => ?_) (hr'.congr fun x hx => ?_) (by omega)
        · rw [Set.mem_Ico] at hx
          rw [show x = v by omega, entry_self hpa]
        · rw [Set.mem_Ico] at hx
          exact (entry_next hx.1).symm
      · have := (hfalse hb).1
        omega

theorem setEntry_congr {p i w' : ℕ} (h : w % 2 ^ 32 = w' % 2 ^ 32) : m.setEntry p i w = m.setEntry p i w' := by
  have hset : setWord (m.mem p) i w = setWord (m.mem p) i w' := by
    funext k
    simp only [setWord]
    congr 1
    apply UInt8.toNat_inj.mp
    rw [UInt8.toNat_ofNat', UInt8.toNat_ofNat']
    obtain hk | hk | hk | hk : k % 4 = 0 ∨ k % 4 = 1 ∨ k % 4 = 2 ∨ k % 4 = 3 := by omega
    all_goals
      rw [hk]
      norm_num
      omega
  rw [PhysMem.setEntry, PhysMem.setEntry, hset]

theorem mapPage_mod (a : ℕ) : mapPage m d a (pa % 2 ^ 32) perm = mapPage m d a pa perm := by
  have hmod : (pa % 2 ^ 32 ||| perm ||| PTE_P) % 2 ^ 32 = (pa ||| perm ||| PTE_P) % 2 ^ 32 := by
    rw [Nat.or_mod_two_pow, Nat.or_mod_two_pow, Nat.mod_mod, ← Nat.or_mod_two_pow, ← Nat.or_mod_two_pow]
  rw [mapPage, mapPage]
  split
  · rfl
  · rw [setEntry_congr hmod]

theorem mapLoop_of_mapUntil (n v pa : ℕ) (m : PhysMem) {r : Bool × PhysMem} (hvn : v + n < 2 ^ 20)
    (h : mapUntil d perm ((v + n) * PGSIZE) (n + 1) (v * PGSIZE) (pa % 2 ^ 32) m = .ok r) :
    mapLoop d perm n (v * PGSIZE) pa m = .ok r := by
  induction n generalizing v pa m with
  | zero =>
    rw [mapUntil, mapPage_mod] at h
    rw [mapLoop]
    cases he : mapPage m d (v * PGSIZE) pa perm with
    | error e =>
      rw [he] at h
      cases h
    | ok x =>
      obtain ⟨b, m1⟩ := x
      rw [he] at h
      cases b with
      | false =>
        cases h
        rfl
      | true =>
        simp only [Nat.add_zero, if_true] at h
        cases h
        rfl
  | succ n ih =>
    rw [mapUntil, mapPage_mod] at h
    rw [mapLoop]
    cases he : mapPage m d (v * PGSIZE) pa perm with
    | error e =>
      rw [he] at h
      cases h
    | ok x =>
      obtain ⟨b, m1⟩ := x
      rw [he] at h
      cases b with
      | false =>
        cases h
        rfl
      | true =>
        have hnext : (v * PGSIZE + PGSIZE) % 2 ^ 32 = (v + 1) * PGSIZE := by
          simp only [PGSIZE]
          omega
        have hne : v * PGSIZE ≠ (v + (n + 1)) * PGSIZE := by
          simp only [PGSIZE]
          omega
        simp only [hne, if_false, hnext, Nat.mod_add_mod] at h
        rw [show v + (n + 1) = v + 1 + n by omega] at h
        have hrest := ih (v + 1) (pa + PGSIZE) m1 (by omega) h
        rw [Nat.add_mul, Nat.one_mul] at hrest
        exact hrest

theorem translate_eq (m : PhysMem) (d a : ℕ) : Vm.translate m d a =
    if present (pte m d (a / PGSIZE)) then some (frameOf (pte m d (a / PGSIZE))) else none := by
  by_cases hp : present (pde m d (a / PGSIZE / 1024))
  · obtain ⟨hw, hpte⟩ := walkpgdir_entry hp
    simp only [Vm.translate, hw, hpte]
  · have hpd : PDX a = a / PGSIZE / 1024 := by
      simp only [PDX, PGSIZE]
      omega
    rw [Vm.translate, walkpgdir_absent (by rwa [hpd]), pte_of_absent hp, if_neg present_zero]

structure Translates (d v pa perm n : ℕ) (m m' : PhysMem) : Prop where
  inside : ∀ k, k < n → pte m' d (v + k) = (pa + k * PGSIZE) % 2 ^ 32 ||| perm ||| PTE_P
  leads : perm < PGSIZE → ∀ k a, k < n → a / PGSIZE = v + k → PTE_FLAGS (pte m' d (v + k)) = perm ||| PTE_P ∧
    Vm.translate m' d a = some ((pa + k * PGSIZE) % 2 ^ 32 / PGSIZE)
  outside : ∀ a, a < 2 ^ 32 → a / PGSIZE ∉ Set.Ico v (v + n) →
    pte m' d (a / PGSIZE) = pte m d (a / PGSIZE) ∧ Vm.translate m' d a = Vm.translate m d a

theorem Range.translates (h : Range d v (entry v pa perm) n m m') (hpa : pa % PGSIZE = 0) :
    Translates d v pa perm n m m' := by
  have hin : ∀ k, k < n → pte m' d (v + k) = (pa + k * PGSIZE) % 2 ^ 32 ||| perm ||| PTE_P := by
    intro k hk
    rw [h.mapped _ (Set.mem_Ico.mpr (by omega)), entry, Nat.add_sub_cancel_left]
  refine ⟨hin, fun hperm k a hk ha => ?_, fun a ha hout => ?_⟩
  · have hq : (pa + k * PGSIZE) % 2 ^ 32 = (pa + k * PGSIZE) % 2 ^ 32 / PGSIZE * PGSIZE := by
      simp only [PGSIZE] at hpa ⊢
      omega
    have he := hin k hk
    rw [hq, pte_word _ hperm] at he
    have hlt := perm_lt hperm
    refine ⟨?_, ?_⟩
    · rw [he, PTE_FLAGS, Nat.mul_add_mod_self_right, Nat.mod_eq_of_lt hlt]
    · rw [translate_eq, ha, he, if_pos, frameOf_add _ hlt]
      rw [← pte_word _ hperm]
      exact or_present _
  · have he := h.others (a / PGSIZE) (by simp only [PGSIZE]; omega) hout
    exact ⟨he, by rw [translate_eq, translate_eq, he]⟩

def MapOutcome (L : Layout) (d va size pa perm : ℕ) (m : PhysMem) : Prop :=
  ∃ fuel b n m', mappages fuel m d va size pa perm = .ok (b, m') ∧ Vm.mappages m d va size pa perm = .ok (b, m') ∧
    Built L m' d ∧ Range d (va / PGSIZE) (entry (va / PGSIZE) pa perm) n m m' ∧
    Translates d (va / PGSIZE) pa perm n m m' ∧
    (b = true → n = (va + size - 1) / PGSIZE + 1 - va / PGSIZE) ∧
    (b = false → n < (va + size - 1) / PGSIZE + 1 - va / PGSIZE ∧ m'.freelist = [])

theorem mappages_outcome {va size : ℕ} (hb : Built L m d) (hpa : pa % PGSIZE = 0)
    (hpa' : pa < 2 ^ 32) (hperm : perm < 2 ^ 32) (hsize : 0 < size) (hend : va + size - 1 < 2 ^ 32)
    (habs : ∀ x ∈ Set.Icc (va / PGSIZE) ((va + size - 1) / PGSIZE), ¬present (pte m d x)) :
    MapOutcome L d va size pa perm m := by
  obtain ⟨M, hI⟩ := hb.inv
  obtain ⟨n, hn⟩ : ∃ n, (va + size - 1) / PGSIZE = va / PGSIZE + n := by
    refine ⟨(va + size - 1) / PGSIZE - va / PGSIZE, ?_⟩
    have := Nat.div_le_div_right (c := PGSIZE) (show va ≤ va + size - 1 by omega)
    omega
  have hlast : (va + size - 1) / PGSIZE < 2 ^ 20 := by
    simp only [PGSIZE]
    omega
  have hdown : PGROUNDDOWN va = va / PGSIZE * PGSIZE := rfl
  have hend' : PGROUNDDOWN ((va + size + 2 ^ 32 - 1) % 2 ^ 32) = (va / PGSIZE + n) * PGSIZE := by
    rw [← hn, PGROUNDDOWN, show va + size + 2 ^ 32 - 1 = va + size - 1 + 2 ^ 32 by omega, Nat.add_mod_right,
      Nat.mod_eq_of_lt hend]
  obtain ⟨b, k, m', he, hI', hr, htrue, hfalse⟩ := mapUntil_range n (va / PGSIZE) pa m hI (by omega) hpa' hperm (by
    intro x hx
    rw [Set.mem_Ico] at hx
    exact habs x (Set.mem_Icc.mpr ⟨hx.1, by omega⟩))
  refine ⟨n + 1, b, k, m', ?_, ?_, built_of_inv hI' (mem_spine d), hr, hr.translates hpa, ?_, ?_⟩
  · rw [mappages, hend', hdown, he]
  · have hcount : ((va / PGSIZE + n) * PGSIZE + 2 ^ 32 - va / PGSIZE * PGSIZE) % 2 ^ 32 / PGSIZE = n := by
      simp only [PGSIZE] at *
      omega
    simp only [Vm.mappages, hend', hdown, hcount]
    apply mapLoop_of_mapUntil n (va / PGSIZE) pa m (by omega)
    rw [Nat.mod_eq_of_lt hpa', he]
  · intro h
    rw [htrue h]
    omega
  · intro h
    have := hfalse h
    refine ⟨by omega, this.2⟩

/-- `walkpgdir` enters new tables zeroed and changes no translation; `mappages` ends, with all pages of the range mapped
or with those before the one for which `kalloc` failed. -/
theorem mappages_spec (hb : Built L m d) :
    (∀ a, a < 2 ^ 32 → (m.freelist = [] ∧ walkpgdir m d a true = (none, m)) ∨
      ∃ m', walkpgdir m d a true = (some (frameOf (pde m' d (PDX a)), PTX a), m') ∧ Built L m' d ∧ Walk d a m m') ∧
    ∀ va size pa perm, pa % PGSIZE = 0 → pa < 2 ^ 32 → perm < 2 ^ 32 → 0 < size →
      va + size - 1 < 2 ^ 32 →
      (∀ x ∈ Set.Icc (va / PGSIZE) ((va + size - 1) / PGSIZE), ¬present (pte m d x)) →
        MapOutcome L d va size pa perm m := by
  constructor
  · intro a ha
    obtain ⟨M, hI⟩ := hb.inv
    rcases walkpgdir_cases hI (a := a) (by simp only [PDX, NPDENTRIES]; omega) with ⟨hf, -, he⟩ | ⟨m', he, hI', -, hw⟩
    · exact Or.inl ⟨hf, he⟩
    · exact Or.inr ⟨m', he, built_of_inv hI' (mem_spine d), hw⟩
  · intro va size pa perm hpa hpa' hperm hsize hend habs
    exact mappages_outcome hb hpa hpa' hperm hsize hend habs

/-- An empty directory in page 1023, with two free pages. -/
theorem mappages_device : ∃ L, Built L ⟨fun _ => zero, [1024, 1025]⟩ 1023 ∧
    MapOutcome L 1023 DEVSPACE 0x2000000 DEVSPACE PTE_W ⟨fun _ => zero, [1024, 1025]⟩ := by
  have hpde : ∀ i, ¬present (pde ⟨fun _ => zero, [1024, 1025]⟩ 1023 i) := by
    intro i
    rw [pde, word_zero]
    exact present_zero
  have hb : Built ⟨KERNLINK + PGSIZE, KERNLINK + PGSIZE + 1, by decide, by decide, by decide, by decide⟩
      ⟨fun _ => zero, [1024, 1025]⟩ 1023 := by
    refine ⟨by decide, ?_, ⟨⟨by decide, by decide⟩, by decide⟩, fun i _ hp => absurd hp (hpde i),
      fun i _ _ _ hp => absurd hp (hpde i)⟩
    intro p hp
    simp only [List.mem_cons, List.not_mem_nil, or_false] at hp
    rcases hp with rfl | rfl <;> exact ⟨by decide, by decide⟩
  refine ⟨_, hb, (mappages_spec hb).2 DEVSPACE 0x2000000 DEVSPACE PTE_W (by decide) (by decide) (by decide) (by decide)
    (by decide) fun x _ => ?_⟩
  rw [pte_of_absent (hpde _)]
  exact present_zero

end

end Xv6.MapPages
