import Xv6.KernelMap

namespace Xv6.Vm

open Xv6.ByteMemory Xv6.Ownership

structure Changed (A : Set Role) (d lo hi : ℕ) (Q : ℕ → Prop) (m m' : PhysMem) : Prop where
  dirs : ∀ d' i, .dir d' ∈ A → i < NPDENTRIES → d' ≠ d → pde m' d' i = pde m d' i
  keep : ∀ i, i < NPDENTRIES → present (pde m d i) → present (pde m' d i)
  others : ∀ d' v, .table d' (v / 1024) ∈ A → v < 2 ^ 20 → (d' = d → v < lo ∨ hi ≤ v) → pte m' d' v = pte m d' v
  inside : ∀ v, lo ≤ v → v < hi → Q (pte m' d v)

def UserEntry (w : ℕ) : Prop := ∃ p, w = p * PGSIZE + (PTE_W ||| PTE_U ||| PTE_P)

section

variable {L : Layout} {A : Set Role} {M : Set ℕ} {m m' m'' : PhysMem} {d v : ℕ}

theorem UserEntry.present {w : ℕ} (h : UserEntry w) : present w := by
  obtain ⟨p, rfl⟩ := h
  rw [← entry_add p (by decide)]
  simp only [← Nat.or_assoc]
  exact or_present _

theorem lt_of_lt_userPages (hv : v < userPages) : v < 2 ^ 20 := by
  rw [userPages_eq] at hv
  omega

theorem pages_mono {a b : ℕ} (h : a ≤ b) : pages a ≤ pages b := Nat.div_le_div_right (by omega)

theorem pages_le_userPages {sz : ℕ} (h : sz ≤ KERNBASE) : pages sz ≤ userPages := by
  simp only [pages, userPages, KERNBASE, PGSIZE] at *
  omega

theorem mapPage_remap (hp : present (pte m d v)) (pa perm : ℕ) :
    mapPage m d (v * PGSIZE) pa perm = .error "remap" := by
  have hpd := table_of_present hp
  simp only [mapPage]
  rw [walkpgdir_present (by rw [PDX_page]; exact hpd), PDX_page, PTX_page]
  simp only [← pte_of_present hpd]
  rw [if_pos hp]

theorem Inv.take (hI : Inv L A M m) {p : ℕ} {ps : List ℕ} (hf : m.freelist = p :: ps) (b : Bytes) :
    p ∈ M ∧ Managed L p ∧ Inv L A (M \ {p}) (({ m with freelist := ps } : PhysMem).setPage p b) ∧
      Same A m (({ m with freelist := ps } : PhysMem).setPage p b) := by
  obtain ⟨hpM, hI1⟩ := hI.kalloc hf
  have hs0 : Same A m { m with freelist := ps } := (Same.refl A m).of_mem rfl
  have hs1 := hI1.same_setPage (by simp : p ∉ M \ {p}) b
  exact ⟨hpM, hI.managed p hpM, hI1.same hs1 rfl, hs0.trans hs1⟩

theorem insert_sdiff_mem {p : ℕ} (hp : p ∈ M) : insert p (M \ {p}) = M := by
  rw [Set.insert_sdiff_singleton, Set.insert_eq_of_mem hp]

variable {lo hi : ℕ} {Q : ℕ → Prop}

theorem Cleared.changed (hdir : .dir d ∈ A) (hd : ∀ i, .table d i ∈ A) (hhi : hi ≤ 2 ^ 20)
    (h : Cleared A d lo hi m m') : Changed A d lo hi (fun w => ¬present w) m m' := by
  refine ⟨fun d' i hd' hi _ => h.dirs d' i hd' hi, fun i hi hp => ?_, ?_, ?_⟩
  · rw [h.dirs d i hdir hi]
    exact hp
  · intro d' v ht hv hne
    rw [h.entries d' v ht hv, if_neg]
    rintro ⟨he, h1, h2, -⟩
    have := hne he
    omega
  · intro v h1 h2
    rw [h.entries d v (hd _) (by omega)]
    split_ifs with hc
    · exact present_zero
    · exact fun hp => hc ⟨rfl, h1, h2, hp⟩

theorem Changed.of_same (hdir : .dir d ∈ A) (hs : Same A m m')
    (h : Changed A d lo hi Q m' m'') : Changed A d lo hi Q m m'' :=
  ⟨fun d' i hd' hi hne => (h.dirs d' i hd' hi hne).trans (hs.dirs d' i hd' hi),
    fun i hi hp => h.keep i hi (by rw [hs.dirs d i hdir hi]; exact hp),
        fun d' v ht hv hne => (h.others d' v ht hv hne).trans (hs.entries d' v ht hv), h.inside⟩

theorem Changed.same_of (hdir : .dir d ∈ A) (hd : ∀ i, .table d i ∈ A) (hhi : hi ≤ 2 ^ 20)
    (h : Changed A d lo hi Q m m') (hs : Same A m' m'') : Changed A d lo hi Q m m'' := by
  refine ⟨fun d' i hd' hi hne => (hs.dirs d' i hd' hi).trans (h.dirs d' i hd' hi hne),
    fun i hi hp => by rw [hs.dirs d i hdir hi]; exact h.keep i hi hp,
    fun d' v ht hv hne => (hs.entries d' v ht hv).trans (h.others d' v ht hv hne), ?_⟩
  intro v h1 h2
  rw [hs.entries d v (hd _) (by omega)]
  exact h.inside v h1 h2

theorem MapOne.changed {lo lo' hi w : ℕ} (hdir : .dir d ∈ A) (hd : ∀ i, .table d i ∈ A)
    (hlo : lo < 2 ^ 20) (h : MapOne A d lo w m m') (hQ : lo < lo' → Q w) (hlo' : lo' ≤ lo + 1)
    (h' : Changed A d lo' hi Q m' m'') (hlh : lo < hi) : Changed A d (min lo lo') hi Q m m'' := by
  refine ⟨?_, fun i hi hp => h'.keep i hi (h.keep hdir i hi hp), ?_, ?_⟩
  · intro d' i hd' hi hne
    rw [h'.dirs d' i hd' hi hne, h.dirs d' i hd' hi (fun he => absurd he hne)]
  · intro d' v ht hv hne
    rw [h'.others d' v ht hv (fun he => by have := hne he; omega), h.entries d' v ht hv, if_neg]
    rintro ⟨he, rfl⟩
    have := hne he
    omega
  · intro v h1 h2
    by_cases hv : lo' ≤ v
    · exact h'.inside v hv h2
    · have hvl : v = lo := by omega
      subst hvl
      rw [h'.others d v (hd _) hlo (fun _ => by omega), h.entries d v (hd _) hlo, if_pos ⟨rfl, rfl⟩]
      exact hQ (by omega)

theorem allocLoop_spec (hd : Spans A d) {oldsz newsz : ℕ} (hnew : newsz < KERNBASE)
    (v : ℕ) (m : PhysMem) (hv : pages oldsz ≤ v) (hI : Inv L A M m) :
    (∃ x, v ≤ x ∧ x < pages newsz ∧ present (pte m d x) ∧ allocLoop L d oldsz newsz (v * PGSIZE) m = .error "remap") ∨
    (∃ m', allocLoop L d oldsz newsz (v * PGSIZE) m = .ok (newsz, m') ∧ Inv L A M m' ∧
      Changed A d v (pages newsz) UserEntry m m') ∨
    (∃ m', allocLoop L d oldsz newsz (v * PGSIZE) m = .ok (0, m') ∧ Inv L A M m' ∧
      Changed A d (pages oldsz) (pages newsz) (fun w => ¬present w) m m') := by
  have hdir : .dir d ∈ A := hd (.dir d) rfl
  have hti : ∀ i, .table d i ∈ A := fun i => hd (.table d i) rfl
  have hfr : ∀ v, .frame d v ∈ A := fun v => hd (.frame d v) rfl
  have hpg : pages newsz ≤ userPages := pages_le_userPages hnew.le
  have hpg20 : pages newsz ≤ 2 ^ 20 := by rw [userPages_eq] at hpg; omega
  induction hk : pages newsz - v generalizing v m with
  | zero =>
    refine Or.inr (Or.inl ⟨m, ?_, hI, fun _ _ _ _ _ => rfl, fun _ _ h => h,
      fun _ _ _ _ _ => rfl, fun x h1 h2 => by omega⟩)
    rw [allocLoop, if_neg]
    rw [← lt_pages]
    omega
  | succ k ih =>
    have hvp : v < pages newsz := by omega
    have hlt : v * PGSIZE < newsz := lt_pages.mp hvp
    have holdlt : oldsz < newsz := by
      simp only [pages, PGSIZE] at hv hlt
      omega
    rw [allocLoop, if_pos hlt]
    cases hf : m.freelist with
    | nil =>
      obtain ⟨m', he, hI', hc⟩ := deallocuvm_spec hfr hnew.le holdlt hI
      refine Or.inr (Or.inr ⟨m', ?_, hI', hc.changed hdir hti hpg20⟩)
      simp only [kalloc, hf, he, Outcome.ok_bind]
    | cons p ps =>
      obtain ⟨hpM, hmp, hI1, hs1⟩ := hI.take hf zero
      simp only [kalloc, hf]
      rw [mappages_one (by omega : v < 2 ^ 20)]
      by_cases hpr : present (pte m d v)
      · refine Or.inl ⟨v, le_rfl, hvp, hpr, ?_⟩
        rw [mapPage_remap (by rw [hs1.entries d v (hti _) (by omega)]; exact hpr)]
        rfl
      · have habs1 : ¬present (pte (({ m with freelist := ps } : PhysMem).setPage p zero) d v) := by
          rw [hs1.entries d v (hti _) (by omega)]
          exact hpr
        rcases mapPage_user hI1 (hfr v) (by omega) habs1 (by simp) hmp (PTE_W ||| PTE_U) (by decide) with
          ⟨-, -, he⟩ | ⟨m2, he, hI2, hm⟩
        · obtain ⟨m2, he2, hI2, hc⟩ := deallocuvm_spec hfr hnew.le holdlt hI1
          obtain ⟨m3, he3, -, -, hs3, hI3⟩ := hI2.kfree (p := p) (by simp) hmp
          rw [insert_sdiff_mem hpM] at hI3
          refine Or.inr (Or.inr ⟨m3, ?_, hI3, ?_⟩)
          · simp only [he, Outcome.ok_bind, Bool.false_eq_true, if_false, he2, he3]
          · exact Changed.of_same hdir hs1 ((hc.changed hdir hti hpg20).same_of hdir hti hpg20 hs3)
        · rw [insert_sdiff_mem hpM] at hI2
          have hnext : v * PGSIZE + PGSIZE = (v + 1) * PGSIZE := by ring
          simp only [he, Outcome.ok_bind, if_true, hnext]
          rcases ih (v + 1) m2 (by omega) hI2 (by omega) with ⟨x, h1, h2, hp, hx⟩ | ⟨m', hx, hI', hc⟩ |
              ⟨m', hx, hI', hc⟩
          · refine Or.inl ⟨x, by omega, h2, ?_, hx⟩
            rw [hm.entries d x (hti _) (by omega), if_neg (by omega), hs1.entries d x (hti _) (by omega)] at hp
            exact hp
          · refine Or.inr (Or.inl ⟨m', hx, hI', ?_⟩)
            have h := hm.changed hdir hti (by omega) (fun _ => ⟨p, rfl⟩) le_rfl hc hvp
            rw [min_eq_left (by omega)] at h
            exact Changed.of_same hdir hs1 h
          · refine Or.inr (Or.inr ⟨m', hx, hI', ?_⟩)
            have h := hm.changed hdir hti (by omega) (fun h => by omega) (by omega) hc hvp
            rw [min_eq_right hv] at h
            exact Changed.of_same hdir hs1 h

theorem allocuvm_spec (hd : Spans A d) (oldsz newsz : ℕ) (hI : Inv L A M m) :
    (newsz < KERNBASE ∧ ∃ x, pages oldsz ≤ x ∧ x < pages newsz ∧ present (pte m d x) ∧
      allocuvm L m d oldsz newsz = .error "remap") ∨
    (newsz < oldsz ∧ newsz < KERNBASE ∧ allocuvm L m d oldsz newsz = .ok (oldsz, m)) ∨
    (oldsz ≤ newsz ∧ newsz < KERNBASE ∧ ∃ m', allocuvm L m d oldsz newsz = .ok (newsz, m') ∧ Inv L A M m' ∧
      Changed A d (pages oldsz) (pages newsz) UserEntry m m') ∨
    (KERNBASE ≤ newsz ∧ allocuvm L m d oldsz newsz = .ok (0, m)) ∨
    (newsz < KERNBASE ∧ ∃ m', allocuvm L m d oldsz newsz = .ok (0, m') ∧ Inv L A M m' ∧
      Changed A d (pages oldsz) (pages newsz) (fun w => ¬present w) m m') := by
  rw [allocuvm]
  by_cases hk : KERNBASE ≤ newsz
  · exact Or.inr (Or.inr (Or.inr (Or.inl ⟨hk, if_pos hk⟩)))
  · rw [if_neg hk]
    by_cases ho : newsz < oldsz
    · exact Or.inr (Or.inl ⟨ho, by omega, if_pos ho⟩)
    · rw [if_neg ho, PGROUNDUP_eq]
      have hlt : newsz < KERNBASE := Nat.lt_of_not_le hk
      rcases allocLoop_spec hd hlt (pages oldsz) m le_rfl hI with h | h | h
      · exact Or.inl ⟨hlt, h⟩
      · exact Or.inr (Or.inr (Or.inl ⟨Nat.le_of_not_lt ho, hlt, h⟩))
      · exact Or.inr (Or.inr (Or.inr (Or.inr ⟨hlt, h⟩)))

structure Copying (L : Layout) (A : Set Role) (M : Set ℕ) (s d n v : ℕ) (m0 m : PhysMem) : Prop where
  inv : Inv L (A ∪ rooted d) M m
  same : Same A m0 m
  rest : ∀ x, v ≤ x → x < userPages → ¬present (pte m d x)
  done : ∀ x, x < v → present (pte m d x) ∧ PTE_FLAGS (pte m d x) = PTE_FLAGS (pte m0 s x)
  tables : ∀ i, i < 512 → (present (pde m d i) ↔ i * 1024 < v)
  count : m.freelist.length + v + (v + 1023) / 1024 = n

theorem Copying.step {s n p : ℕ} {ps : List ℕ} {m0 : PhysMem} (h : Copying L A M s d n v m0 m)
    (hs : Spans A s) (hroot : Avoids A d) (hv : v < userPages)
    (hpr : present (pte m s v)) (hf : m.freelist = p :: ps) (b : Bytes) :
    let m1 := ({ m with freelist := ps } : PhysMem).setPage p b
    (mapPage m1 d (v * PGSIZE) (p * PGSIZE) (PTE_FLAGS (pte m s v)) = .ok (false, m1) ∧ ps = [] ∧ v % 1024 = 0 ∧
      Inv L (A ∪ rooted d) (M \ {p}) m1 ∧ p ∈ M ∧ Same A m0 m1) ∨
    ∃ m2, mapPage m1 d (v * PGSIZE) (p * PGSIZE) (PTE_FLAGS (pte m s v)) = .ok (true, m2) ∧
      Copying L A M s d n (v + 1) m0 m2 := by
  intro m1
  have hall : Spans (A ∪ rooted d) d := fun r hr => Or.inr hr
  have hv20 := lt_of_lt_userPages hv
  have hi512 : v / 1024 < 512 := by rw [userPages_eq] at hv; omega
  obtain ⟨hpM, hmp, hI1, hs1⟩ := h.inv.take hf b
  have habs : ¬present (pte m1 d v) := by
    rw [hs1.entries d v (hall _ rfl) hv20]
    exact h.rest v le_rfl hv
  have hpde : ∀ i, i < NPDENTRIES → pde m1 d i = pde m d i := fun i hi => hs1.dirs d i (hall _ rfl) hi
  have htab := h.tables _ hi512
  have hcount := h.count
  rw [hf, List.length_cons] at hcount
  have hflags : PTE_FLAGS (pte m s v) < PGSIZE := Nat.mod_lt _ (by decide)
  rcases mapPage_user hI1 (hall (.frame d v) rfl) hv habs (by simp) hmp _ hflags
      with ⟨hnil, hpd, he⟩ | ⟨m2, he, hI2, hm⟩
  · rw [hpde _ (div_lt_entries hv20), htab] at hpd
    exact Or.inl ⟨he, hnil, by omega, hI1, hpM, h.same.trans (hs1.mono Set.subset_union_left)⟩
  · rw [insert_sdiff_mem hpM] at hI2
    have hsame : Same A m m2 := by
      refine (hs1.mono Set.subset_union_left).trans ⟨?_, ?_⟩
      · intro d' i hd' hi
        exact hm.dirs d' i (Or.inl hd') hi (fun he => absurd hd' (hroot _ he))
      · intro d' x ht hx
        rw [hm.entries d' x (Or.inl ht) hx, if_neg]
        rintro ⟨rfl, -⟩
        exact hroot (.table d' _) rfl ht
    have hent : ∀ x, x < 2 ^ 20 → pte m2 d x =
        if x = v then p * PGSIZE + (PTE_FLAGS (pte m s v) ||| PTE_P) else pte m d x := by
      intro x hx
      rw [hm.entries d x (hall _ rfl) hx, hs1.entries d x (hall _ rfl) hx]
      simp only [true_and]
    refine Or.inr ⟨m2, he, hI2, h.same.trans hsame, ?_, ?_, ?_, ?_⟩
    · intro x h1 h2
      rw [hent x (lt_of_lt_userPages h2), if_neg (by omega)]
      exact h.rest x (by omega) h2
    · intro x hx
      rw [hent x (by omega)]
      by_cases hxv : x = v
      · subst hxv
        have hor : PTE_FLAGS (pte m s x) ||| PTE_P = PTE_FLAGS (pte m s x) := by
          have hodd : PTE_FLAGS (pte m s x) % 2 = 1 := by
            simp only [present, PTE_FLAGS, PGSIZE] at *
            omega
          obtain ⟨j, hj⟩ : ∃ j, PTE_FLAGS (pte m s x) = 2 ^ 1 * j + 1 := ⟨PTE_FLAGS (pte m s x) / 2, by omega⟩
          rw [hj, Nat.two_pow_add_eq_or_of_lt (by decide), Nat.or_assoc]
          rfl
        rw [if_pos rfl, hor]
        refine ⟨?_, ?_⟩
        · simp only [present, PTE_FLAGS, PGSIZE] at *
          omega
        · rw [h.same.entries s x (hs _ rfl) hv20]
          simp only [PTE_FLAGS, PGSIZE]
          omega
      · rw [if_neg hxv]
        exact h.done x (by omega)
    · intro i hi
      by_cases hiv : i = v / 1024
      · subst hiv
        refine iff_of_true hm.here (by omega)
      · rw [hm.dirs d i (hall _ rfl) (by simp only [NPDENTRIES]; omega) (fun _ => hiv),
          hpde i (by simp only [NPDENTRIES]; omega), h.tables i hi]
        omega
    · rcases hm.cost with ⟨hp, hfl⟩ | ⟨hp, hfl⟩
      · rw [hpde _ (div_lt_entries hv20), htab] at hp
        have hlen : m2.freelist.length = ps.length := by rw [hfl]; rfl
        omega
      · rw [hpde _ (div_lt_entries hv20), htab] at hp
        have hlen : ps.length = m2.freelist.length + 1 := hfl
        omega

theorem copyBad_spec (hI : Inv L (A ∪ rooted d) M m) (hroot : Avoids A d) :
    ∃ m', copyBad L m d = .ok (none, m') ∧ Inv L A M m' ∧ Same A m m' := by
  have hall : Spans (A ∪ rooted d) d := fun r hr => Or.inr hr
  obtain ⟨m', he, hI', hs⟩ := freevm_spec hall hI
  rw [without_rooted hroot] at hI' hs
  refine ⟨m', ?_, hI', hs⟩
  simp only [copyBad, he, Outcome.ok_bind]

def Starved (n sz : ℕ) : Prop := ∃ q, n = 1025 * q + 66 ∧ q * 2 ^ 22 < sz

def copyPanics : List String := ["copyuvm: pte should exist", "copyuvm: page not present"]

theorem table_base_le (v : ℕ) : v / 1024 * 2 ^ 22 ≤ v * PGSIZE := by
  simp only [PGSIZE]
  omega

theorem copyLoop_spec {s n sz : ℕ} {m0 : PhysMem} (hs : Spans A s)
    (hroot : Avoids A d) (hsz : sz ≤ KERNBASE) (v : ℕ) (m : PhysMem) (hv : v ≤ pages sz)
    (h : Copying L A M s d n v m0 m) :
    (∃ e ∈ copyPanics, copyLoop L s sz d (v * PGSIZE) m = .error e ∧ ∃ x, x < pages sz ∧ ¬present (pte m0 s x)) ∨
    (∃ m', copyLoop L s sz d (v * PGSIZE) m = .ok (some d, m') ∧ Copying L A M s d n (pages sz) m0 m') ∨
    (∃ m', copyLoop L s sz d (v * PGSIZE) m = .ok (none, m') ∧ Inv L A M m' ∧ Same A m0 m' ∧ ¬Starved (n + 65) sz) ∨
    (∃ m' p, copyLoop L s sz d (v * PGSIZE) m = .ok (none, m') ∧ p ∈ M ∧ Inv L A (M \ {p}) m' ∧ Same A m0 m' ∧
      Starved (n + 65) sz) := by
  have hpg := pages_le_userPages hsz
  induction hk : pages sz - v generalizing v m with
  | zero =>
    have hve : v = pages sz := by omega
    subst hve
    refine Or.inr (Or.inl ⟨m, ?_, h⟩)
    rw [copyLoop, if_neg]
    rw [← lt_pages]
    omega
  | succ k ih =>
    have hvp : v < pages sz := by omega
    have hlt : v * PGSIZE < sz := lt_pages.mp hvp
    have hvu : v < userPages := by omega
    have hsv := h.same.entries s v (hs _ rfl) (lt_of_lt_userPages hvu)
    rw [copyLoop, if_pos hlt]
    by_cases hpd : present (pde m s (v / 1024))
    · rw [walkpgdir_present (by rw [PDX_page]; exact hpd), PDX_page, PTX_page]
      simp only [← pte_of_present hpd]
      by_cases hpr : present (pte m s v)
      · rw [if_pos hpr]
        cases hf : m.freelist with
        | nil =>
          obtain ⟨m', he, hI', hsame⟩ := copyBad_spec h.inv hroot
          refine Or.inr (Or.inr (Or.inl ⟨m', ?_, hI', h.same.trans hsame, ?_⟩))
          · simp only [kalloc, hf]
            exact he
          · rintro ⟨q, hq, -⟩
            have hcount := h.count
            rw [hf, List.length_nil] at hcount
            omega
        | cons p ps =>
          simp only [kalloc, hf]
          rw [mappages_one (lt_of_lt_userPages hvu)]
          rcases h.step hs hroot hvu hpr hf (m.mem (frameOf (pte m s v))) with
            ⟨he, hps, hmod, hI1, hpM, hs1⟩ | ⟨m2, he, h2⟩
          · obtain ⟨m', he', hI', hsame⟩ := copyBad_spec hI1 hroot
            refine Or.inr (Or.inr (Or.inr ⟨m', p, ?_, hpM, hI', hs1.trans hsame, v / 1024, ?_, ?_⟩))
            · simp only [he, Outcome.ok_bind, Bool.false_eq_true, if_false]
              exact he'
            · have hcount := h.count
              rw [hf, hps] at hcount
              simp only [List.length_cons, List.length_nil] at hcount
              omega
            · exact lt_of_le_of_lt (table_base_le v) hlt
          · have hnext : v * PGSIZE + PGSIZE = (v + 1) * PGSIZE := by ring
            simp only [he, Outcome.ok_bind, if_true, hnext]
            exact ih (v + 1) m2 hvp h2 (by omega)
      · refine Or.inl ⟨_, by simp [copyPanics], if_neg hpr, v, hvp, ?_⟩
        rw [← hsv]
        exact hpr
    · rw [walkpgdir_absent (by rw [PDX_page]; exact hpd)]
      refine Or.inl ⟨_, by simp [copyPanics], rfl, v, hvp, ?_⟩
      rw [← hsv, pte_of_absent hpd]
      exact present_zero

theorem Copying.start {s : ℕ} {m0 : PhysMem} (hI : Inv L (A ∪ rooted d) M m) (hs : Same A m0 m)
    (htab : ∀ i, i < NPDENTRIES → (present (pde m d i) ↔ i ∈ kernelTables)) :
    Copying L A M s d m.freelist.length 0 m0 m := by
  have hnone : ∀ i, i < 512 → ¬present (pde m d i) := by
    intro i hi
    rw [htab i (by simp only [NPDENTRIES]; omega)]
    simp only [kernelTables, Finset.mem_union, Finset.mem_Ico]
    omega
  refine ⟨hI, hs, ?_, by simp, ?_, by simp⟩
  · intro x _ hx
    rw [pte_of_absent (hnone _ (by rw [userPages_eq] at hx; omega))]
    exact present_zero
  · intro i hi
    exact iff_of_false (hnone i hi) (by omega)

theorem copyuvm_spec {s sz : ℕ} (hs : Spans A s) (hsz : sz ≤ KERNBASE) (hI : Inv L A M m) :
    (∃ e ∈ copyPanics, copyuvm L m s sz = .error e ∧ ∃ x, x < pages sz ∧ ¬present (pte m s x)) ∨
    (∃ d m', copyuvm L m s sz = .ok (some d, m') ∧ Avoids A d ∧ Inv L (A ∪ rooted d) M m' ∧
      Same A m m' ∧ (∀ x, pages sz ≤ x → x < userPages → ¬present (pte m' d x)) ∧
      (∀ x, x < pages sz → present (pte m' d x) ∧ PTE_FLAGS (pte m' d x) = PTE_FLAGS (pte m s x)) ∧
      ¬Starved m.freelist.length sz) ∨
    (∃ m', copyuvm L m s sz = .ok (none, m') ∧ Inv L A M m' ∧ Same A m m' ∧ ¬Starved m.freelist.length sz) ∨
    (∃ m' p, copyuvm L m s sz = .ok (none, m') ∧ p ∈ M ∧ Inv L A (M \ {p}) m' ∧ Same A m m' ∧
      Starved m.freelist.length sz) := by
  rcases setupkvm_spec hI with ⟨m', he, hI', hsame, hlen⟩ | ⟨d, m1, he, hroot, hI1, hs1, htab, -, hlen⟩
  · refine Or.inr (Or.inr (Or.inl ⟨m', ?_, hI', hsame, ?_⟩))
    · simp only [copyuvm, he, Outcome.ok_bind]
    · rintro ⟨q, hq, -⟩
      omega
  · have hun : copyuvm L m s sz = copyLoop L s sz d (0 * PGSIZE) m1 := by
      simp only [copyuvm, he, Outcome.ok_bind, Nat.zero_mul]
    rw [hun, hlen]
    rcases copyLoop_spec hs hroot hsz 0 m1 (Nat.zero_le _) (.start hI1 hs1 htab) with h | ⟨m', h, hc'⟩ | h | h
    · exact Or.inl h
    · refine Or.inr (Or.inl ⟨d, m', h, hroot, hc'.inv, hc'.same, hc'.rest, hc'.done, ?_⟩)
      rintro ⟨q, hq, hlt⟩
      have hcount := hc'.count
      have hq' : q * 1024 < pages sz := lt_pages.mpr (lt_of_eq_of_lt (by simp only [PGSIZE]; ring) hlt)
      omega
    · exact Or.inr (Or.inr (Or.inl h))
    · exact Or.inr (Or.inr (Or.inr h))

end

end Xv6.Vm
