import Xv6.PageWalk

namespace Xv6.Vm

open Xv6.ByteMemory Xv6.Ownership

def tables (m : PhysMem) (d : ℕ) : ℕ := ((Finset.range NPDENTRIES).filter (fun i => present (pde m d i))).card

structure MapOne (A : Set Role) (d v w : ℕ) (m m' : PhysMem) : Prop where
  here : present (pde m' d (v / 1024))
  dirs : ∀ d' j, .dir d' ∈ A → j < NPDENTRIES → (d' = d → j ≠ v / 1024) → pde m' d' j = pde m d' j
  entries : ∀ d' v', .table d' (v' / 1024) ∈ A → v' < 2 ^ 20 →
    pte m' d' v' = if d' = d ∧ v' = v then w else pte m d' v'
  cost : present (pde m d (v / 1024)) ∧ m'.freelist = m.freelist ∨
    ¬present (pde m d (v / 1024)) ∧ m.freelist.length = m'.freelist.length + 1

structure MapSet (A : Set Role) (d : ℕ) (S : Set ℕ) (m m' : PhysMem) : Prop where
  dirs : ∀ d' j, .dir d' ∈ A → j < NPDENTRIES → (d' = d → ∀ x ∈ S, x / 1024 ≠ j) → pde m' d' j = pde m d' j
  keep : ∀ j, j < NPDENTRIES → present (pde m d j) → present (pde m' d j)
  entries : ∀ d' v, .table d' (v / 1024) ∈ A → v < 2 ^ 20 → (d' = d → v ∉ S) → pte m' d' v = pte m d' v
  user : ∀ v, v < 2 ^ 20 → ¬userBit (pte m d v) → ¬userBit (pte m' d v)
  cost : m.freelist.length + tables m d = m'.freelist.length + tables m' d

section

variable {L : Layout} {A : Set Role} {M : Set ℕ} {m m' m'' : PhysMem} {d v w p : ℕ}

theorem PDX_page (v : ℕ) : PDX (v * PGSIZE) = v / 1024 := by
  simp only [PDX, PGSIZE]
  omega

theorem PTX_page (v : ℕ) : PTX (v * PGSIZE) = v % 1024 := by
  simp only [PTX, PGSIZE]
  omega

theorem Walked.setPte (hI : Inv L A M m') (ht : .table d (v / 1024) ∈ A) (hv : v < 2 ^ 20)
    (hw : Walked A d (v / 1024) m m') (hs : SetPte A d v w m' m'') (hf : m''.freelist = m'.freelist) :
    MapOne A d v w m m'' := by
  have hd := hI.closed.dir _ _ ht
  have hi := div_lt_entries hv
  refine ⟨?_, ?_, ?_, ?_⟩
  · rw [hs.dirs d _ hd hi]
    exact hw.here
  · intro d' j hd' hj hne
    rw [hs.dirs d' j hd' hj, hw.dirs d' j hd' hj hne]
  · intro d' v' ht' hv'
    rw [hs.entries d' v' ht' hv', hw.entries d' v' ht' hv']
  · rcases hw.cost with ⟨hp, rfl⟩ | ⟨hp, hl⟩
    · exact Or.inl ⟨hp, hf⟩
    · exact Or.inr ⟨hp, by rw [hf, hl]⟩

theorem mapPage_cases (hI : Inv L A M m) (ht : .table d (v / 1024) ∈ A) (hv : v < 2 ^ 20)
    (habs : ¬present (pte m d v)) (pa perm : ℕ) :
    (m.freelist = [] ∧ ¬present (pde m d (v / 1024)) ∧ mapPage m d (v * PGSIZE) pa perm = .ok (false, m)) ∨
    ∃ m1, Inv L A M m1 ∧ Walked A d (v / 1024) m m1 ∧ mapPage m d (v * PGSIZE) pa perm =
      .ok (true, m1.setEntry (frameOf (pde m1 d (v / 1024))) (v % 1024) (pa ||| perm ||| PTE_P)) := by
  have hw := walkpgdir_alloc hI (v * PGSIZE) (d := d)
  rw [PDX_page, PTX_page] at hw
  rcases hw ht (div_lt_entries hv) with ⟨hf, hp, he⟩ | ⟨m1, he, hI1, hw⟩
  · exact Or.inl ⟨hf, hp, by simp only [mapPage, he]⟩
  · refine Or.inr ⟨m1, hI1, hw, ?_⟩
    simp only [mapPage, he]
    rw [if_neg]
    rw [← pte_of_present hw.here, hw.entries d v ht hv]
    exact habs

theorem mapPage_user (hI : Inv L A M m) (hr : .frame d v ∈ A) (hv : v < userPages) (habs : ¬present (pte m d v))
    (hp : p ∉ M) (hmp : Managed L p) (perm : ℕ) (hperm : perm < PGSIZE) :
    (m.freelist = [] ∧ ¬present (pde m d (v / 1024)) ∧ mapPage m d (v * PGSIZE) (p * PGSIZE) perm = .ok (false, m)) ∨
    ∃ m', mapPage m d (v * PGSIZE) (p * PGSIZE) perm = .ok (true, m') ∧ Inv L A (insert p M) m' ∧
      MapOne A d v (p * PGSIZE + (perm ||| PTE_P)) m m' := by
  have ht := hI.closed.table _ _ hr
  have hv' : v < 2 ^ 20 := by rw [userPages_eq] at hv; omega
  rcases mapPage_cases hI ht hv' habs (p * PGSIZE) perm with hfail | ⟨m1, hI1, hw, he⟩
  · exact Or.inl hfail
  rw [pte_word p hperm] at he
  have hlt := perm_lt hperm
  have hmlt := hmp.lt
  have hs := hI1.setPte_views ht hv' hw.here (w := p * PGSIZE + (perm ||| PTE_P))
    (by simp only [PGSIZE] at *; omega)
  refine Or.inr ⟨_, he, ?_, hw.setPte hI1 ht hv' hs rfl⟩
  have hfr := frameOf_add p hlt
  have hpr : present (p * PGSIZE + (perm ||| PTE_P)) := by
    rw [← pte_word p hperm]
    exact or_present _
  have hI2 := hs.inv_map hI1 rfl hv hr (by rw [hw.entries d v ht hv']; exact habs) hpr
    (by rw [hfr]; exact hp) (by rw [hfr]; exact hmp)
  rw [hfr] at hI2
  exact hI2

theorem mapPage_kernel (hI : Inv L A M m) (ht : .table d (v / 1024) ∈ A) (hv : userPages ≤ v) (hv' : v < 2 ^ 20)
    (habs : ¬present (pte m d v)) {q perm : ℕ} (hq : q < 2 ^ 20) (hperm : perm < PGSIZE) :
    (m.freelist = [] ∧ ¬present (pde m d (v / 1024)) ∧ mapPage m d (v * PGSIZE) (q * PGSIZE) perm = .ok (false, m)) ∨
    ∃ m', mapPage m d (v * PGSIZE) (q * PGSIZE) perm = .ok (true, m') ∧ Inv L A M m' ∧
      MapOne A d v (q * PGSIZE + (perm ||| PTE_P)) m m' := by
  rcases mapPage_cases hI ht hv' habs (q * PGSIZE) perm with hfail | ⟨m1, hI1, hw, he⟩
  · exact Or.inl hfail
  rw [pte_word q hperm] at he
  have hlt := perm_lt hperm
  have hs := hI1.setPte_views ht hv' hw.here (w := q * PGSIZE + (perm ||| PTE_P))
    (by simp only [PGSIZE] at *; omega)
  exact Or.inr ⟨_, he, hs.inv_kernel hI1 rfl hv, hw.setPte hI1 ht hv' hs rfl⟩

theorem mappages_eq {n : ℕ} (hn : v + n < 2 ^ 20) (pa perm : ℕ) :
    mappages m d (v * PGSIZE) ((n + 1) * PGSIZE) pa perm = mapLoop d perm n (v * PGSIZE) pa m := by
  have ha : PGROUNDDOWN (v * PGSIZE) = v * PGSIZE := by
    simp only [PGROUNDDOWN, PGSIZE]
    omega
  have hl : PGROUNDDOWN ((v * PGSIZE + (n + 1) * PGSIZE + 2 ^ 32 - 1) % 2 ^ 32) = (v + n) * PGSIZE := by
    simp only [PGROUNDDOWN, PGSIZE]
    omega
  have hc : ((v + n) * PGSIZE + 2 ^ 32 - v * PGSIZE) % 2 ^ 32 / PGSIZE = n := by
    simp only [PGSIZE]
    omega
  simp only [mappages, ha, hl, hc]

theorem mappages_one (hv : v < 2 ^ 20) (pa perm : ℕ) :
    mappages m d (v * PGSIZE) PGSIZE pa perm = mapPage m d (v * PGSIZE) pa perm := by
  have h := mappages_eq (m := m) (d := d) (v := v) (n := 0) hv pa perm
  rw [Nat.zero_add, Nat.one_mul] at h
  exact h

theorem MapSet.refl (A : Set Role) (d : ℕ) (S : Set ℕ) (m : PhysMem) : MapSet A d S m m :=
  ⟨fun _ _ _ _ _ => rfl, fun _ _ h => h, fun _ _ _ _ _ => rfl, fun _ _ h => h, rfl⟩

theorem MapSet.mono {S T : Set ℕ} (h : MapSet A d S m m') (hST : S ⊆ T) : MapSet A d T m m' :=
  ⟨fun d' j hd' hj hne => h.dirs d' j hd' hj (fun he x hx => hne he x (hST hx)), h.keep,
    fun d' v ht hv hne => h.entries d' v ht hv (fun he hx => hne he (hST hx)), h.user, h.cost⟩

theorem MapSet.trans {S T : Set ℕ} (h : MapSet A d S m m') (h' : MapSet A d T m' m'') :
    MapSet A d (S ∪ T) m m'' := by
  refine ⟨?_, fun j hj hp => h'.keep j hj (h.keep j hj hp), ?_, fun v hv hn => h'.user v hv (h.user v hv hn),
    h.cost.trans h'.cost⟩
  · intro d' j hd' hj hne
    rw [h'.dirs d' j hd' hj (fun he x hx => hne he x (Or.inr hx)),
      h.dirs d' j hd' hj (fun he x hx => hne he x (Or.inl hx))]
  · intro d' v ht hv hne
    rw [h'.entries d' v ht hv (fun he hx => hne he (Or.inr hx)),
      h.entries d' v ht hv (fun he hx => hne he (Or.inl hx))]

theorem MapOne.keep (hd : .dir d ∈ A) (h : MapOne A d v w m m') (j : ℕ) (hj : j < NPDENTRIES)
    (hp : present (pde m d j)) : present (pde m' d j) := by
  by_cases he : j = v / 1024
  · rw [he]
    exact h.here
  · rw [h.dirs d j hd hj (fun _ => he)]
    exact hp

theorem MapOne.mapSet (hd : .dir d ∈ A) (ht : ∀ i, .table d i ∈ A) (hv : v < 2 ^ 20) (hw : ¬userBit w)
    (h : MapOne A d v w m m') : MapSet A d {v} m m' := by
  have hi := div_lt_entries hv
  have hkeep := h.keep hd
  refine ⟨?_, hkeep, ?_, ?_, ?_⟩
  · intro d' j hd' hj hne
    exact h.dirs d' j hd' hj (fun he hjv => hne he v rfl hjv.symm)
  · intro d' v' ht hv' hne
    rw [h.entries d' v' ht hv', if_neg]
    rintro ⟨he, rfl⟩
    exact hne he rfl
  · intro v' hv' hn
    rw [h.entries d v' (ht _) hv']
    split_ifs
    · exact hw
    · exact hn
  · have hset : ((Finset.range NPDENTRIES).filter fun i => present (pde m' d i)) =
        insert (v / 1024) ((Finset.range NPDENTRIES).filter fun i => present (pde m d i)) := by
      ext j
      simp only [Finset.mem_filter, Finset.mem_range, Finset.mem_insert]
      by_cases he : j = v / 1024
      · simp only [he, hi, h.here, and_self, true_or]
      · simp only [he, false_or]
        constructor
        · rintro ⟨hj, hp⟩
          rw [h.dirs d j hd hj (fun _ => he)] at hp
          exact ⟨hj, hp⟩
        · rintro ⟨hj, hp⟩
          exact ⟨hj, hkeep j hj hp⟩
    simp only [tables, hset]
    rcases h.cost with ⟨hp, hf⟩ | ⟨hp, hl⟩
    · rw [Finset.insert_eq_of_mem (by simp only [Finset.mem_filter, Finset.mem_range]; exact ⟨hi, hp⟩), hf]
    · rw [Finset.card_insert_of_notMem (by simp only [Finset.mem_filter]; exact fun hc => hp hc.2), hl]
      omega

theorem kernel_entry {q perm : ℕ} (hperm : perm < PTE_U) : ¬userBit (q * PGSIZE + (perm ||| PTE_P)) := by
  have h : perm ||| PTE_P < 2 ^ 2 := Nat.or_lt_two_pow hperm (by decide)
  simp only [userBit, PGSIZE, PTE_U]
  omega

theorem mapLoop_kernel (hd : ∀ i, .table d i ∈ A) {perm : ℕ} (hperm : perm < PTE_U) (n v q : ℕ) (m : PhysMem)
    (hI : Inv L A M m) (hv : userPages ≤ v) (hvn : v + n < 2 ^ 20) (hq : q + n < 2 ^ 20)
    (habs : ∀ x ∈ Set.Ico v (v + n + 1), ¬present (pte m d x)) :
    ∃ b m', mapLoop d perm n (v * PGSIZE) (q * PGSIZE) m = .ok (b, m') ∧ Inv L A M m' ∧
      MapSet A d (Set.Ico v (v + n + 1)) m m' ∧
      (b = false → m'.freelist = [] ∧ ∃ x ∈ Set.Ico v (v + n + 1), ¬present (pde m' d (x / 1024))) ∧
      (b = true → ∀ x ∈ Set.Ico v (v + n + 1), present (pde m' d (x / 1024))) := by
  induction n generalizing v q m with
  | zero =>
    have hdir := hI.closed.dir d _ (hd 0)
    have hv1 : v ∈ Set.Ico v (v + 0 + 1) := Set.mem_Ico.mpr ⟨le_rfl, by omega⟩
    rcases mapPage_kernel hI (hd _) hv (by omega) (habs v hv1) (by omega : q < 2 ^ 20)
      (hperm.trans (by decide)) with
      ⟨hf, hp, he⟩ | ⟨m', he, hI', hm⟩
    · exact ⟨false, m, he, hI, MapSet.refl A d _ m, fun _ => ⟨hf, v, hv1, hp⟩, by simp⟩
    · refine ⟨true, m', he, hI',
        (hm.mapSet hdir hd (by omega) (kernel_entry hperm)).mono (Set.singleton_subset_iff.mpr hv1), by simp, ?_⟩
      intro _ x hx
      rw [Set.mem_Ico] at hx
      rw [show x = v by omega]
      exact hm.here
  | succ n ih =>
    have hdir := hI.closed.dir d _ (hd 0)
    have hv1 : v ∈ Set.Ico v (v + (n + 1) + 1) := Set.mem_Ico.mpr ⟨le_rfl, by omega⟩
    have hrest : Set.Ico (v + 1) (v + 1 + n + 1) ⊆ Set.Ico v (v + (n + 1) + 1) :=
      Set.Ico_subset_Ico (by omega) (by omega)
    rcases mapPage_kernel hI (hd _) hv (by omega) (habs v hv1) (by omega : q < 2 ^ 20)
      (hperm.trans (by decide)) with
      ⟨hf, hp, he⟩ | ⟨m1, he, hI1, hm⟩
    · refine ⟨false, m, ?_, hI, MapSet.refl A d _ m, fun _ => ⟨hf, v, hv1, hp⟩, by simp⟩
      simp only [mapLoop, he]
      rfl
    · have hr := hm.mapSet hdir hd (by omega : v < 2 ^ 20) (kernel_entry hperm)
      obtain ⟨b, m', he', hI', hr', hb0, hb1⟩ := ih (v + 1) (q + 1) m1 hI1 (by omega) (by omega) (by omega) (by
        intro x hx
        have hx' := Set.mem_Ico.mp hx
        rw [hr.entries d x (hd _) (by omega) (fun _ => by simp only [Set.mem_singleton_iff]; omega)]
        exact habs x (hrest hx))
      refine ⟨b, m', ?_, hI', (hr.trans hr').mono ?_, ?_, ?_⟩
      · simp only [mapLoop, he]
        rw [show v * PGSIZE + PGSIZE = (v + 1) * PGSIZE by ring, show q * PGSIZE + PGSIZE = (q + 1) * PGSIZE by ring]
        exact he'
      · exact Set.union_subset (Set.singleton_subset_iff.mpr hv1) hrest
      · intro hb
        obtain ⟨hf, x, hx, hp⟩ := hb0 hb
        exact ⟨hf, x, hrest hx, hp⟩
      · intro hb x hx
        rw [Set.mem_Ico] at hx
        by_cases hxv : x = v
        · rw [hxv]
          exact hr'.keep _ (div_lt_entries (by omega)) hm.here
        · exact hb1 hb x (Set.mem_Ico.mpr (by omega))

end

end Xv6.Vm
