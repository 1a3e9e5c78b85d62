import Xv6.FrameContents

namespace Xv6.Vm

open ByteMemory Ownership

def Kmap.entry (k : Kmap) (v : ℕ) : ℕ := (k.phys_start / PGSIZE + (v - k.virt / PGSIZE)) * PGSIZE + (k.perm ||| PTE_P)

structure KernelMapped (L : Layout) (m : PhysMem) (d : ℕ) : Prop where
  segments : ∀ k ∈ kmap L, ∀ v ∈ k.span, pte m d v = k.entry v
  others : ∀ v, userPages ≤ v → v < 2 ^ 20 → (∀ k ∈ kmap L, v ∉ k.span) → pte m d v = 0

section

variable {L : Layout} {A : Set Role} {M : Set ℕ} {m m' : PhysMem} {d v q : ℕ}

theorem KernelMapped.unique {d' : ℕ} (h : KernelMapped L m d) (h' : KernelMapped L m' d') (hv : userPages ≤ v)
    (hv' : v < 2 ^ 20) : pte m d v = pte m' d' v := by
  by_cases hk : ∃ k ∈ kmap L, v ∈ k.span
  · obtain ⟨k, hkm, hvk⟩ := hk
    rw [h.segments k hkm v hvk, h'.segments k hkm v hvk]
  · have hno : ∀ k ∈ kmap L, v ∉ k.span := fun k hkm hvk => hk ⟨k, hkm, hvk⟩
    rw [h.others v hv hv' hno, h'.others v hv hv' hno]

theorem KernelMapped.congr (h : KernelMapped L m d) (he : ∀ v, userPages ≤ v → v < 2 ^ 20 → pte m' d v = pte m d v) :
    KernelMapped L m' d := by
  refine ⟨fun k hk v hv => ?_, fun v hv hv' hno => ?_⟩
  · have hspan := (kmap_span L v).mp ⟨k, hk, hv⟩
    rw [he v (by rw [userPages_eq]; omega) (by omega)]
    exact h.segments k hk v hv
  · rw [he v hv hv']
    exact h.others v hv hv' hno

theorem freevm_keeps (hd : Spans A d) (hI : Inv L A M m) (he : freevm L m (some d) = .ok m') :
    Keeps (without A d) m m' := by
  obtain ⟨m2, m1, he', hI', hs, hde, hI1, hmem⟩ := freevm_stages hd hI
  cases he.symm.trans he'
  have hsub : without A d ⊆ outside A d (pages 0) (pages KERNBASE) := by
    refine fun r hr => ⟨hr.1, ?_⟩
    rintro v rfl
    exact absurd rfl hr.2
  have hk := (deallocuvm_keeps (fun v => hd (.frame d v) rfl) le_rfl hI hde).mono hsub
  constructor
  · intro r q hr hq
    rw [← owned_of_held hr] at hq ⊢
    rw [owned_of_same hI'.closed hs, hq]
  · intro d' v q hr hq
    have hq1 := hk.holds _ q hr hq
    have hst := mem_without_stage _ hr 0
    rw [hmem q, hk.bytes d' v q hr hq]
    · rintro rfl
      cases hI1.held_inj hst (⟨hd _ rfl, Or.inr (Or.inl rfl)⟩ : Role.dir q ∈ stage A q 0) hq1 rfl
    · rintro i hi hp rfl
      cases hI1.held_inj hst (⟨hd _ rfl, Or.inr (Or.inr ⟨i, Nat.zero_le i, rfl⟩)⟩ : Role.table d i ∈ stage A d 0) hq1
        (if_pos ⟨hi, hp⟩)

theorem freevm_new_keeps (hI : Inv L (A ∪ rooted d) M m) (hroot : Avoids A d)
    (he : freevm L m (some d) = .ok m') : Keeps A m m' := by
  have h := freevm_keeps mem_rooted hI he
  rwa [without_rooted hroot] at h

theorem mapPage_kernel_turn (ht : .table d (v / 1024) ∈ A) (hI : Inv L A M m) (hv : userPages ≤ v) (hv' : v < 2 ^ 20)
    (habs : ¬present (pte m d v)) {perm : ℕ} (hq : q < 2 ^ 20) (hperm : perm < PTE_U) {b : Bool}
    (he : mapPage m d (v * PGSIZE) (q * PGSIZE) perm = .ok (b, m')) :
    Inv L A M m' ∧ Keeps A m m' ∧ (b = true → MapOne A d v (q * PGSIZE + (perm ||| PTE_P)) m m') := by
  have hlt : perm < PGSIZE := hperm.trans (by decide)
  have hor := perm_lt hlt
  have hk := mapPage_keeps hI ht hv' habs (by rw [pte_word q hlt]; simp only [PGSIZE] at *; omega) he
  rcases mapPage_kernel hI ht hv hv' habs hq hlt with ⟨-, -, he'⟩ | ⟨m1, he', hI1, hm⟩
  · cases he.symm.trans he'
    exact ⟨hI, hk, fun h => absurd h (by decide)⟩
  · cases he.symm.trans he'
    exact ⟨hI1, hk, fun _ => hm⟩

theorem mapLoop_entries (hd : ∀ i, .table d i ∈ A) {perm : ℕ} (hperm : perm < PTE_U) (n v q : ℕ) (m : PhysMem)
    {b : Bool} (hI : Inv L A M m) (hv : userPages ≤ v) (hvn : v + n < 2 ^ 20) (hq : q + n < 2 ^ 20)
    (habs : ∀ x ∈ Set.Ico v (v + n + 1), ¬present (pte m d x))
    (he : mapLoop d perm n (v * PGSIZE) (q * PGSIZE) m = .ok (b, m')) :
    Keeps A m m' ∧ (b = true → ∀ x ∈ Set.Ico v (v + n + 1), pte m' d x =
      (q + (x - v)) * PGSIZE + (perm ||| PTE_P)) := by
  induction n generalizing v q m with
  | zero =>
    obtain ⟨-, hk, hm⟩ := mapPage_kernel_turn (hd _) hI hv (by omega) (habs v ⟨le_rfl, by omega⟩) hq hperm he
    refine ⟨hk, fun hb x hx => ?_⟩
    obtain rfl : x = v := by
      rw [Set.mem_Ico] at hx
      omega
    rw [(hm hb).entries d x (hd _) (by omega), if_pos ⟨rfl, rfl⟩, Nat.sub_self, Nat.add_zero]
  | succ n ih =>
    obtain ⟨⟨b1, m1⟩, he1, hrest⟩ := Outcome.bind_eq_ok.mp he
    obtain ⟨hI1, hk1, hm⟩ := mapPage_kernel_turn (hd _) hI hv (by omega) (habs v ⟨le_rfl, by omega⟩)
        (by omega) hperm he1
    cases b1 with
    | false =>
      cases hrest
      exact ⟨hk1, fun h => absurd h (by decide)⟩
    | true =>
      have hm := hm rfl
      simp only [if_true, show v * PGSIZE + PGSIZE = (v + 1) * PGSIZE by ring,
        show q * PGSIZE + PGSIZE = (q + 1) * PGSIZE by ring] at hrest
      have habs1 : ∀ x ∈ Set.Ico (v + 1) (v + 1 + n + 1), ¬present (pte m1 d x) := by
        intro x hx
        rw [Set.mem_Ico] at hx
        rw [hm.entries d x (hd _) (by omega), if_neg (by omega)]
        exact habs x (Set.mem_Ico.mpr (by omega))
      obtain ⟨hk, hent⟩ := ih (v + 1) (q + 1) m1 hI1 (by omega) (by omega) (by omega) habs1 hrest
      refine ⟨hk1.trans hk, fun hb x hx => ?_⟩
      by_cases hxv : x = v
      · -- the other turns leave the first page alone
        subst hxv
        obtain ⟨b', m2, he2, -, hset, -⟩ :=
          mapLoop_kernel hd hperm n (x + 1) (q + 1) m1 hI1 (by omega) (by omega) (by omega) habs1
        cases hrest.symm.trans he2
        rw [hset.entries d x (hd _) (by omega) (fun _ h => by rw [Set.mem_Ico] at h; omega),
          hm.entries d x (hd _) (by omega), if_pos ⟨rfl, rfl⟩, Nat.sub_self, Nat.add_zero]
      · rw [hent hb x (by rw [Set.mem_Ico] at hx ⊢; omega)]
        rw [Set.mem_Ico] at hx
        rw [show q + 1 + (x - (v + 1)) = q + (x - v) by omega]

theorem segment_entries (hd : ∀ i, .table d i ∈ A) {k : Kmap} (hk : k.Proper) (hI : Inv L A M m)
    (habs : ∀ x ∈ k.span, ¬present (pte m d x)) {b : Bool}
    (he : mappages m d k.virt k.size k.phys_start k.perm = .ok (b, m')) :
    Keeps A m m' ∧ (b = true → ∀ x ∈ k.span, pte m' d x = k.entry x) := by
  obtain ⟨n, hspan, hu, hvn, hqn, hloop⟩ := hk.loop
  rw [hspan] at habs ⊢
  rw [hloop] at he
  exact mapLoop_entries hd hk.perm_lt n _ _ m hI hu hvn hqn habs he

theorem Kmap.Proper.lt {k : Kmap} (hk : k.Proper) (hv : v ∈ k.span) : v < 2 ^ 20 := by
  have h1 := hk.virt_le
  have h2 := (Set.mem_Ico.mp hv).2
  simp only [PGSIZE] at *
  omega

theorem mapSegments_entries (hd : ∀ i, .table d i ∈ A) (ks : List Kmap) (m : PhysMem) (hI : Inv L A M m)
    (hks : ∀ k ∈ ks, k.Proper) (hdis : ks.Pairwise fun k k' => Disjoint k.span k'.span)
    (habs : ∀ k ∈ ks, ∀ x ∈ k.span, ¬present (pte m d x)) {b : Bool} (he : mapSegments d ks m = .ok (b, m')) :
    Keeps A m m' ∧ (b = true → ∀ k ∈ ks, ∀ x ∈ k.span, pte m' d x = k.entry x) := by
  induction ks generalizing m with
  | nil =>
    cases he
    exact ⟨Keeps.refl _ _, fun _ k hk => absurd hk List.not_mem_nil⟩
  | cons k ks ih =>
    have hk := hks k List.mem_cons_self
    have hkabs := habs k List.mem_cons_self
    obtain ⟨⟨b1, m1⟩, he1, hrest⟩ := Outcome.bind_eq_ok.mp he
    obtain ⟨hk1, hent1⟩ := segment_entries hd hk hI hkabs he1
    obtain ⟨b2, m2, he2, hI1, hset, -⟩ := segment_spec hd hk hI hkabs
    cases (he1 : mappages m d k.virt k.size k.phys_start k.perm = _).symm.trans he2
    rw [List.pairwise_cons] at hdis
    cases b1 with
    | false =>
      cases hrest
      exact ⟨hk1, fun h => absurd h (by decide)⟩
    | true =>
      simp only [if_true] at hrest
      have hks' : ∀ k' ∈ ks, k'.Proper := fun k' hk' => hks k' (List.mem_cons_of_mem k hk')
      have habs1 : ∀ k' ∈ ks, ∀ x ∈ k'.span, ¬present (pte m1 d x) := by
        intro k' hk' x hx
        rw [hset.entries d x (hd _) ((hks' k' hk').lt hx) fun _ h => Set.disjoint_left.mp (hdis.1 k' hk') h hx]
        exact habs k' (List.mem_cons_of_mem k hk') x hx
      obtain ⟨hkeep, hent⟩ := ih m1 hI1 hks' hdis.2 habs1 hrest
      refine ⟨hk1.trans hkeep, fun hb k' hk' x hx => ?_⟩
      rcases List.mem_cons.mp hk' with rfl | hmem
      · obtain ⟨b3, m3, he3, -, hset3, -⟩ := mapSegments_spec hd ks m1 hI1 hks' hdis.2 habs1
        cases hrest.symm.trans he3
        rw [hset3.entries d x (hd _) (hk.lt hx) fun _ ⟨k'', hk'', h⟩ => Set.disjoint_left.mp (hdis.1 k'' hk'') hx h]
        exact hent1 rfl x hx
      · exact hent hb k' hmem x hx

theorem setupkvm_contents (hI : Inv L A M m) {r : Option ℕ} (he : setupkvm L m = .ok (r, m')) :
    Keeps A m m' ∧ ∀ d, r = some d → KernelMapped L m' d := by
  cases hf : m.freelist with
  | nil =>
    simp only [setupkvm, kalloc, hf] at he
    cases he
    exact ⟨Keeps.refl A m, fun d hd => by cases hd⟩
  | cons d ps =>
    obtain ⟨hI1, hroot, -⟩ := hI.newRoot hf
    have hk1 := hI.take_keeps hf zero
    rw [setupkvm_eq hf] at he
    set m1 : PhysMem := ({ m with freelist := ps } : PhysMem).setPage d zero
    have htab : ∀ i, Role.table d i ∈ A ∪ rooted d := fun i => Or.inr rfl
    have habs : ∀ k ∈ kmap L, ∀ x ∈ k.span, ¬present (pte m1 d x) := by
      intro k _ x _
      rw [(zero_views (i := 0)).2]
      exact present_zero
    obtain ⟨⟨b, m2⟩, he2, hrest⟩ := Outcome.bind_eq_ok.mp he
    obtain ⟨hk2, hent⟩ := mapSegments_entries htab (kmap L) m1 hI1 (kmap_proper L) (kmap_disjoint L) habs he2
    obtain ⟨b', m2', he2', hI2, hset, -⟩ := mapSegments_spec htab (kmap L) m1 hI1 (kmap_proper L) (kmap_disjoint L) habs
    cases he2.symm.trans he2'
    have hk := hk1.trans (hk2.mono Set.subset_union_left)
    cases b with
    | false =>
      simp only [Bool.false_eq_true, if_false] at hrest
      obtain ⟨m3, he3, hok⟩ := Outcome.bind_eq_ok.mp hrest
      cases hok
      exact ⟨hk.trans (freevm_new_keeps hI2 hroot he3), fun d hd => by cases hd⟩
    | true =>
      cases hrest
      refine ⟨hk, ?_⟩
      rintro d' ⟨⟩
      refine ⟨hent rfl, fun v _ hv hno => ?_⟩
      have hout : v ∉ {x | ∃ k ∈ kmap L, x ∈ k.span} := by
        rintro ⟨k, hk, h⟩
        exact hno k hk h
      rw [hset.entries d v (htab _) hv fun _ => hout, (zero_views (i := 0)).2]

end

end Xv6.Vm
