import Xv6.UserSize

/-!
The copy of an address space that `fork` makes, and stores through the two directories afterwards.
-/

namespace Xv6.Vm

open ByteMemory Ownership

structure Store where
  pgdir : ℕ
  va : ℕ
  byte : UInt8

structure SpaceKept (m m' : PhysMem) (s : ℕ) : Prop where
  tables : ∀ i, i < NPDENTRIES → pde m' s i = pde m s i
  entries : ∀ v, v < 2 ^ 20 → pte m' s v = pte m s v
  bytes : ∀ v, v < userPages → present (pte m s v) → m'.mem (frameOf (pte m s v)) = m.mem (frameOf (pte m s v))

section

variable {L : Layout} {A : Set Role} {M : Set ℕ} {m0 m m' : PhysMem} {s d v n sz : ℕ}

structure CopiedBytes (L : Layout) (A : Set Role) (s d v : ℕ) (m0 m : PhysMem) : Prop where
  keeps : Keeps A m0 m
  kernel : KernelMapped L m d
  bytes : ∀ x, x < v → ∃ q, held m (.frame d x) = some q ∧ m.mem q = m0.mem (frameOf (pte m0 s x))

theorem CopiedBytes.step {p : ℕ} {ps : List ℕ} {b : Bool} (hb : CopiedBytes L A s d v m0 m)
    (h : Copying L A M s d n v m0 m) (hs : Spans A s) (hv : v < userPages)
    (hpr : present (pte m s v)) (hf : m.freelist = p :: ps)
    (he : mapPage (({ m with freelist := ps } : PhysMem).setPage p (m.mem (frameOf (pte m s v)))) d (v * PGSIZE)
      (p * PGSIZE) (PTE_FLAGS (pte m s v)) = .ok (b, m')) :
    Keeps A m0 m' ∧ (b = true → CopiedBytes L A s d (v + 1) m0 m') := by
  have hv20 := lt_of_lt_userPages hv
  obtain ⟨hpM, hmp, hI1, hs1⟩ := h.inv.take hf (m.mem (frameOf (pte m s v)))
  have hk1 := h.inv.take_keeps hf (m.mem (frameOf (pte m s v)))
  have hpn : p ∉ M \ {p} := by simp
  have hflags : PTE_FLAGS (pte m s v) < PGSIZE := Nat.mod_lt _ (by decide)
  have habs : ¬present (pte (({ m with freelist := ps } : PhysMem).setPage p (m.mem (frameOf (pte m s v)))) d v) := by
    rw [hs1.entries d v (mem_rooted _ rfl) hv20]
    exact h.rest v le_rfl hv
  have hword : p * PGSIZE ||| PTE_FLAGS (pte m s v) ||| PTE_P < 2 ^ 32 := by
    have hlt := hmp.lt
    have hor := perm_lt hflags
    rw [pte_word p hflags]
    simp only [PGSIZE] at *
    omega
  have hk := hk1.trans (mapPage_keeps hI1 (mem_rooted _ rfl) hv20 habs hword he)
  have hkeep := hb.keeps.trans (hk.mono Set.subset_union_left)
  refine ⟨hkeep, fun htrue => ?_⟩
  subst htrue
  rcases mapPage_user hI1 (mem_rooted (.frame d v) rfl) hv habs hpn hmp _ hflags with ⟨-, -, he'⟩ | ⟨m2, he', -, hm⟩
  · cases he.symm.trans he'
  · cases he.symm.trans he'
    refine ⟨hkeep, hb.kernel.congr fun x hx hx' => ?_, fun x hx => ?_⟩
    · rw [hm.entries d x (mem_rooted _ rfl) hx', if_neg (by omega), hs1.entries d x (mem_rooted _ rfl) hx']
    rcases Nat.lt_succ_iff_lt_or_eq.mp hx with hlt | rfl
    · obtain ⟨q, hq, hbytes⟩ := hb.bytes x hlt
      exact ⟨q, hk.holds _ q (mem_rooted _ rfl) hq, (hk.bytes d x q (mem_rooted _ rfl) hq).trans hbytes⟩
    · have hent : pte m' d x = p * PGSIZE + (PTE_FLAGS (pte m s x) ||| PTE_P) := by
        rw [hm.entries d x (mem_rooted _ rfl) hv20, if_pos ⟨rfl, rfl⟩]
      have hpres : present (pte m' d x) := by
        rw [hent, ← pte_word p hflags]
        exact or_present _
      have hsrc : held m0 (.frame s x) = some (frameOf (pte m0 s x)) := by
        rw [h.same.entries s x (hs _ rfl) hv20] at hpr
        exact if_pos ⟨hv, hpr⟩
      refine ⟨p, ?_, ?_⟩
      · rw [held, if_pos ⟨hv, hpres⟩, hent, frameOf_add p (perm_lt hflags)]
      · rw [mapPage_mem hI1 (mem_rooted _ rfl) hv20 habs he hpn, setPage_mem_self, h.same.entries s x (hs _ rfl) hv20,
          hb.keeps.bytes s x _ (hs _ rfl) hsrc]

theorem spaceKept (hs : Spans A s) (hsame : Same A m m') (hk : Keeps A m m') : SpaceKept m m' s :=
  ⟨fun i hi => hsame.dirs s i (hs _ rfl) hi, fun v hv => hsame.entries s v (hs _ rfl) hv,
    fun v hv hp => hk.bytes s v _ (hs _ rfl) (if_pos ⟨hv, hp⟩)⟩

end

end Xv6.Vm
