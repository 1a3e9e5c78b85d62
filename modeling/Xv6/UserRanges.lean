import Xv6.MemoryRuns
import Xv6.PageConservation

namespace Xv6.Vm

open Xv6.ByteMemory Xv6.Ownership Transition

def Readable (m : PhysMem) (p : Proc) (lo n : ℕ) : Prop :=
  lo + n ≤ p.sz ∧ ∀ va, lo ≤ va → va < lo + n → present (pte m p.pgdir (va / PGSIZE))

structure Checked (m : PhysMem) (p : Proc) : Prop where
  fetchint : ∀ addr, ∃ r, fetchint m p addr = .ok r ∧ ∀ w, r = some w → Readable m p addr.toNat 4
  fetchstr : ∀ addr, ∃ r, fetchstr m p addr = .ok r ∧ ∀ len, r = some len → Readable m p addr.toNat (len + 1)
  argptr : ∀ esp n size, 0 ≤ size.toInt → ∃ r, argptr m { p with esp := esp } n size = .ok r ∧
    ∀ i, r = some i → Readable m p i.toNat size.toInt.toNat

section

variable {L : Layout} {m : PhysMem} {p : Proc}

theorem Mapped.present_page (h : Mapped m p) {va : ℕ} (hva : va < p.sz) : present (pte m p.pgdir (va / PGSIZE)) := by
  have hpg : va / PGSIZE < pages p.sz := by
    rw [lt_pages]
    simp only [PGSIZE]
    omega
  exact (h.iff _ (hpg.trans_le (pages_le_userPages h.lt.le))).mpr hpg

theorem Mapped.readable (h : Mapped m p) {lo n : ℕ} (hle : lo + n ≤ p.sz) : Readable m p lo n :=
  ⟨hle, fun _ _ hva => h.present_page (by omega)⟩

theorem Mapped.loadByte (h : Mapped m p) (va : ℕ) (hva : va < p.sz) : ∃ b, Vm.loadByte m p.pgdir va = .ok b := by
  have hp := h.present_page hva
  obtain ⟨hw, hpte⟩ := walkpgdir_entry (table_of_present hp)
  refine ⟨m.mem (frameOf (pte m p.pgdir (va / PGSIZE))) (va % PGSIZE), ?_⟩
  simp only [Vm.loadByte, translate, hw, hpte, hp, if_true]

theorem Mapped.loadInt (h : Mapped m p) (va : ℕ) (hva : va + 4 ≤ p.sz) : ∃ w, Vm.loadInt m p.pgdir va = .ok w := by
  obtain ⟨b0, h0⟩ := h.loadByte va (by omega)
  obtain ⟨b1, h1⟩ := h.loadByte (va + 1) (by omega)
  obtain ⟨b2, h2⟩ := h.loadByte (va + 2) (by omega)
  obtain ⟨b3, h3⟩ := h.loadByte (va + 3) (by omega)
  simp only [Vm.loadInt, h0, h1, h2, h3, Outcome.ok_bind]
  exact ⟨_, rfl⟩

theorem Mapped.fetchint (h : Mapped m p) (addr : UInt32) :
    ∃ r, Vm.fetchint m p addr = .ok r ∧ ∀ w, r = some w → Readable m p addr.toNat 4 := by
  simp only [Vm.fetchint]
  by_cases hc : p.sz ≤ addr.toNat ∨ p.sz < (addr + 4).toNat
  · rw [if_pos hc]
    exact ⟨none, rfl, by simp⟩
  · rw [if_neg hc]
    have hlt := h.lt
    have hadd : (addr + 4).toNat = (addr.toNat + 4) % 2 ^ 32 := UInt32.toNat_add addr 4
    simp only [KERNBASE] at hlt
    obtain ⟨w, hw⟩ := h.loadInt addr.toNat (by omega)
    rw [hw]
    exact ⟨some w, rfl, fun _ _ => h.readable (by omega)⟩

theorem Mapped.strLoop (h : Mapped m p) (n s len : ℕ) (hn : s + n ≤ p.sz) :
    ∃ r, Vm.strLoop m p.pgdir n s len = .ok r ∧ ∀ k, r = some k → len ≤ k ∧ k < len + n := by
  induction n generalizing s len with
  | zero => exact ⟨none, rfl, by simp⟩
  | succ n ih =>
    obtain ⟨b, hb⟩ := h.loadByte s (by omega)
    simp only [Vm.strLoop, hb, Outcome.ok_bind]
    split_ifs
    · refine ⟨some len, rfl, ?_⟩
      intro k hk
      cases hk
      omega
    · obtain ⟨r, hr, hk⟩ := ih (s + 1) (len + 1) (by omega)
      refine ⟨r, hr, ?_⟩
      intro k hrk
      have := hk k hrk
      omega

theorem Mapped.fetchstr (h : Mapped m p) (addr : UInt32) :
    ∃ r, Vm.fetchstr m p addr = .ok r ∧ ∀ len, r = some len → Readable m p addr.toNat (len + 1) := by
  simp only [Vm.fetchstr]
  by_cases hc : p.sz ≤ addr.toNat
  · rw [if_pos hc]
    exact ⟨none, rfl, by simp⟩
  · rw [if_neg hc]
    obtain ⟨r, hr, hk⟩ := h.strLoop (p.sz - addr.toNat) addr.toNat 0 (by omega)
    refine ⟨r, hr, fun len hlen => h.readable ?_⟩
    have := hk len hlen
    omega

theorem Mapped.argptr (h : Mapped m p) (esp : ℕ) (n : UInt32) {size : Int32} (hsize : 0 ≤ size.toInt) :
    ∃ r, Vm.argptr m { p with esp := esp } n size = .ok r ∧
      ∀ i, r = some i → Readable m p i.toNat size.toInt.toNat := by
  have h' : Mapped m { p with esp := esp } := ⟨h.pos, h.lt, h.iff⟩
  obtain ⟨r, hr, -⟩ := h'.fetchint (UInt32.ofNat esp + 4 + 4 * n)
  have harg : argint m { p with esp := esp } n = .ok r := hr
  simp only [Vm.argptr, harg, Outcome.ok_bind]
  cases r with
  | none => exact ⟨none, rfl, by simp⟩
  | some w =>
    simp only
    split_ifs with hc
    · exact ⟨none, rfl, by simp⟩
    · refine ⟨some (UInt32.ofNat w), rfl, ?_⟩
      intro i hi
      obtain rfl := Option.some.inj hi
      apply h.readable
      have hlt := h.lt
      have hs := size.toInt_lt
      have hu : size.toUInt32.toNat = size.toInt.toNat :=
        Int32.toNat_toUInt32_of_le (Int32.le_iff_toInt_le.mpr (by simpa using hsize))
      have hadd := UInt32.toNat_add (UInt32.ofNat w) size.toUInt32
      simp only [KERNBASE] at hlt
      rw [hu] at hadd
      omega

theorem Mapped.checked (h : Mapped m p) : Checked m p :=
  ⟨h.fetchint, h.fetchstr, fun esp n _ hs => h.argptr esp n hs⟩

theorem userinit_good (hnodup : m.freelist.Nodup) (hman : ∀ q ∈ m.freelist, Managed L q)
    (hmem : 68 ≤ m.freelist.length) (initcode : List UInt8) (hcode : initcode.length < PGSIZE) :
    ∃ s M, userinit L m initcode = .ok s ∧ Good L M s ∧ ∃ p, s.proc ⟨0, NPROC_pos⟩ = some p ∧ p.sz = PGSIZE := by
  have hI := inv_empty hnodup hman
  set M : Set ℕ := {q | q ∈ m.freelist} with hM
  obtain ⟨k, ps, hf⟩ : ∃ k ps, m.freelist = k :: ps := List.exists_cons_of_length_pos (by omega)
  rw [hf] at hmem
  obtain ⟨hkM, hI1⟩ := hI.kalloc hf
  rcases setupkvm_spec hI1 with ⟨-, -, -, -, hlt⟩ | ⟨d, m1, he1, hroot, hI2, -, htab, -, hlen⟩
  · simp only [List.length_cons] at hmem hlt
    omega
  have hlen' : ps.length = m1.freelist.length + 65 := hlen
  rw [List.length_cons] at hmem
  have hd : Spans (∅ ∪ rooted d) d := mem_rooted
  have hnone : ∀ v, v < userPages → ¬present (pte m1 d v) := by
    intro v hv hp
    have hk := (htab _ (div_lt_entries (lt_of_lt_userPages hv))).mp (table_of_present hp)
    simp only [kernelTables, Finset.mem_union, Finset.mem_Ico] at hk
    rw [userPages_eq] at hv
    omega
  have htwo : 2 ≤ m1.freelist.length := by omega
  obtain ⟨q, qs, hf1⟩ : ∃ q qs, m1.freelist = q :: qs := List.exists_cons_of_length_pos (by omega)
  rw [hf1] at htwo
  obtain ⟨hqM, hmq, hI3, hs3⟩ := hI2.take hf1 zero
  have habs : ¬present (pte (({ m1 with freelist := qs } : PhysMem).setPage q zero) d 0) := by
    rw [hs3.entries d 0 (hd _ rfl) (by decide)]
    exact hnone 0 (by decide)
  rcases mapPage_user hI3 (hd (.frame d 0) rfl) (by decide) habs (by simp) hmq (PTE_W ||| PTE_U)
    (by decide) with ⟨hnil, -⟩ | ⟨m3, he3, hI4, hm3⟩
  · have : qs = [] := hnil
    subst this
    simp only [List.length_cons, List.length_nil] at htwo
    omega
  rw [insert_sdiff_mem hqM] at hI4
  have hent : ∀ v, v < userPages → (present (pte m3 d v) ↔ v < pages PGSIZE) := by
    intro v hv
    have hone : pages PGSIZE = 1 := by decide
    rw [hm3.entries d v (hd _ rfl) (lt_of_lt_userPages hv), hs3.entries d v (hd _ rfl) (lt_of_lt_userPages hv), hone]
    split_ifs with h0
    · exact iff_of_true (UserEntry.present ⟨q, rfl⟩) (by omega)
    · exact iff_of_false (hnone v hv) (by omega)
  have hq : frameOf (pte m3 d 0) = q := by
    rw [hm3.entries d 0 (hd _ rfl) (by decide), if_pos ⟨rfl, rfl⟩, frameOf_add q (by decide)]
  have hs4 := hI4.same_setFrame (hd (.frame d 0) rfl) (by decide) ((hent 0 (by decide)).mpr (by decide))
    (store (m3.mem q) 0 initcode)
  rw [hq] at hs4
  have hI5 := hI4.same hs4 rfl
  refine ⟨⟨m3.setPage q (store (m3.mem q) 0 initcode),
    Function.update (fun _ => none) ⟨0, NPROC_pos⟩ (some ⟨d, PGSIZE, k, 0, PGSIZE⟩), []⟩, M \ {k}, ?_, ?_,
    ⟨d, PGSIZE, k, 0, PGSIZE⟩, by simp only [Function.update_self], rfl⟩
  · have hmap := (mappages_one (v := 0) (by decide) _ _).trans he3
    rw [Nat.zero_mul] at hmap
    simp only [userinit, kalloc, hf, he1, Outcome.ok_bind, inituvm, hf1, hmap]
    rw [if_neg (Nat.not_le.mpr hcode)]
    rfl
  · have hcases : ∀ j p, Function.update (fun _ => none) (⟨0, NPROC_pos⟩ : Fin NPROC)
        (some (⟨d, PGSIZE, k, 0, PGSIZE⟩ : Proc)) j = some p → j = ⟨0, NPROC_pos⟩ ∧ p = ⟨d, PGSIZE, k, 0, PGSIZE⟩ := by
      intro j p hj
      exact (update_cases hj).resolve_right fun h => by cases h.2
    have hspaces : spaces ⟨m3.setPage q (store (m3.mem q) 0 initcode), Function.update (fun _ => none) ⟨0, NPROC_pos⟩
        (some ⟨d, PGSIZE, k, 0, PGSIZE⟩), []⟩ = ∅ ∪ rooted d := by
      rw [Set.empty_union]
      ext r
      constructor
      · rintro ⟨j, p, hj, hr⟩
        obtain ⟨-, rfl⟩ := hcases j p hj
        exact hr
      · intro hr
        exact ⟨⟨0, NPROC_pos⟩, ⟨d, PGSIZE, k, 0, PGSIZE⟩, by simp only [Function.update_self], hr⟩
    refine ⟨by rw [hspaces]; exact hI5, ?_, ?_, ?_, ?_, outside_nil L _⟩
    · exact fun i j p p' hi hj _ => (hcases i p hi).1.trans (hcases j p' hj).1.symm
    · intro i p hi
      obtain ⟨-, rfl⟩ := hcases i p hi
      refine ⟨(by decide : 0 < PGSIZE), (by decide : PGSIZE < KERNBASE), fun v hv => ?_⟩
      rw [hs4.entries d v (hd _ rfl) (lt_of_lt_userPages hv)]
      exact hent v hv
    · exact fun i j p p' hi hj _ => (hcases i p hi).1.trans (hcases j p' hj).1.symm
    · intro i p hi
      obtain ⟨-, rfl⟩ := hcases i p hi
      exact ⟨fun h => h.2 rfl, hI.managed k hkM, by simp⟩

theorem run_good {s t : Sys} {es : List MemCall} (hrun : Run (Steps (memStep L)) s es t)
    (hsound : Along (Steps (memStep L)) (Sound L) s es) (hs : ∃ M, Good L M s) : ∃ M, Good L M t := by
  refine hrun.invariant (I := fun s => ∃ M, Good L M s) ?_ hsound hs
  rintro s e t ⟨M, hg⟩ hse hst
  obtain ⟨u, M', hu, hgu⟩ := memStep_good hg hse hst
  cases hu
  exact ⟨M', hgu⟩

end

theorem user_ranges_mapped (L : Layout) (m : PhysMem) (initcode : List UInt8) (s0 s : Sys) (es : List MemCall)
    (hnodup : m.freelist.Nodup) (hman : ∀ q ∈ m.freelist, Managed L q) (hmem : 68 ≤ m.freelist.length)
    (hcode : initcode.length < PGSIZE) (hinit : userinit L m initcode = .ok s0)
    (hrun : Run (Steps (memStep L)) s0 es s) (hsound : Along (Steps (memStep L)) (Sound L) s0 es) (i : Fin NPROC)
    (p : Proc) (hp : s.proc i = some p) :
    p.sz < KERNBASE ∧ (∀ v, v * PGSIZE < PGROUNDUP p.sz → present (pte s.phys p.pgdir v)) ∧ Checked s.phys p ∧
      ∀ e ∈ copyPanics, fork L s p ≠ .error e := by
  obtain ⟨s1, M1, hs1, hg1, -⟩ := userinit_good hnodup hman hmem _ hcode
  rw [hinit, Except.ok.injEq] at hs1
  subst hs1
  obtain ⟨M, hg⟩ := run_good hrun hsound ⟨M1, hg1⟩
  have hm := hg.mapped i p hp
  refine ⟨hm.lt, ?_, hm.checked, ?_⟩
  · intro v hv
    have hvp : v < pages p.sz := by
      rw [PGROUNDUP_eq] at hv
      exact Nat.lt_of_mul_lt_mul_right hv
    exact (hm.iff v (hvp.trans_le (pages_le_userPages hm.lt.le))).mpr hvp
  · intro e _ he
    obtain ⟨t, M', ht, -⟩ := hg.fork hp
    rw [he] at ht
    cases ht

def initSlot : Fin NPROC := ⟨0, NPROC_pos⟩

theorem user_ranges_mapped_sbrk :
    ∃ s0 s p, userinit sampleLayout (freePages 100) [] = .ok s0 ∧
      Run (Steps (memStep sampleLayout)) s0 [.sbrk initSlot 5000] s ∧ s.proc initSlot = some p ∧ p.sz < KERNBASE ∧
      Checked s.phys p := by
  have hman := freePages_managed (n := 100) (by decide)
  obtain ⟨s0, M, hs0, hg, p, hp, hsz⟩ := userinit_good (L := sampleLayout) (m := freePages 100)
    List.nodup_range' hman (by decide) [] (by decide)
  have hsound : Sound sampleLayout s0 (.sbrk initSlot 5000) := by
    intro p' hp'
    have hn : (5000 : Int32).toInt = 5000 := by decide
    omega
  obtain ⟨s, M', hs, hg'⟩ := memStep_good (L := sampleLayout) hg hsound
      (x := (growproc sampleLayout s0.phys p 5000).map (s0.put initSlot))
    (by simp only [memStep, show s0.proc initSlot = some p from hp, Option.map_some])
  have hstep : Steps (memStep sampleLayout) s0 (.sbrk initSlot 5000) s := by
    rw [Steps, ← hs]
    simp only [memStep, show s0.proc initSlot = some p from hp, Option.map_some]
  have hrun : Run (Steps (memStep sampleLayout)) s0 [.sbrk initSlot 5000] s := .cons hstep (.nil s)
  obtain ⟨q, hq⟩ : ∃ q, s.proc initSlot = some q := by
    cases hr : growproc sampleLayout s0.phys p 5000 with
    | error e => rw [hr] at hs; cases hs
    | ok r =>
      rw [hr] at hs
      cases hs
      rw [put_eq (i := initSlot) hp]
      exact ⟨r.1.getD p, by simp only [Function.update_self]⟩
  have hall := user_ranges_mapped sampleLayout (freePages 100) [] s0 s _ List.nodup_range' hman (by decide) (by decide)
    hs0 hrun ⟨hsound, fun _ _ => trivial⟩ initSlot q hq
  exact ⟨s0, s, q, hs0, hrun, hq, hall.1, hall.2.2.1⟩

/-- The first process gives back its whole size: the call fails, after its page has been freed. -/
theorem sbrk_to_zero_unmaps :
    ∃ s0 s p, userinit sampleLayout (freePages 100) [] = .ok s0 ∧
      Run (Steps (memStep sampleLayout)) s0 [.sbrk initSlot (-4096)] s ∧ s.proc initSlot = some p ∧
      ¬∀ v, v * PGSIZE < PGROUNDUP p.sz → present (pte s.phys p.pgdir v) := by
  have hman := freePages_managed (n := 100) (by decide)
  obtain ⟨s0, M, hs0, hg, p, hp, hsz⟩ := userinit_good (L := sampleLayout) (m := freePages 100)
    List.nodup_range' hman (by decide) [] (by decide)
  have hroot := root_mem_spaces hp
  obtain ⟨m', he, -, hc⟩ := deallocuvm_spec (fun v => hroot (.frame p.pgdir v) rfl) (hg.mapped _ p hp).lt.le
    (hg.mapped _ p hp).pos hg.inv
  have hn : (-4096 : Int32).toInt = -4096 := by decide
  have hgrow : growproc sampleLayout s0.phys p (-4096) = .ok (none, m') := by
    have hz : (((p.sz : ℤ) + -4096) % 2 ^ 32).toNat = 0 := by
      rw [hsz]
      rfl
    simp only [growproc, hn, hz]
    rw [if_neg (by decide), if_pos (by decide), he]
    rfl
  refine ⟨s0, { s0 with phys := m' }, p, hs0, .cons ?_ (.nil _), hp, ?_⟩
  · simp only [Steps, memStep, show s0.proc initSlot = some p from hp, Option.map_some, hgrow]
    rfl
  · intro hall
    have hpres := hall 0 (by rw [hsz]; decide)
    dsimp only at hpres
    rw [hc.entries p.pgdir 0 (hroot _ rfl) (by decide)] at hpres
    split_ifs at hpres with hcond
    · exact present_zero hpres
    · exact hcond ⟨rfl, by decide, by rw [hsz]; decide, hpres⟩

end Xv6.Vm
