import Xv6.Transition
import Xv6.UserMap

namespace Xv6.Vm

open Xv6.ByteMemory Xv6.Ownership Transition

structure Spaces where
  phys : PhysMem
  live : List ℕ
  others : List ℕ

abbrev UserSize := { sz : ℕ // sz ≤ KERNBASE }

inductive Call where
  | setupkvm
  | allocuvm (d oldsz newsz : ℕ)
  | deallocuvm (d : ℕ) (oldsz : UserSize) (newsz : ℕ)
  | copyuvm (d : ℕ) (sz : UserSize)
  | freevm (d : ℕ)
  -- the rest of the kernel: stacks and pipes
  | kalloc
  | kfree (p : ℕ)

def call (L : Layout) (s : Spaces) : Call → Outcome Spaces
  | .setupkvm => do
    let (d, m) ← setupkvm L s.phys
    .ok { s with phys := m, live := d.toList ++ s.live }
  | .allocuvm d oldsz newsz => do
    let (_, m) ← allocuvm L s.phys d oldsz newsz
    .ok { s with phys := m }
  | .deallocuvm d oldsz newsz => do
    let (_, m) ← deallocuvm L s.phys d oldsz.1 newsz
    .ok { s with phys := m }
  | .copyuvm d sz => do
    let (d', m) ← copyuvm L s.phys d sz.1
    .ok { s with phys := m, live := d'.toList ++ s.live }
  | .freevm d => do
    let m ← freevm L s.phys (some d)
    .ok { s with phys := m, live := s.live.filter (· ≠ d) }
  | .kalloc =>
    match kalloc s.phys with
    | (none, _) => .ok s
    | (some p, m) => .ok { s with phys := m, others := p :: s.others }
  | .kfree p => do
    let m ← kfree L s.phys p
    .ok { s with phys := m, others := s.others.erase p }

def Call.arg : Call → Option ℕ
  | .setupkvm | .kalloc | .kfree _ => none
  | .allocuvm d _ _ => some d
  | .deallocuvm d _ _ => some d
  | .copyuvm d _ => some d
  | .freevm d => some d

def Call.page : Call → Option ℕ
  | .kfree p => some p
  | _ => none

def step (L : Layout) (s : Spaces) (c : Call) : Option (Outcome Spaces) :=
  if (∀ d ∈ c.arg, d ∈ s.live) ∧ ∀ p ∈ c.page, p ∈ s.others then some (call L s c) else none

def holder (s : Spaces) (r : Role) : Option ℕ := if r.root ∈ s.live then held s.phys r else none

inductive Place where
  | free
  | space (r : Role)
  | kernel

def Owns (s : Spaces) (p : ℕ) : Place → Prop
  | .free => p ∈ s.phys.freelist
  | .space r => holder s r = some p
  | .kernel => p ∈ s.others

structure Exclusive (managed : List ℕ) (s : Spaces) : Prop where
  nodup : s.phys.freelist.Nodup
  others : s.others.Nodup
  within : ∀ p o, Owns s p o → p ∈ managed
  once : ∀ p o o', Owns s p o → Owns s p o' → o = o'

def Conserved (managed : List ℕ) (s : Spaces) : Prop :=
  s.phys.freelist.Nodup ∧ s.others.Nodup ∧ (∀ p o, Owns s p o → p ∈ managed) ∧ ∀ p ∈ managed, ∃! o, Owns s p o

def Roomy (s : Spaces) : Call → Prop
  | .copyuvm _ sz => ¬Starved s.phys.freelist.length sz.1
  | _ => True

def active (live : List ℕ) : Set Role := {r | r.root ∈ live}

structure Outside (L : Layout) (M : Set ℕ) (others : List ℕ) : Prop where
  nodup : others.Nodup
  apart : ∀ p ∈ others, p ∉ M
  managed : ∀ p ∈ others, Managed L p

def total (M : Set ℕ) (s : Spaces) : Set ℕ := M ∪ {p | p ∈ s.others}

section

variable {L : Layout} {M : Set ℕ} {s t : Spaces}

theorem active_cons (d : ℕ) (live : List ℕ) : active live ∪ rooted d = active (d :: live) := by
  ext r
  simp only [active, rooted, Set.mem_union, Set.mem_ofPred_eq, List.mem_cons]
  exact or_comm

theorem without_active (d : ℕ) (live : List ℕ) : without (active live) d = active (live.filter (· ≠ d)) := by
  ext r
  simp only [active, without, Set.mem_ofPred_eq, List.mem_filter, decide_eq_true_eq]

theorem holder_eq (s : Spaces) : holder s = owned (active s.live) s.phys := by
  funext r
  simp only [holder, owned]
  by_cases hr : r.root ∈ s.live
  · have hA : r ∈ active s.live := hr
    rw [if_pos hr, if_pos hA]
  · have hA : r ∉ active s.live := hr
    rw [if_neg hr, if_neg hA]

theorem space_inv {c : Call} (hc : c ≠ .kalloc ∧ c.page = none) (hI : Inv L (active s.live) M s.phys)
    (h : Steps (step L) s c t) :
    ∃ M', M' ⊆ M ∧ Inv L (active t.live) M' t.phys ∧ t.others = s.others ∧ (M' = M ↔ Roomy s c) := by
  simp only [Steps, step] at h
  split_ifs at h with harg
  have hd : ∀ d ∈ c.arg, Spans (active s.live) d := by
    rintro d hd r rfl
    exact harg.1 _ hd
  rw [Option.some.injEq] at h
  have hkeep (hr : Roomy s c) (hI' : Inv L (active t.live) M t.phys ∧ t.others = s.others) :
      ∃ M', M' ⊆ M ∧ Inv L (active t.live) M' t.phys ∧ t.others = s.others ∧ (M' = M ↔ Roomy s c) :=
    ⟨M, subset_rfl, hI'.1, hI'.2, iff_of_true rfl hr⟩
  cases c with
  | setupkvm =>
    apply hkeep trivial
    rcases setupkvm_spec hI with ⟨m', he, hI', -⟩ | ⟨d, m', he, -, hI', -⟩
    · simp only [call, he, Outcome.ok_bind, Except.ok.injEq] at h
      subst h
      exact ⟨hI', rfl⟩
    · simp only [call, he, Outcome.ok_bind, Except.ok.injEq] at h
      subst h
      rw [active_cons] at hI'
      exact ⟨hI', rfl⟩
  | allocuvm d oldsz newsz =>
    apply hkeep trivial
    rcases allocuvm_spec (hd d rfl) oldsz newsz hI with
      ⟨-, -, -, -, -, he⟩ | ⟨-, -, he⟩ | ⟨-, -, m', he, hI', -⟩ | ⟨-, he⟩ | ⟨-, m', he, hI', -⟩ <;>
      simp only [call, he, Outcome.ok_bind, Outcome.error_bind, Except.ok.injEq, reduceCtorEq] at h <;> subst h <;>
      exact ⟨by assumption, rfl⟩
  | deallocuvm d oldsz newsz =>
    apply hkeep trivial
    by_cases hlt : newsz < oldsz.1
    · obtain ⟨m', he, hI', -⟩ := deallocuvm_spec (fun v => hd d rfl (.frame d v) rfl) oldsz.2 hlt hI
      simp only [call, he, Outcome.ok_bind, Except.ok.injEq] at h
      subst h
      exact ⟨hI', rfl⟩
    · have he : deallocuvm L s.phys d oldsz.1 newsz = .ok (oldsz.1, s.phys) := if_pos (by omega)
      simp only [call, he, Outcome.ok_bind, Except.ok.injEq] at h
      subst h
      exact ⟨hI, rfl⟩
  | copyuvm d sz =>
    rcases copyuvm_spec (hd d rfl) sz.2 hI with
      ⟨e, -, he, -⟩ | ⟨d', m', he, -, hI', -, -, -, hn⟩ | ⟨m', he, hI', -, hn⟩ | ⟨m', p, he, hp, hI', -, hn⟩
    · simp only [call, he, Outcome.error_bind, reduceCtorEq] at h
    · simp only [call, he, Outcome.ok_bind, Except.ok.injEq] at h
      subst h
      rw [active_cons] at hI'
      exact hkeep hn ⟨hI', rfl⟩
    · simp only [call, he, Outcome.ok_bind, Except.ok.injEq] at h
      subst h
      exact hkeep hn ⟨hI', rfl⟩
    · simp only [call, he, Outcome.ok_bind, Except.ok.injEq] at h
      subst h
      refine ⟨M \ {p}, Set.sdiff_subset, hI', rfl, iff_of_false ?_ (fun hr => hr hn)⟩
      intro heq
      rw [← heq] at hp
      exact hp.2 rfl
  | freevm d =>
    apply hkeep trivial
    obtain ⟨m', he, hI', -⟩ := freevm_spec (hd d rfl) hI
    simp only [call, he, Outcome.ok_bind, Except.ok.injEq] at h
    subst h
    rw [without_active] at hI'
    exact ⟨hI', rfl⟩
  | kalloc => exact absurd rfl hc.1
  | kfree p => cases hc.2

variable {others : List ℕ} {p : ℕ}

theorem Outside.mono {M' : Set ℕ} (ho : Outside L M others) (hsub : M' ⊆ M) : Outside L M' others :=
  ⟨ho.nodup, fun p hp hM => ho.apart p hp (hsub hM), ho.managed⟩

theorem Outside.take (ho : Outside L M others) (hp : p ∈ M) (hm : Managed L p) : Outside L (M \ {p}) (p :: others) := by
  refine ⟨List.nodup_cons.mpr ⟨fun h => ho.apart p h hp, ho.nodup⟩, ?_, List.forall_mem_cons.mpr ⟨hm, ho.managed⟩⟩
  exact List.forall_mem_cons.mpr ⟨fun h => h.2 rfl, fun q hq h => ho.apart q hq h.1⟩

theorem Outside.give (ho : Outside L M others) : Outside L (insert p M) (others.erase p) := by
  have hmem (q : ℕ) (hq : q ∈ others.erase p) : q ≠ p ∧ q ∈ others := ho.nodup.mem_erase_iff.mp hq
  refine ⟨ho.nodup.erase p, ?_, fun q hq => ho.managed q (hmem q hq).2⟩
  rintro q hq (rfl | hqM)
  · exact (hmem q hq).1 rfl
  · exact ho.apart q (hmem q hq).2 hqM

theorem total_eq_iff {M' : Set ℕ} (ho : Outside L M s.others) (hsub : M' ⊆ M) (he : t.others = s.others) :
    total M' t = total M s ↔ M' = M := by
  rw [total, total, he]
  refine ⟨fun hu => hsub.antisymm fun p hp => ?_, fun hM => by rw [hM]⟩
  have hp' : p ∈ M ∪ {p | p ∈ s.others} := Or.inl hp
  rw [← hu] at hp'
  exact hp'.resolve_right fun hs => ho.apart p hs hp

theorem total_kalloc (hp : p ∈ M) (m : PhysMem) : total (M \ {p}) ⟨m, s.live, p :: s.others⟩ = total M s := by
  ext q
  by_cases hq : q = p <;> simp [total, hq, hp]

theorem total_kfree (ho : Outside L M s.others) (hp : p ∈ s.others) (m : PhysMem) :
    total (insert p M) ⟨m, s.live, s.others.erase p⟩ = total M s := by
  ext q
  by_cases hq : q = p <;> simp [total, hq, hp, ho.nodup.mem_erase_iff]

theorem step_inv {c : Call} (hI : Inv L (active s.live) M s.phys) (ho : Outside L M s.others)
    (h : Steps (step L) s c t) :
    ∃ M', Inv L (active t.live) M' t.phys ∧ Outside L M' t.others ∧ total M' t ⊆ total M s ∧
      (total M' t = total M s ↔ Roomy s c) := by
  have hspace (hc : c ≠ .kalloc ∧ c.page = none) : ∃ M', Inv L (active t.live) M' t.phys ∧ Outside L M' t.others ∧
      total M' t ⊆ total M s ∧ (total M' t = total M s ↔ Roomy s c) := by
    obtain ⟨M', hsub, hI', he, hiff⟩ := space_inv hc hI h
    refine ⟨M', hI', he ▸ ho.mono hsub, ?_, (total_eq_iff ho hsub he).trans hiff⟩
    rw [total, total, he]
    exact Set.union_subset_union_left _ hsub
  cases c with
  | kalloc =>
    simp only [Steps, step] at h
    split_ifs at h with harg
    cases hf : s.phys.freelist with
    | nil =>
      simp only [call, kalloc, hf, Option.some.injEq, Except.ok.injEq] at h
      subst h
      exact ⟨M, hI, ho, subset_rfl, iff_of_true rfl trivial⟩
    | cons p ps =>
      simp only [call, kalloc, hf, Option.some.injEq, Except.ok.injEq] at h
      subst h
      obtain ⟨hp, hI'⟩ := hI.kalloc hf
      have he := total_kalloc (s := s) hp { s.phys with freelist := ps }
      exact ⟨M \ {p}, hI', ho.take hp (hI.managed p hp), he.subset, iff_of_true he trivial⟩
  | kfree p =>
    simp only [Steps, step] at h
    split_ifs at h with harg
    have hp : p ∈ s.others := harg.2 p rfl
    obtain ⟨m', hk, -, -, -, hI'⟩ := hI.kfree (ho.apart p hp) (ho.managed p hp)
    simp only [call, hk, Outcome.ok_bind, Option.some.injEq, Except.ok.injEq] at h
    subst h
    have he := total_kfree ho hp m'
    exact ⟨insert p M, hI', ho.give, he.subset, iff_of_true he trivial⟩
  | setupkvm | allocuvm | deallocuvm | copyuvm | freevm => exact hspace ⟨Call.noConfusion, rfl⟩

theorem run_inv {cs : List Call} (h : Run (Steps (step L)) s cs t) (hI : Inv L (active s.live) M s.phys)
    (ho : Outside L M s.others) :
    ∃ M', Inv L (active t.live) M' t.phys ∧ Outside L M' t.others ∧ total M' t ⊆ total M s ∧
      (total M' t = total M s ↔ Along (Steps (step L)) Roomy s cs) := by
  induction h generalizing M with
  | nil s => exact ⟨M, hI, ho, subset_rfl, iff_of_true rfl trivial⟩
  | @cons s u t c cs h _ ih =>
    obtain ⟨M1, hI1, ho1, hsub1, hiff1⟩ := step_inv hI ho h
    obtain ⟨M2, hI2, ho2, hsub2, hiff2⟩ := ih hI1 ho1
    refine ⟨M2, hI2, ho2, hsub2.trans hsub1, ?_⟩
    rw [along_cons_ok h, ← hiff1, ← hiff2]
    constructor
    · intro he
      have : total M1 u = total M2 t := Set.Subset.antisymm (he ▸ hsub1) hsub2
      exact ⟨this.trans he, this.symm⟩
    · rintro ⟨h1, h2⟩
      exact h2.trans h1

theorem inv_start {m : PhysMem} (hnodup : m.freelist.Nodup) (hman : ∀ p ∈ m.freelist, Managed L p) :
    Inv L (active []) {p | p ∈ m.freelist} m := by
  have he : active [] = ∅ := Set.eq_empty_iff_forall_notMem.mpr fun r hr => by simp [active] at hr
  rw [he]
  exact inv_empty hnodup hman

theorem outside_nil (L : Layout) (M : Set ℕ) : Outside L M [] := ⟨List.nodup_nil, by simp, by simp⟩

theorem total_start (m : PhysMem) : total {p | p ∈ m.freelist} ⟨m, [], []⟩ = {p | p ∈ m.freelist} := by
  simp [total]

theorem mem_total_iff (hI : Inv L (active s.live) M s.phys) (p : ℕ) : p ∈ total M s ↔ ∃ o, Owns s p o := by
  have hall := hI.ledger.all p
  rw [← holder_eq] at hall
  constructor
  · rintro (hp | hp)
    · rcases hall.mp hp with hf | ⟨r, hr⟩
      · exact ⟨.free, hf⟩
      · exact ⟨.space r, hr⟩
    · exact ⟨.kernel, hp⟩
  · rintro ⟨o, ho⟩
    cases o with
    | free => exact Or.inl (hall.mpr (Or.inl ho))
    | space r => exact Or.inl (hall.mpr (Or.inr ⟨r, ho⟩))
    | kernel => exact Or.inr ho

theorem owns_once (hI : Inv L (active s.live) M s.phys) (ho : Outside L M s.others) {o o' : Place}
    (h : Owns s p o) (h' : Owns s p o') : o = o' := by
  have hl := hI.ledger
  rw [← holder_eq] at hl
  cases o with
  | free =>
    cases o' with
    | free => rfl
    | space r => exact absurd h (hl.apart r p h')
    | kernel => exact absurd (hl.mem_of_free h) (ho.apart p h')
  | space r =>
    cases o' with
    | free => exact absurd h' (hl.apart r p h)
    | space r' => rw [hl.inj r r' p h h']
    | kernel => exact absurd (hl.mem_of_held h) (ho.apart p h')
  | kernel =>
    cases o' with
    | free => exact absurd (hl.mem_of_free h') (ho.apart p h)
    | space r => exact absurd (hl.mem_of_held h') (ho.apart p h)
    | kernel => rfl

theorem exclusive_of_inv {managed : List ℕ} (hI : Inv L (active s.live) M s.phys) (ho : Outside L M s.others)
    (hM : total M s ⊆ {p | p ∈ managed}) : Exclusive managed s :=
  ⟨hI.nodup, ho.nodup, fun p o h => hM ((mem_total_iff hI p).mpr ⟨o, h⟩), fun _ _ _ h h' => owns_once hI ho h h'⟩

theorem conserved_iff {managed : List ℕ} (hI : Inv L (active s.live) M s.phys) (ho : Outside L M s.others)
    (hM : total M s ⊆ {p | p ∈ managed}) : Conserved managed s ↔ total M s = {p | p ∈ managed} := by
  have hex := exclusive_of_inv hI ho hM
  constructor
  · rintro ⟨-, -, -, hall⟩
    refine Set.Subset.antisymm hM fun p hp => ?_
    obtain ⟨o, h, -⟩ := hall p hp
    exact (mem_total_iff hI p).mpr ⟨o, h⟩
  · intro he
    refine ⟨hex.nodup, hex.others, hex.within, fun p hp => ?_⟩
    have hp' : p ∈ total M s := he ▸ hp
    obtain ⟨o, h⟩ := (mem_total_iff hI p).mp hp'
    exact ⟨o, h, fun o' h' => owns_once hI ho h' h⟩

end

/-- No page is ever in two places; and none is lost exactly when no copy is starved. -/
theorem page_conservation (L : Layout) (m : PhysMem) (cs : List Call) (s : Spaces) (hnodup : m.freelist.Nodup)
    (hman : ∀ p ∈ m.freelist, Managed L p) (hrun : Run (Steps (step L)) ⟨m, [], []⟩ cs s) :
    Exclusive m.freelist s ∧ (Conserved m.freelist s ↔ Along (Steps (step L)) Roomy ⟨m, [], []⟩ cs) := by
  obtain ⟨M, hI, ho, hsub, hiff⟩ := run_inv hrun (inv_start hnodup hman) (outside_nil L _)
  rw [total_start] at hsub hiff
  exact ⟨exclusive_of_inv hI ho hsub, (conserved_iff hI ho hsub).trans hiff⟩

theorem alloc_first_page {L : Layout} {A : Set Role} {M : Set ℕ} {m : PhysMem} {d : ℕ} (hI : Inv L A M m)
    (hd : Spans A d) (habs : ¬present (pde m d 0)) (hlen : 2 ≤ m.freelist.length) :
    ∃ m', allocuvm L m d 0 PGSIZE = .ok (PGSIZE, m') ∧ present (pte m' d 0) ∧
      m.freelist.length = m'.freelist.length + 2 := by
  match hf : m.freelist, hlen with
  | p :: q :: ps, _ =>
    obtain ⟨-, hmp, hI1, hs1⟩ := hI.take hf zero
    have hpde := hs1.dirs d 0 (hd _ rfl) (by decide)
    have hno : ¬present (pte (({ m with freelist := q :: ps } : PhysMem).setPage p zero) d 0) := by
      rw [pte_of_absent (by rw [hpde]; exact habs)]
      exact present_zero
    rcases mapPage_user hI1 (hd (.frame d 0) rfl) (by decide) hno (by simp) hmp (PTE_W ||| PTE_U)
      (by decide) with ⟨hnil, -⟩ | ⟨m', he, -, hm⟩
    · cases hnil
    · refine ⟨m', ?_, ?_, ?_⟩
      · rw [allocuvm, if_neg (by decide), if_neg (by decide), PGROUNDUP_eq, allocLoop, if_pos (by decide)]
        simp only [kalloc, hf]
        rw [show pages 0 = 0 from rfl, mappages_one (by decide), he]
        simp only [Outcome.ok_bind, if_true]
        rw [allocLoop, if_neg (by decide)]
      · rw [hm.entries d 0 (hd _ rfl) (by decide), if_pos ⟨rfl, rfl⟩]
        exact UserEntry.present ⟨p, rfl⟩
      · rcases hm.cost with ⟨hp, -⟩ | ⟨-, hl⟩
        · rw [hpde] at hp
          exact absurd hp habs
        · have hl' : (q :: ps).length = m'.freelist.length + 1 := hl
          simp only [List.length_cons] at hl' ⊢
          omega

def sampleLayout : Layout where
  data := 0x80108000
  endAddr := 0x80115000
  data_aligned := by decide
  text_nonempty := by decide
  data_lt_end := by decide
  end_le := by decide

def freePages (n : ℕ) : PhysMem := ⟨fun _ => zero, List.range' 1000 n⟩

theorem freePages_managed {n : ℕ} (hn : n ≤ 1000) (p : ℕ) (hp : p ∈ (freePages n).freelist) :
    Managed sampleLayout p := by
  simp only [freePages, List.mem_range'_1] at hp
  refine ⟨?_, ?_⟩
  · simp only [sampleLayout, KERNBASE, PGSIZE]
    omega
  · simp only [PHYSTOP, PGSIZE]
    omega

structure FirstPage (d : ℕ) (m1 m2 : PhysMem) : Prop where
  dir : Steps (step sampleLayout) ⟨freePages 133, [], []⟩ .setupkvm ⟨m1, [d], []⟩
  page : ∀ others, Steps (step sampleLayout) ⟨m1, [d], others⟩ (.allocuvm d 0 PGSIZE) ⟨m2, [d], others⟩
  mapped : present (pte m2 d 0)
  left : m2.freelist.length = 66

theorem exists_firstPage : ∃ d m1 m2, FirstPage d m1 m2 := by
  have hI := inv_start (L := sampleLayout) (m := freePages 133) List.nodup_range' (freePages_managed (by decide))
  have hlen : (freePages 133).freelist.length = 133 := List.length_range'
  rcases setupkvm_spec hI with ⟨-, -, -, -, hlt⟩ | ⟨d, m1, he1, -, hI1, -, htab, -, hlen1⟩
  · omega
  rw [active_cons] at hI1
  have hd : Spans (active [d]) d := by
    rintro r rfl
    exact List.mem_singleton.mpr rfl
  obtain ⟨m2, he2, hp2, hlen2⟩ := alloc_first_page hI1 hd
    (by rw [htab 0 (by decide)]; simp [kernelTables]) (by omega)
  refine ⟨d, m1, m2, ?_, fun others => ?_, hp2, by omega⟩
  · simp only [Steps, step, call, he1, Call.arg, Call.page]
    simp
  · simp only [Steps, step, call, he2, Call.arg, Call.page]
    simp

/-- An address space of one page is made and freed while the kernel has taken a page for itself. -/
theorem page_conservation_setupkvm : ∃ d s, Run (Steps (step sampleLayout)) ⟨freePages 133, [], []⟩
    [.setupkvm, .allocuvm d 0 PGSIZE, .kalloc, .freevm d] s ∧ s.live = [] ∧ s.others.length = 1 ∧
      Conserved (freePages 133).freelist s := by
  have hman := freePages_managed (n := 133) (by decide)
  have hI := inv_start (L := sampleLayout) (m := freePages 133) List.nodup_range' hman
  obtain ⟨d, m1, m2, h1, h2, -, hleft⟩ := exists_firstPage
  obtain ⟨k, ks, hf⟩ := List.exists_cons_of_length_pos (by omega : 0 < m2.freelist.length)
  have h3 : Steps (step sampleLayout) ⟨m2, [d], []⟩ .kalloc ⟨{ m2 with freelist := ks }, [d], [k]⟩ := by
    simp only [Steps, step, call, kalloc, hf, Call.arg, Call.page]
    simp
  obtain ⟨M, hI3, -⟩ := run_inv (.cons h1 (.cons (h2 []) (.cons h3 (.nil _)))) hI (outside_nil _ _)
  obtain ⟨m4, he4, -⟩ := freevm_spec (d := d) (fun r hr => List.mem_singleton.mpr hr) hI3
  have h4 : Steps (step sampleLayout) ⟨{ m2 with freelist := ks }, [d], [k]⟩ (.freevm d) ⟨m4, [], [k]⟩ := by
    simp only [Steps, step, call, he4, Call.arg, Call.page]
    simp
  have hrun : Run (Steps (step sampleLayout)) ⟨freePages 133, [], []⟩
      [.setupkvm, .allocuvm d 0 PGSIZE, .kalloc, .freevm d] ⟨m4, [], [k]⟩ :=
    .cons h1 (.cons (h2 []) (.cons h3 (.cons h4 (.nil _))))
  refine ⟨d, _, hrun, rfl, rfl, (page_conservation _ _ _ _ List.nodup_range' hman hrun).2.mpr ?_⟩
  exact ⟨trivial, fun _ _ => ⟨trivial, fun _ _ => ⟨trivial, fun _ _ => ⟨trivial, fun _ _ => trivial⟩⟩⟩⟩

/-- A first process of one page, copied when 66 pages are free. -/
theorem starved_copy_loses_page :
    ∃ cs s, Run (Steps (step sampleLayout)) ⟨freePages 133, [], []⟩ cs s ∧ ¬Conserved (freePages 133).freelist s := by
  have hman := freePages_managed (n := 133) (by decide)
  have hI := inv_start (L := sampleLayout) (m := freePages 133) List.nodup_range' hman
  obtain ⟨d, m1, m2, h1, h2, hp2, hleft⟩ := exists_firstPage
  have hst : Starved m2.freelist.length PGSIZE := ⟨0, by omega, by decide⟩
  obtain ⟨M2, hI2, -⟩ := run_inv (.cons h1 (.cons (h2 []) (.nil _))) hI (outside_nil _ _)
  let e3 : Call := .copyuvm d ⟨PGSIZE, by decide⟩
  rcases copyuvm_spec (s := d) (fun r hr => List.mem_singleton.mpr hr) (by decide : PGSIZE ≤ KERNBASE) hI2 with
    ⟨-, -, -, x, hx, hno⟩ | ⟨-, -, -, -, -, -, -, -, hn⟩ | ⟨-, -, -, -, hn⟩ | ⟨m3, -, he3, -⟩
  · have hx0 : x = 0 := by
      have : pages PGSIZE = 1 := by decide
      omega
    rw [hx0] at hno
    exact absurd hp2 hno
  · exact absurd hst hn
  · exact absurd hst hn
  · have h3 : Steps (step sampleLayout) ⟨m2, [d], []⟩ e3 ⟨m3, [d], []⟩ := by
      simp only [Steps, step, call, he3, Call.arg, Call.page, e3]
      simp
    have hrun : Run (Steps (step sampleLayout)) ⟨freePages 133, [], []⟩ [.setupkvm, .allocuvm d 0 PGSIZE, e3]
        ⟨m3, [d], []⟩ := .cons h1 (.cons (h2 []) (.cons h3 (.nil _)))
    refine ⟨_, _, hrun, fun hcons => ?_⟩
    obtain ⟨M3, hI3, ho3, hsub3, hiff⟩ := run_inv hrun hI (outside_nil _ _)
    rw [total_start] at hsub3 hiff
    have hroom := (hiff.mp ((conserved_iff hI3 ho3 hsub3).mp hcons)).2 _ h1 |>.2 _ (h2 []) |>.1
    exact hroom hst

end Xv6.Vm
