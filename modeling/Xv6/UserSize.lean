import Xv6.UserRanges

namespace Xv6.Vm

open Xv6.ByteMemory Xv6.Ownership

def SameUser (m m' : PhysMem) (d : ℕ) : Prop := ∀ v, v < userPages →
  (present (pte m' d v) ↔ present (pte m d v)) ∧ (present (pte m d v) → pte m' d v = pte m d v)

structure Added (A : Set Role) (d lo hi : ℕ) (m m' : PhysMem) : Prop where
  fresh : ∀ v, lo ≤ v → v < hi → ∃ p, pte m' d v = p * PGSIZE + (PTE_W ||| PTE_U ||| PTE_P) ∧ m'.mem p = zero ∧
    p ∈ m.freelist
  distinct : ∀ v w, lo ≤ v → v < hi → lo ≤ w → w < hi → frameOf (pte m' d v) = frameOf (pte m' d w) → v = w
  others : ∀ d' v, .table d' (v / 1024) ∈ A → v < 2 ^ 20 → (d' = d → v < lo ∨ hi ≤ v) → pte m' d' v = pte m d' v
  keeps : Keeps A m m'

structure Undone (A : Set Role) (d : ℕ) (m m' : PhysMem) : Prop where
  user : SameUser m m' d
  others : ∀ d' v, .table d' (v / 1024) ∈ A → v < 2 ^ 20 → d' ≠ d → pte m' d' v = pte m d' v
  keeps : Keeps A m m'
  free : ∀ p ∈ m.freelist, p ∈ m'.freelist ∨ ∃ i, held m (.table d i) = none ∧ held m' (.table d i) = some p

structure Freed (A : Set Role) (d lo hi : ℕ) (m m' : PhysMem) : Prop where
  cleared : Cleared A d lo hi m m'
  keeps : Keeps (outside A d lo hi) m m'
  free : ∀ p, p ∈ m'.freelist ↔ p ∈ m.freelist ∨ ∃ v, lo ≤ v ∧ v < hi ∧ held m (.frame d v) = some p

section

variable {L : Layout} {A : Set Role} {M : Set ℕ} {m m' m'' : PhysMem} {d lo hi : ℕ} {p : Proc}

theorem SameUser.refl (m : PhysMem) (d : ℕ) : SameUser m m d := fun _ _ => ⟨Iff.rfl, fun _ => rfl⟩

theorem Cleared.held_of (hA : Closed A) (hc : Cleared A d lo hi m m') {r : Role} {q : ℕ} (hr : r ∈ A)
    (hq : held m' r = some q) : held m r = some q := by
  cases r with
  | dir d' => exact hq
  | table d' i =>
    rw [← hq]
    apply (held_congr _ _).symm
    · rintro _ _ ⟨⟩ hi
      exact hc.dirs d' i (hA.dir _ _ hr) hi
    · rintro _ _ ⟨⟩
  | frame d' v =>
    obtain ⟨hv, hp, hf⟩ := held_frame_some hq
    have he := hc.entries d' v (hA.table _ _ hr) (lt_of_lt_userPages hv)
    split_ifs at he with hcond
    · rw [he] at hp
      exact absurd hp present_zero
    · rw [he] at hp hf
      rw [held, if_pos ⟨hv, hp⟩, hf]

theorem Cleared.freed (hd : Spans A d) (hI : Inv L A M m) (hI' : Inv L A M m')
    (hc : Cleared A d lo hi m m') (hk : Keeps (outside A d lo hi) m m') : Freed A d lo hi m m' := by
  refine ⟨hc, hk, fun q => ⟨fun hq => ?_, fun hq => ?_⟩⟩
  · rcases hI.free_or_held (hI'.ledger.mem_of_free hq) with hfree | ⟨r, hr, hrq⟩
    · exact Or.inl hfree
    · right
      by_contra hno
      have hout : r ∈ outside A d lo hi := by
        refine ⟨hr, ?_⟩
        rintro v rfl
        by_contra hv
        exact hno ⟨v, by omega, by omega, hrq⟩
      exact hI'.held_notMem_free hr (hk.holds r q hout hrq) hq
  · have hM : q ∈ M := by
      rcases hq with hq | ⟨v, -, -, hq⟩
      · exact hI.ledger.mem_of_free hq
      · exact hI.ledger.mem_of_held ((owned_of_held (hd (.frame d v) rfl)).trans hq)
    rcases hI'.free_or_held hM with hfree | ⟨r, hr, hrq⟩
    · exact hfree
    · have hold := hc.held_of hI.closed hr hrq
      rcases hq with hq | ⟨v, h1, h2, hq⟩
      · exact absurd hq (hI.held_notMem_free hr hold)
      · cases hI.held_inj hr (hd (.frame d v) rfl) hold hq
        obtain ⟨hv, hp, -⟩ := held_frame_some hrq
        rw [hc.entries d v (hd _ rfl) (lt_of_lt_userPages hv),
          if_pos ⟨rfl, h1, h2, (held_frame_some hq).2.1⟩] at hp
        exact absurd hp present_zero

variable {oldsz newsz : ℕ}

theorem deallocuvm_frees (hI : Inv L A M m) (hd : Spans A d) (hle : newsz ≤ oldsz) (hsz : oldsz ≤ KERNBASE) :
    ∃ m', deallocuvm L m d oldsz newsz = .ok (newsz, m') ∧ Inv L A M m' ∧
      Freed A d (pages newsz) (pages oldsz) m m' := by
  have hfr : ∀ v, .frame d v ∈ A := fun v => hd (.frame d v) rfl
  rcases Nat.eq_or_lt_of_le hle with rfl | hlt
  · refine ⟨m, if_pos le_rfl, hI, Cleared.freed hd hI hI ?_ (Keeps.refl _ m)⟩
    exact Cleared.refl fun v h1 h2 => by omega
  · obtain ⟨m', he, hI', hc⟩ := deallocuvm_spec hfr hsz hlt hI
    exact ⟨m', he, hI', hc.freed hd hI hI' (deallocuvm_keeps hfr hsz hI he)⟩

theorem Keeps.fresh (hI : Inv L A M m) (hI' : Inv L A M m') (hk : Keeps A m m') {r : Role} {q : ℕ} (hr : r ∈ A)
    (hno : held m r = none) (hq : held m' r = some q) : q ∈ m.freelist := by
  have hM : q ∈ M := hI'.ledger.mem_of_held ((owned_of_held hr).trans hq)
  rcases hI.free_or_held hM with hfree | ⟨r', hr', hq'⟩
  · exact hfree
  · cases hI'.held_inj hr hr' hq (hk.holds r' q hr' hq')
    rw [hno] at hq'
    cases hq'

theorem held_frame_none {v : ℕ} (h : ¬present (pte m d v)) : held m (.frame d v) = none := if_neg fun hc => h hc.2

theorem Changed.sameUser (hd : Spans A d)
    (hc : Changed A d (pages oldsz) (pages newsz) (fun w => ¬present w) m m') (hm : MapsBelow m d (pages oldsz)) :
    SameUser m m' d := by
  intro v hv
  by_cases hin : pages oldsz ≤ v ∧ v < pages newsz
  · have hno : ¬present (pte m d v) := by
      rw [hm v hv]
      omega
    exact ⟨iff_of_false (hc.inside v hin.1 hin.2) hno, fun hp => absurd hp hno⟩
  · have he := hc.others d v (hd _ rfl) (lt_of_lt_userPages hv) (fun _ => by omega)
    exact ⟨by rw [he], fun _ => he⟩

theorem Keeps.undone (hI : Inv L A M m) (hI' : Inv L A M m') (hk : Keeps A m m') (hu : SameUser m m' d)
    (ho : ∀ d' v, .table d' (v / 1024) ∈ A → v < 2 ^ 20 → d' ≠ d → pte m' d' v = pte m d' v)
    (hdirs : ∀ d' i, .dir d' ∈ A → i < NPDENTRIES → d' ≠ d → pde m' d' i = pde m d' i) : Undone A d m m' := by
  refine ⟨hu, ho, hk, fun q hq => ?_⟩
  rcases hI'.free_or_held (hI.ledger.mem_of_free hq) with hfree | ⟨r, hr, hrq⟩
  · exact Or.inl hfree
  · right
    have hnot : held m r ≠ some q := fun h => hI.held_notMem_free hr h hq
    cases r with
    | dir d' => exact absurd hrq hnot
    | table d' i =>
      by_cases hdd : d' = d
      · subst hdd
        cases hh : held m (.table d' i) with
        | none => exact ⟨i, hh, hrq⟩
        | some q' =>
          have := hk.holds _ q' hr hh
          rw [hrq] at this
          exact absurd (hh.trans this.symm) hnot
      · refine absurd ?_ hnot
        rw [← hrq]
        apply (held_congr _ _).symm
        · rintro _ _ ⟨⟩ hi
          exact hdirs d' i (hI.closed.dir _ _ hr) hi hdd
        · rintro _ _ ⟨⟩
    | frame d' v =>
      refine absurd ?_ hnot
      obtain ⟨hv, hp, hf⟩ := held_frame_some hrq
      have he : pte m' d' v = pte m d' v := by
        by_cases hdd : d' = d
        · subst hdd
          exact (hu v hv).2 ((hu v hv).1.mp hp)
        · exact ho d' v (hI.closed.table _ _ hr) (lt_of_lt_userPages hv) hdd
      rw [he] at hp hf
      rw [held, if_pos ⟨hv, hp⟩, hf]

theorem allocuvm_adds (hI : Inv L A M m) (hd : Spans A d)
    (hm : MapsBelow m d (pages oldsz)) (hle : oldsz ≤ newsz) (hnew : newsz < KERNBASE) :
    ∃ r m', allocuvm L m d oldsz newsz = .ok (r, m') ∧ Inv L A M m' ∧
      (r = newsz ∧ Added A d (pages oldsz) (pages newsz) m m' ∨ r = 0 ∧ Undone A d m m') := by
  have hpg : pages newsz ≤ userPages := pages_le_userPages hnew.le
  have hfr : ∀ v, .frame d v ∈ A := fun v => hd (.frame d v) rfl
  rcases allocuvm_spec hd oldsz newsz hI with
    ⟨-, x, h1, h2, hp, -⟩ | ⟨hlt, -⟩ | ⟨-, -, m', he, hI', hc⟩ | ⟨hk, -⟩ | ⟨-, m', he, hI', hc⟩
  · rw [hm x (by omega)] at hp
    omega
  · omega
  · obtain ⟨hk, hz⟩ := allocuvm_keeps hd hle hnew hI hm he
    refine ⟨newsz, m', he, hI', Or.inl ⟨rfl, fun v h1 h2 => ?_, fun v w h1 h2 h3 h4 hf => ?_, hc.others, hk⟩⟩
    · obtain ⟨q, hq⟩ := hc.inside v h1 h2
      have hp := (hc.inside v h1 h2).present
      have hfq : frameOf (pte m' d v) = q := by rw [hq, frameOf_add q (by decide)]
      have hno : ¬present (pte m d v) := by
        rw [hm v (by omega)]
        omega
      have hheld : held m' (.frame d v) = some q := by rw [held, if_pos ⟨by omega, hp⟩, hfq]
      exact ⟨q, hq, by rw [← hfq]; exact hz v h1 h2 hp, hk.fresh hI hI' (hfr v) (held_frame_none hno) hheld⟩
    · have hv : held m' (.frame d v) = some (frameOf (pte m' d v)) :=
        if_pos ⟨by omega, (hc.inside v h1 h2).present⟩
      have hw : held m' (.frame d w) = some (frameOf (pte m' d v)) := by
        rw [hf]
        exact if_pos ⟨by omega, (hc.inside w h3 h4).present⟩
      cases hI'.held_inj (hfr v) (hfr w) hv hw
      rfl
  · omega
  · obtain ⟨hk, -⟩ := allocuvm_keeps hd hle hnew hI hm he
    refine ⟨0, m', he, hI', Or.inr ⟨rfl, hk.undone hI hI' (hc.sameUser hd hm) ?_ hc.dirs⟩⟩
    intro d' v ht hv hne
    exact hc.others d' v ht hv fun h => absurd h hne

theorem Added.restore (hd : Spans A d) (hm : MapsBelow m d (pages oldsz))
    (ha : Added A d (pages oldsz) (pages newsz) m m') (hf : Freed A d (pages oldsz) (pages newsz) m' m'') :
    SameUser m m'' d := by
  intro v hv
  have hc := hf.cleared.entries d v (hd _ rfl) (lt_of_lt_userPages hv)
  by_cases hin : pages oldsz ≤ v ∧ v < pages newsz
  · have hno : ¬present (pte m d v) := by
      rw [hm v hv]
      omega
    obtain ⟨q, hq, -⟩ := ha.fresh v hin.1 hin.2
    have hpres : present (pte m' d v) := UserEntry.present ⟨q, hq⟩
    rw [if_pos ⟨rfl, hin.1, hin.2, hpres⟩] at hc
    refine ⟨iff_of_false ?_ hno, fun hp => absurd hp hno⟩
    rw [hc]
    exact present_zero
  · have ho := ha.others d v (hd _ rfl) (lt_of_lt_userPages hv) fun _ => by omega
    rw [if_neg (fun h => hin ⟨h.2.1, h.2.2.1⟩)] at hc
    have he := hc.trans ho
    exact ⟨by rw [he], fun _ => he⟩

theorem page_below {sz : ℕ} (h : 0 < sz) : (sz - 1) / PGSIZE < pages sz := by
  simp only [pages, PGSIZE]
  omega

/-- `allocuvm` and `deallocuvm` on a page directory `d` of a kernel in which every page has one role. -/
theorem user_pages_alloc_dealloc (hI : Inv L A M m) (hd : ∀ r : Role, r.root = d → r ∈ A) :
    (∀ oldsz newsz, MapsBelow m d (pages oldsz) → oldsz ≤ newsz → newsz < KERNBASE →
      ∃ r m', allocuvm L m d oldsz newsz = .ok (r, m') ∧
        (r = newsz ∧ Added A d (pages oldsz) (pages newsz) m m' ∧
          (∃ m'', deallocuvm L m' d newsz oldsz = .ok (oldsz, m'') ∧ SameUser m m'' d) ∨ r = 0 ∧ Undone A d m m')) ∧
    (∀ oldsz newsz, newsz ≤ oldsz → oldsz ≤ KERNBASE →
      ∃ m', deallocuvm L m d oldsz newsz = .ok (newsz, m') ∧ Freed A d (pages newsz) (pages oldsz) m m' ∧
        (0 < newsz → pte m' d ((newsz - 1) / PGSIZE) = pte m d ((newsz - 1) / PGSIZE))) ∧
    ∀ (L' : Layout) (d' oldsz v : ℕ) (m0 : PhysMem),
      deallocLoop L' d' oldsz (v * PGSIZE) m0 = deallocEach L' d' (pages oldsz - v) (v * PGSIZE) m0 := by
  refine ⟨?_, ?_, deallocLoop_eq_each⟩
  · intro oldsz newsz hm hle hnew
    obtain ⟨r, m', he, hI', ⟨hr, ha⟩ | hr⟩ := allocuvm_adds hI hd hm hle hnew
    · obtain ⟨m'', hde, -, hf⟩ := deallocuvm_frees hI' hd hle hnew.le
      exact ⟨r, m', he, Or.inl ⟨hr, ha, m'', hde, ha.restore hd hm hf⟩⟩
    · exact ⟨r, m', he, Or.inr hr⟩
  · intro oldsz newsz hle hsz
    obtain ⟨m', he, -, hf⟩ := deallocuvm_frees hI hd hle hsz
    refine ⟨m', he, hf, fun hpos => ?_⟩
    have hbelow := page_below hpos
    have hlt : (newsz - 1) / PGSIZE < userPages :=
      hbelow.trans_le (pages_le_userPages (hle.trans hsz))
    rw [hf.cleared.entries d _ (hd _ rfl) (lt_of_lt_userPages hlt), if_neg]
    rintro ⟨-, hge, -⟩
    omega

def InStep (m m' : PhysMem) (p : Proc) (n : Int32) (r : Option Proc) : Prop :=
  (∀ q, r = some q → q.pgdir = p.pgdir ∧ (q.sz : ℤ) = p.sz + n.toInt ∧ MapsBelow m' q.pgdir (pages q.sz)) ∧
  (r = none → SameUser m m' p.pgdir ∧
    ∀ v, v < userPages → present (pte m p.pgdir v) → m'.mem (frameOf (pte m p.pgdir v)) =
        m.mem (frameOf (pte m p.pgdir v)))

theorem Keeps.frame_bytes (hd : Spans A d) (hk : Keeps A m m') (v : ℕ) (hv : v < userPages)
    (hp : present (pte m d v)) : m'.mem (frameOf (pte m d v)) = m.mem (frameOf (pte m d v)) :=
  hk.bytes d v _ (hd _ rfl) (if_pos ⟨hv, hp⟩)

theorem Added.mapsBelow (hd : Spans A d) (hm : MapsBelow m d (pages oldsz))
    (hle : oldsz ≤ newsz) (ha : Added A d (pages oldsz) (pages newsz) m m') : MapsBelow m' d (pages newsz) := by
  intro v hv
  have hmono := pages_mono hle
  by_cases hin : pages oldsz ≤ v ∧ v < pages newsz
  · obtain ⟨q, hq, -⟩ := ha.fresh v hin.1 hin.2
    exact iff_of_true (UserEntry.present ⟨q, hq⟩) hin.2
  · rw [ha.others d v (hd _ rfl) (lt_of_lt_userPages hv) (fun _ => by omega), hm v hv]
    omega

theorem Freed.mapsBelow (hd : Spans A d) (hm : MapsBelow m d (pages oldsz))
    (hle : newsz ≤ oldsz) (hf : Freed A d (pages newsz) (pages oldsz) m m') : MapsBelow m' d (pages newsz) := by
  intro v hv
  have hmono := pages_mono hle
  have hc := hf.cleared.entries d v (hd _ rfl) (lt_of_lt_userPages hv)
  split_ifs at hc with hcond
  · rw [hc]
    exact iff_of_false present_zero (by omega)
  · rw [hc, hm v hv]
    rw [hm v hv] at hcond
    simp only [true_and, not_and, not_lt] at hcond
    omega

/-- `growproc` does what is asked of it exactly when it is not asked to give back the whole size or more. -/
theorem growproc_in_step (hI : Inv L A M m) (hp : ∀ r : Role, r.root = p.pgdir → r ∈ A) (hsz : p.sz ≤ KERNBASE)
    (hm : MapsBelow m p.pgdir (pages p.sz)) (n : Int32) :
    ∃ r m', growproc L m p n = .ok (r, m') ∧
      (InStep m m' p n r ↔ (n.toInt < 0 → p.sz = 0 ∨ 0 < (p.sz : ℤ) + n.toInt)) := by
  have h1 := n.le_toInt
  have h2 := n.toInt_lt
  have hK : KERNBASE = 2 ^ 31 := rfl
  simp only [growproc]
  set newsz := (((p.sz : ℤ) + n.toInt) % 2 ^ 32).toNat with hnew
  by_cases hgrow : 0 < n.toInt
  · rw [if_pos hgrow]
    have hcond : n.toInt < 0 → p.sz = 0 ∨ 0 < (p.sz : ℤ) + n.toInt := fun h => by omega
    have hval : (newsz : ℤ) = p.sz + n.toInt := by omega
    have hle : p.sz ≤ newsz := by omega
    by_cases hk : KERNBASE ≤ newsz
    · have he : allocuvm L m p.pgdir p.sz newsz = .ok (0, m) := if_pos hk
      rw [he, Outcome.ok_bind, if_pos rfl]
      refine ⟨none, m, rfl, iff_of_true ⟨?_, fun _ => ⟨SameUser.refl m _, fun _ _ _ => rfl⟩⟩ hcond⟩
      rintro q ⟨⟩
    · obtain ⟨r, m', he, -, ⟨rfl, ha⟩ | ⟨rfl, hu⟩⟩ := allocuvm_adds hI hp hm hle (by omega)
      · rw [he, Outcome.ok_bind, if_neg (by omega)]
        refine ⟨_, m', rfl, iff_of_true ⟨?_, ?_⟩ hcond⟩
        · rintro q ⟨⟩
          exact ⟨rfl, hval, ha.mapsBelow hp hm hle⟩
        · rintro ⟨⟩
      · rw [he, Outcome.ok_bind, if_pos rfl]
        refine ⟨none, m', rfl, iff_of_true ⟨?_, fun _ => ⟨hu.user, hu.keeps.frame_bytes hp⟩⟩ hcond⟩
        rintro q ⟨⟩
  · rw [if_neg hgrow]
    by_cases hneg : n.toInt < 0
    · rw [if_pos hneg]
      by_cases hback : p.sz ≤ newsz
      · have he : deallocuvm L m p.pgdir p.sz newsz = .ok (p.sz, m) := if_pos hback
        rw [he, Outcome.ok_bind]
        by_cases h0 : p.sz = 0
        · rw [if_pos h0]
          refine ⟨none, m, rfl, iff_of_true ⟨?_, fun _ => ⟨SameUser.refl m _, fun _ _ _ => rfl⟩⟩ fun _ => Or.inl h0⟩
          rintro q ⟨⟩
        · rw [if_neg h0]
          refine ⟨_, m, rfl, iff_of_false (fun hs => ?_) fun hc => ?_⟩
          · have := (hs.1 _ rfl).2.1
            dsimp only at this
            omega
          · have := hc hneg
            omega
      · have hle : newsz ≤ p.sz := by omega
        obtain ⟨m', he, -, hf⟩ := deallocuvm_frees hI hp hle hsz
        rw [he, Outcome.ok_bind]
        by_cases h0 : newsz = 0
        · rw [if_pos h0]
          have hbelow := hf.mapsBelow hp hm hle
          have hpos : 0 < pages p.sz := lt_pages.mpr (by omega)
          refine ⟨none, m', rfl, iff_of_false (fun hs => ?_) fun hc => ?_⟩
          · have h0' := ((hs.2 rfl).1 0 (by decide)).1
            rw [hbelow 0 (by decide), hm 0 (by decide), h0] at h0'
            exact absurd (h0'.mpr hpos) (by decide)
          · have := hc hneg
            omega
        · rw [if_neg h0]
          refine ⟨_, m', rfl, iff_of_true ⟨?_, ?_⟩ fun _ => Or.inr (by omega)⟩
          · rintro q ⟨⟩
            exact ⟨rfl, by dsimp only; omega, hf.mapsBelow hp hm hle⟩
          · rintro ⟨⟩
    · rw [if_neg hneg]
      have hz : n.toInt = 0 := by omega
      refine ⟨some p, m, rfl, iff_of_true ⟨?_, ?_⟩ fun h => absurd h hneg⟩
      · rintro q ⟨⟩
        exact ⟨rfl, by rw [hz, Int.add_zero], hm⟩
      · rintro ⟨⟩

end

theorem first_process : ∃ (A : Set Role) (M : Set ℕ) (m : PhysMem) (p : Proc), Inv sampleLayout A M m ∧
    Spans A p.pgdir ∧ p.sz = PGSIZE ∧ MapsBelow m p.pgdir (pages p.sz) := by
  have hman := freePages_managed (n := 100) (by decide)
  obtain ⟨s, M, -, hg, p, hp, hsz⟩ := userinit_good (L := sampleLayout) (m := freePages 100)
    List.nodup_range' hman (by decide) [] (by decide)
  exact ⟨_, M, s.phys, p, hg.inv, root_mem_spaces hp, hsz, (hg.mapped _ p hp).iff⟩

theorem user_pages_alloc_dealloc_first : ∃ m d, MapsBelow m d (pages PGSIZE) ∧
    ∃ r m', allocuvm sampleLayout m d PGSIZE 5000 = .ok (r, m') := by
  obtain ⟨A, M, m, p, hI, hp, hsz, hm⟩ := first_process
  rw [hsz] at hm
  obtain ⟨r, m', he, -⟩ := (user_pages_alloc_dealloc hI hp).1 PGSIZE 5000 hm (by decide) (by decide)
  exact ⟨m, p.pgdir, hm, r, m', he⟩

theorem growproc_in_step_half : ∃ m p r m', growproc sampleLayout m p (-2048) = .ok (r, m') ∧
    InStep m m' p (-2048) r := by
  obtain ⟨A, M, m, p, hI, hp, hsz, hm⟩ := first_process
  have hn : (-2048 : Int32).toInt = -2048 := by decide
  have hK : p.sz ≤ KERNBASE := by
    rw [hsz]
    decide
  obtain ⟨r, m', he, hiff⟩ := growproc_in_step hI hp hK hm (-2048)
  refine ⟨m, p, r, m', he, hiff.mpr fun _ => Or.inr ?_⟩
  rw [hn, hsz]
  decide

/-- The first process gives back its whole page. -/
theorem growproc_out_of_step : ¬ ∀ (L : Layout) (A : Set Role) (M : Set ℕ) (m m' : PhysMem) (p : Proc) (n : Int32)
    (r : Option Proc), Inv L A M m → (∀ r : Role, r.root = p.pgdir → r ∈ A) → p.sz ≤ KERNBASE →
    MapsBelow m p.pgdir (pages p.sz) → growproc L m p n = .ok (r, m') → InStep m m' p n r := by
  intro hall
  obtain ⟨A, M, m, p, hI, hp, hsz, hm⟩ := first_process
  have hK : p.sz ≤ KERNBASE := by
    rw [hsz]
    decide
  have hn : (-4096 : Int32).toInt = -4096 := by decide
  have hz : (((p.sz : ℤ) + -4096) % 2 ^ 32).toNat = 0 := by
    rw [hsz]
    rfl
  obtain ⟨m', he, -, hf⟩ := deallocuvm_frees hI hp (Nat.zero_le p.sz) hK
  have hgrow : growproc sampleLayout m p (-4096) = .ok (none, m') := by
    simp only [growproc, hn, hz]
    rw [if_neg (by decide), if_pos (by decide), he]
    rfl
  have hu := ((hall _ A M m m' p _ none hI hp hK hm hgrow).2 rfl).1 0 (by decide)
  rw [hf.mapsBelow hp hm (Nat.zero_le _) 0 (by decide), hm 0 (by decide), hsz] at hu
  exact absurd hu.1 (by decide)

end Xv6.Vm
