import Xv6.ExecArgs
import Xv6.PageConservation

namespace Xv6.Vm

open Xv6.ByteMemory Xv6.Ownership Transition
open Function (update_self update_of_ne update_eq_self)

def spaces (s : Sys) : Set Role := {r | ∃ i p, s.proc i = some p ∧ r.root = p.pgdir}

structure Good (L : Layout) (M : Set ℕ) (s : Sys) : Prop where
  inv : Inv L (spaces s) M s.phys
  dirs : ∀ i j p q, s.proc i = some p → s.proc j = some q → p.pgdir = q.pgdir → i = j
  mapped : ∀ i p, s.proc i = some p → Mapped s.phys p
  kstacks : ∀ i j p q, s.proc i = some p → s.proc j = some q → p.kstack = q.kstack → i = j
  stack : ∀ i p, s.proc i = some p → p.kstack ∉ M ∧ Managed L p.kstack ∧ p.kstack ∉ s.others
  outside : Outside L M s.others

def Sound (L : Layout) (s : Sys) : MemCall → Prop
  | .sbrk i n => ∀ p, s.proc i = some p → (p.sz : ℤ) + n.toInt ≠ 0
  | .exec _ file argv => ∀ ip ∈ file, Loads L s.phys ip → ∀ a ∈ argv, a.length + 1 ≤ 2 ^ 25
  | _ => True

section

variable {L : Layout} {A : Set Role} {M : Set ℕ} {m m' : PhysMem} {p q : Proc} {s : Sys} {i : Fin NPROC}

theorem Mapped.congr (h : Mapped m p) (he : ∀ v, v < userPages → pte m' p.pgdir v = pte m p.pgdir v) : Mapped m' p :=
  ⟨h.pos, h.lt, fun v hv => by rw [he v hv]; exact h.iff v hv⟩

theorem Changed.same_without {d lo hi : ℕ} {Q : ℕ → Prop} (h : Changed A d lo hi Q m m') : Same (without A d) m m' :=
  ⟨fun d' i hd' hi => h.dirs d' i hd'.1 hi hd'.2, fun d' v ht hv => h.others d' v ht.1 hv (fun he => absurd he ht.2)⟩

theorem Mapped.grow {newsz : ℕ} (h : Mapped m p) (hle : p.sz ≤ newsz) (hlt : newsz < KERNBASE)
    (hp : Spans A p.pgdir) (hc : Changed A p.pgdir (pages p.sz) (pages newsz) UserEntry m m') :
    Mapped m' { p with sz := newsz } := by
  refine ⟨h.pos.trans_le hle, hlt, ?_⟩
  intro v hv
  have hmono := pages_mono hle
  by_cases hin : pages p.sz ≤ v ∧ v < pages newsz
  · exact iff_of_true (hc.inside v hin.1 hin.2).present hin.2
  · rw [hc.others p.pgdir v (hp _ rfl) (lt_of_lt_userPages hv) (fun _ => by omega), h.iff v hv]
    dsimp only
    omega

theorem Mapped.undo {newsz : ℕ} (h : Mapped m p) (hp : Spans A p.pgdir)
    (hc : Changed A p.pgdir (pages p.sz) (pages newsz) (fun w => ¬present w) m m') : Mapped m' p := by
  refine ⟨h.pos, h.lt, ?_⟩
  intro v hv
  by_cases hin : pages p.sz ≤ v ∧ v < pages newsz
  · exact iff_of_false (hc.inside v hin.1 hin.2) (by omega)
  · rw [hc.others p.pgdir v (hp _ rfl) (lt_of_lt_userPages hv) (fun _ => by omega)]
    exact h.iff v hv

theorem Mapped.shrink {newsz : ℕ} (h : Mapped m p) (hpos : 0 < newsz) (hle : newsz ≤ p.sz)
    (hp : Spans A p.pgdir) (hc : Cleared A p.pgdir (pages newsz) (pages p.sz) m m') :
    Mapped m' { p with sz := newsz } := by
  refine ⟨hpos, lt_of_le_of_lt hle h.lt, ?_⟩
  intro v hv
  have hmono := pages_mono hle
  rw [hc.entries p.pgdir v (hp _ rfl) (lt_of_lt_userPages hv)]
  split_ifs with hcond
  · exact iff_of_false present_zero (by dsimp only; omega)
  · rw [h.iff v hv] at hcond ⊢
    dsimp only
    omega

theorem growproc_spec (hI : Inv L A M m) (hp : Spans A p.pgdir) (hm : Mapped m p) {n : Int32}
    (hn : (p.sz : ℤ) + n.toInt ≠ 0) :
    ∃ r m', growproc L m p n = .ok (r, m') ∧ Inv L A M m' ∧ Same (without A p.pgdir) m m' ∧ Mapped m' (r.getD p) ∧
      (r.getD p).pgdir = p.pgdir ∧ (r.getD p).kstack = p.kstack := by
  have h1 := n.le_toInt
  have h2 := n.toInt_lt
  have hpos := hm.pos
  have hlt := hm.lt
  simp only [KERNBASE] at hlt
  simp only [growproc]
  set newsz := (((p.sz : ℤ) + n.toInt) % 2 ^ 32).toNat with hnew
  by_cases hgrow : 0 < n.toInt
  · rw [if_pos hgrow]
    have hval : newsz = p.sz + n.toInt.toNat := by omega
    rcases allocuvm_spec hp p.sz newsz hI with
      ⟨hk, x, hx1, hx2, hpr, -⟩ | ⟨hlt', -⟩ | ⟨hle, hk, m', he, hI', hc⟩ | ⟨-, he⟩ | ⟨-, m', he, hI', hc⟩
    · have hxu := hx2.trans_le (pages_le_userPages hk.le)
      rw [hm.iff x hxu] at hpr
      omega
    · omega
    · rw [he, Outcome.ok_bind, if_neg (by omega)]
      exact ⟨some _, m', rfl, hI', hc.same_without, hm.grow hle hk hp hc, rfl, rfl⟩
    · rw [he, Outcome.ok_bind, if_pos rfl]
      exact ⟨none, m, rfl, hI, Same.refl _ m, hm, rfl, rfl⟩
    · rw [he, Outcome.ok_bind, if_pos rfl]
      exact ⟨none, m', rfl, hI', hc.same_without, hm.undo hp hc, rfl, rfl⟩
  · rw [if_neg hgrow]
    by_cases hneg : n.toInt < 0
    · rw [if_pos hneg]
      by_cases hback : p.sz ≤ newsz
      · have he : deallocuvm L m p.pgdir p.sz newsz = .ok (p.sz, m) := if_pos hback
        rw [he, Outcome.ok_bind, if_neg (by omega)]
        exact ⟨some p, m, rfl, hI, Same.refl _ m, hm, rfl, rfl⟩
      · obtain ⟨m', he, hI', hc⟩ := deallocuvm_spec (fun v => hp (.frame p.pgdir v) rfl) hm.lt.le
          (Nat.lt_of_not_le hback) hI
        rw [he, Outcome.ok_bind, if_neg (by omega)]
        refine ⟨some _, m', rfl, hI', ?_, hm.shrink (by omega) (by omega) hp hc, rfl, rfl⟩
        exact (hc.changed (hp _ rfl) (fun i => hp _ rfl)
          ((pages_le_userPages hm.lt.le).trans (by rw [userPages_eq]; norm_num))).same_without
    · rw [if_neg hneg]
      exact ⟨some p, m, rfl, hI, Same.refl _ m, hm, rfl, rfl⟩

theorem root_mem_spaces (h : s.proc i = some p) (r : Role) (hr : r.root = p.pgdir) : r ∈ spaces s := ⟨i, p, h, hr⟩

theorem Good.phys {M' : Set ℕ} (hg : Good L M s) (hI : Inv L (spaces s) M' m') (hs : Same (spaces s) s.phys m')
    (hsub : M' ⊆ M) : Good L M' { s with phys := m' } where
  inv := hI
  dirs := hg.dirs
  mapped i p h := (hg.mapped i p h).congr fun v hv => hs.entries _ v (root_mem_spaces h _ rfl) (lt_of_lt_userPages hv)
  kstacks := hg.kstacks
  stack i p h := ⟨fun hm => (hg.stack i p h).1 (hsub hm), (hg.stack i p h).2⟩
  outside := hg.outside.mono hsub

theorem update_cases {f : Fin NPROC → Option Proc} {j : Fin NPROC} (h : Function.update f i (some q) j = some p) :
    (j = i ∧ p = q) ∨ (j ≠ i ∧ f j = some p) := by
  by_cases he : j = i
  · subst he
    rw [update_self] at h
    exact Or.inl ⟨rfl, (Option.some.inj h).symm⟩
  · rw [update_of_ne he] at h
    exact Or.inr ⟨he, h⟩

theorem spaces_update (hg : Good L M s) (hi : s.proc i = some p) :
    spaces { s with phys := m', proc := Function.update s.proc i (some q) } =
      without (spaces s) p.pgdir ∪ rooted q.pgdir := by
  ext r
  constructor
  · rintro ⟨j, p', hj, hr⟩
    rcases update_cases hj with ⟨rfl, rfl⟩ | ⟨he, hj⟩
    · exact Or.inr hr
    · exact Or.inl ⟨⟨j, p', hj, hr⟩, fun hrp => he (hg.dirs j i p' p hj hi (hr.symm.trans hrp))⟩
  · rintro (⟨⟨j, p', hj, hr⟩, hne⟩ | hr)
    · have he : j ≠ i := by
        rintro rfl
        rw [hi] at hj
        cases hj
        exact hne hr
      exact ⟨j, p', (update_of_ne he _ _).trans hj, hr⟩
    · exact ⟨i, q, update_self _ _ _, hr⟩

theorem Good.update (hg : Good L M s) (hi : s.proc i = some p)
    (hI : Inv L (without (spaces s) p.pgdir ∪ rooted q.pgdir) M m') (hs : Same (without (spaces s) p.pgdir) s.phys m')
    (hm : Mapped m' q) (hk : q.kstack = p.kstack)
    (hfresh : ∀ j p', j ≠ i → s.proc j = some p' → p'.pgdir ≠ q.pgdir) :
    Good L M { s with phys := m', proc := Function.update s.proc i (some q) } := by
  refine ⟨?_, ?_, ?_, ?_, ?_, hg.outside⟩
  · rw [spaces_update hg hi]
    exact hI
  · intro j j' p1 p2 hj hj' he
    rcases update_cases hj with ⟨rfl, rfl⟩ | ⟨hne, h1⟩ <;> rcases update_cases hj' with ⟨rfl, rfl⟩ | ⟨hne', h2⟩
    · rfl
    · exact absurd he.symm (hfresh j' p2 hne' h2)
    · exact absurd he (hfresh j p1 hne h1)
    · exact hg.dirs j j' p1 p2 h1 h2 he
  · intro j p' hj
    rcases update_cases hj with ⟨rfl, rfl⟩ | ⟨hne, h1⟩
    · exact hm
    · have hroot : p'.pgdir ≠ p.pgdir := fun he => hne (hg.dirs j i p' p h1 hi he)
      exact (hg.mapped j p' h1).congr fun v hv =>
        hs.entries _ v ⟨root_mem_spaces h1 _ rfl, hroot⟩ (lt_of_lt_userPages hv)
  · intro j j' p1 p2 hj hj' he
    rcases update_cases hj with ⟨rfl, rfl⟩ | ⟨hne, h1⟩ <;> rcases update_cases hj' with ⟨rfl, rfl⟩ | ⟨hne', h2⟩
    · rfl
    · exact hg.kstacks _ _ p p2 hi h2 (hk.symm.trans he)
    · exact hg.kstacks _ _ p1 p h1 hi (he.trans hk)
    · exact hg.kstacks j j' p1 p2 h1 h2 he
  · intro j p' hj
    rcases update_cases hj with ⟨rfl, rfl⟩ | ⟨hne, h1⟩
    · rw [hk]
      exact hg.stack j p hi
    · exact hg.stack j p' h1

theorem put_eq (hi : s.proc i = some p) (r : Option Proc) :
    s.put i (r, m') = { s with phys := m', proc := Function.update s.proc i (some (r.getD p)) } := by
  cases r with
  | none => simp only [Sys.put, Option.getD_none, ← hi, update_eq_self]
  | some q => rfl

theorem without_union_self (hp : Spans A p.pgdir) :
    without A p.pgdir ∪ rooted p.pgdir = A := by
  ext r
  constructor
  · rintro (⟨h, -⟩ | h)
    · exact h
    · exact hp r h
  · intro h
    by_cases hr : r.root = p.pgdir
    · exact Or.inr hr
    · exact Or.inl ⟨h, hr⟩

theorem without_union_rooted {d d' : ℕ} (hne : d' ≠ d) :
    without (A ∪ rooted d') d = without A d ∪ rooted d' := by
  ext r
  constructor
  · rintro ⟨h | h, hr⟩
    · exact Or.inl ⟨h, hr⟩
    · exact Or.inr h
  · rintro (⟨h, hr⟩ | h)
    · exact ⟨Or.inl h, hr⟩
    · exact ⟨Or.inr h, fun hr => hne (h.symm.trans hr)⟩

theorem Good.sbrk (hg : Good L M s) (hi : s.proc i = some p) {n : Int32} (hn : (p.sz : ℤ) + n.toInt ≠ 0) :
    ∃ t, (growproc L s.phys p n).map (s.put i) = .ok t ∧ Good L M t := by
  have hp := root_mem_spaces hi
  obtain ⟨r, m', he, hI, hs, hm, hd, hk⟩ := growproc_spec hg.inv hp (hg.mapped i p hi) hn
  refine ⟨_, by rw [he]; rfl, ?_⟩
  rw [put_eq hi]
  refine hg.update hi ?_ hs hm hk ?_
  · rw [hd, without_union_self hp]
    exact hI
  · intro j p' hne hj
    rw [hd]
    exact fun he => hne (hg.dirs j i p' p hj hi he)

theorem Good.exec (hg : Good L M s) (hi : s.proc i = some p) (file : Option Inode) {argv : List (List UInt8)}
    (hargs : ∀ ip ∈ file, Loads L s.phys ip → ∀ a ∈ argv, a.length + 1 ≤ 2 ^ 25) :
    ∃ t, (Vm.exec L s.phys p file argv).map (s.put i) = .ok t ∧ Good L M t := by
  have hp := root_mem_spaces hi
  rcases exec_spec hg.inv hp file hargs with ⟨m', he, hI, hs, -⟩ | ⟨q, m', he, hroot, hI, hs, hm, hk⟩
  · exact ⟨{ s with phys := m' }, by rw [he]; rfl, hg.phys hI hs subset_rfl⟩
  · refine ⟨_, by rw [he]; rfl, ?_⟩
    rw [put_eq hi]
    have hne : q.pgdir ≠ p.pgdir := fun he => hroot (.dir q.pgdir) rfl (hp _ he)
    rw [without_union_rooted hne] at hI
    refine hg.update hi hI hs hm hk ?_
    intro j p' _ hj he
    exact hroot (.dir p'.pgdir) he (root_mem_spaces hj _ rfl)

theorem freeSlot_none {np : Fin NPROC} (h : freeSlot s = some np) : s.proc np = none := by
  simpa using List.find?_some h

theorem Good.fork (hg : Good L M s) (hi : s.proc i = some p) : ∃ t M', Vm.fork L s p = .ok t ∧ Good L M' t := by
  have hp := root_mem_spaces hi
  have hpm := hg.mapped i p hi
  simp only [Vm.fork]
  cases hslot : freeSlot s with
  | none => exact ⟨s, M, rfl, hg⟩
  | some np =>
    have hnp := freeSlot_none hslot
    cases hf : s.phys.freelist with
    | nil =>
      refine ⟨s, M, ?_, hg⟩
      simp only [Vm.kalloc, hf]
    | cons k ps =>
      obtain ⟨hkM, hI1⟩ := hg.inv.kalloc hf
      have hs1 : Same (spaces s) s.phys { s.phys with freelist := ps } := (Same.refl _ _).of_mem rfl
      simp only [Vm.kalloc, hf]
      rcases copyuvm_spec hp hpm.lt.le hI1 with
        ⟨-, -, -, x, hx, hno⟩ | ⟨d, m', he, hroot, hI', hs', hrest, hdone, -⟩ | ⟨m', he, hI', hs', -⟩ |
          ⟨m', p', he, -, hI', hs', -⟩
      · have hxu := hx.trans_le (pages_le_userPages hpm.lt.le)
        rw [hs1.entries _ x (hp _ rfl) (lt_of_lt_userPages hxu)] at hno
        exact absurd ((hpm.iff x hxu).mpr hx) hno
      · rw [he]
        refine ⟨_, M \ {k}, rfl, ?_⟩
        have hsp : ∀ j q, s.proc j = some q →
            Function.update s.proc np (some { p with pgdir := d, kstack := k }) j = some q := by
          intro j q hj
          have hjn : j ≠ np := by
            rintro rfl
            rw [hnp] at hj
            cases hj
          rw [update_of_ne hjn]
          exact hj
        have hspaces : spaces ⟨m', Function.update s.proc np (some { p with pgdir := d, kstack := k }), s.others⟩ =
            spaces s ∪ rooted d := by
          ext r
          constructor
          · rintro ⟨j, q, hj, hr⟩
            rcases update_cases hj with ⟨-, rfl⟩ | ⟨-, h1⟩
            · exact Or.inr hr
            · exact Or.inl ⟨j, q, h1, hr⟩
          · rintro (⟨j, q, hj, hr⟩ | hr)
            · exact ⟨j, q, hsp j q hj, hr⟩
            · exact ⟨np, _, update_self _ _ _, hr⟩
        refine ⟨by rw [hspaces]; exact hI', ?_, ?_, ?_, ?_, hg.outside.mono Set.sdiff_subset⟩
        · intro j j' q q' hj hj' hd
          rcases update_cases hj with ⟨rfl, rfl⟩ | ⟨-, h1⟩ <;> rcases update_cases hj' with ⟨rfl, rfl⟩ | ⟨-, h2⟩
          · rfl
          · exact absurd (root_mem_spaces h2 (.dir q'.pgdir) rfl) (hroot _ hd.symm)
          · exact absurd (root_mem_spaces h1 (.dir q.pgdir) rfl) (hroot _ hd)
          · exact hg.dirs j j' q q' h1 h2 hd
        · intro j q hj
          rcases update_cases hj with ⟨rfl, rfl⟩ | ⟨-, h1⟩
          · refine ⟨hpm.pos, hpm.lt, fun v hv => ⟨fun hpr => ?_, fun hlt => (hdone v hlt).1⟩⟩
            by_contra hge
            exact hrest v (Nat.le_of_not_lt hge) hv hpr
          · exact (hg.mapped j q h1).congr fun v hv =>
              (hs1.trans hs').entries _ v (root_mem_spaces h1 _ rfl) (lt_of_lt_userPages hv)
        · intro j j' q q' hj hj' hk
          rcases update_cases hj with ⟨rfl, rfl⟩ | ⟨-, h1⟩ <;> rcases update_cases hj' with ⟨rfl, rfl⟩ | ⟨-, h2⟩
          · rfl
          · exact absurd hkM (by rw [show k = q'.kstack from hk]; exact (hg.stack j' q' h2).1)
          · exact absurd hkM (by rw [show k = q.kstack from hk.symm]; exact (hg.stack j q h1).1)
          · exact hg.kstacks j j' q q' h1 h2 hk
        · intro j q hj
          rcases update_cases hj with ⟨rfl, rfl⟩ | ⟨-, h1⟩
          · exact ⟨fun h => h.2 rfl, hg.inv.managed k hkM, fun h => hg.outside.apart k h hkM⟩
          · exact ⟨fun hm => (hg.stack j q h1).1 hm.1, (hg.stack j q h1).2⟩
      · obtain ⟨m2, he2, -, -, hs2, hI2⟩ := hI'.kfree (p := k) (by simp) (hg.inv.managed k hkM)
        rw [insert_sdiff_mem hkM] at hI2
        refine ⟨{ s with phys := m2 }, M, ?_, hg.phys hI2 ((hs1.trans hs').trans hs2) subset_rfl⟩
        simp only [he, he2, Outcome.ok_bind]
      · obtain ⟨m2, he2, -, -, hs2, hI2⟩ := hI'.kfree (p := k) (by simp) (hg.inv.managed k hkM)
        refine ⟨{ s with phys := m2 }, insert k ((M \ {k}) \ {p'}), ?_, hg.phys hI2 ((hs1.trans hs').trans hs2) ?_⟩
        · simp only [he, he2, Outcome.ok_bind]
        · rintro q (rfl | hq)
          · exact hkM
          · exact hq.1.1

theorem Good.reap (hg : Good L M s) (hi : s.proc i = some p) : ∃ t M', Vm.reap L s i p = .ok t ∧ Good L M' t := by
  obtain ⟨hk1, hk2, hk3⟩ := hg.stack i p hi
  obtain ⟨m1, he1, -, -, hs1, hI1⟩ := hg.inv.kfree hk1 hk2
  obtain ⟨m2, he2, hI2, hs2⟩ := freevm_spec (root_mem_spaces hi) hI1
  have hold : ∀ j q, Function.update s.proc i none j = some q → j ≠ i ∧ s.proc j = some q := by
    intro j q hj
    have hne : j ≠ i := by
      rintro rfl
      rw [update_self] at hj
      cases hj
    rw [update_of_ne hne] at hj
    exact ⟨hne, hj⟩
  have hspaces : spaces ⟨m2, Function.update s.proc i none, s.others⟩ = without (spaces s) p.pgdir := by
    ext r
    constructor
    · rintro ⟨j, q, hj, hr⟩
      obtain ⟨hne, hj⟩ := hold j q hj
      exact ⟨⟨j, q, hj, hr⟩, fun hrp => hne (hg.dirs j i q p hj hi (hr.symm.trans hrp))⟩
    · rintro ⟨⟨j, q, hj, hr⟩, hrp⟩
      have hne : j ≠ i := by
        rintro rfl
        rw [hi] at hj
        cases hj
        exact hrp hr
      exact ⟨j, q, (update_of_ne hne _ _).trans hj, hr⟩
  refine ⟨⟨m2, Function.update s.proc i none, s.others⟩, insert p.kstack M, ?_, ?_⟩
  · simp only [Vm.reap, he1, he2, Outcome.ok_bind]
  · refine ⟨by rw [hspaces]; exact hI2, ?_, ?_, ?_, ?_, hg.outside.nodup, ?_, hg.outside.managed⟩
    · exact fun j j' q q' hj hj' => hg.dirs j j' q q' (hold j q hj).2 (hold j' q' hj').2
    · intro j q hj
      obtain ⟨hne, hj⟩ := hold j q hj
      refine (hg.mapped j q hj).congr fun v hv => ?_
      have hroot : q.pgdir ≠ p.pgdir := fun he => hne (hg.dirs j i q p hj hi he)
      have hq := root_mem_spaces hj (.table q.pgdir (v / 1024)) rfl
      rw [hs2.entries _ v ⟨hq, hroot⟩ (lt_of_lt_userPages hv), hs1.entries _ v hq (lt_of_lt_userPages hv)]
    · exact fun j j' q q' hj hj' => hg.kstacks j j' q q' (hold j q hj).2 (hold j' q' hj').2
    · intro j q hj
      obtain ⟨hne, hj⟩ := hold j q hj
      refine ⟨?_, (hg.stack j q hj).2⟩
      rintro (he | hm)
      · exact hne (hg.kstacks j i q p hj hi he)
      · exact (hg.stack j q hj).1 hm
    · rintro q hq (rfl | hm)
      · exact hk3 hq
      · exact hg.outside.apart q hq hm

theorem Good.grab (hg : Good L M s) {q : ℕ} {ps : List ℕ} (hf : s.phys.freelist = q :: ps) :
    Good L (M \ {q}) { s with phys := { s.phys with freelist := ps }, others := q :: s.others } := by
  obtain ⟨hqM, hI⟩ := hg.inv.kalloc hf
  refine ⟨hI, hg.dirs, fun i p h => (hg.mapped i p h).congr fun _ _ => rfl, hg.kstacks, ?_,
    hg.outside.take hqM (hg.inv.managed q hqM)⟩
  intro i p h
  obtain ⟨h1, h2, h3⟩ := hg.stack i p h
  refine ⟨fun hm => h1 hm.1, h2, ?_⟩
  rw [List.mem_cons]
  rintro (he | hm)
  · exact h1 (he ▸ hqM)
  · exact h3 hm

theorem Good.give (hg : Good L M s) {q : ℕ} (hq : q ∈ s.others) :
    ∃ m', kfree L s.phys q = .ok m' ∧ Good L (insert q M) { s with phys := m', others := s.others.erase q } := by
  obtain ⟨m', he, -, -, hs, hI⟩ := hg.inv.kfree (hg.outside.apart q hq) (hg.outside.managed q hq)
  refine ⟨m', he, hI, hg.dirs, ?_, hg.kstacks, ?_, hg.outside.give⟩
  · exact fun i p h => (hg.mapped i p h).congr fun v hv =>
      hs.entries _ v (root_mem_spaces h _ rfl) (lt_of_lt_userPages hv)
  · intro i p h
    obtain ⟨h1, h2, h3⟩ := hg.stack i p h
    refine ⟨?_, h2, fun hm => h3 (List.mem_of_mem_erase hm)⟩
    rintro (he | hm)
    · exact h3 (he ▸ hq)
    · exact h1 hm

theorem memStep_good {e : MemCall} {x : Outcome Sys} (hg : Good L M s) (hsound : Sound L s e)
    (h : memStep L s e = some x) : ∃ t M', x = .ok t ∧ Good L M' t := by
  cases e with
  | exec i file argv =>
    simp only [memStep, Option.map_eq_some_iff] at h
    obtain ⟨p, hi, rfl⟩ := h
    obtain ⟨t, ht, hgt⟩ := hg.exec hi file hsound
    exact ⟨t, M, ht, hgt⟩
  | fork i =>
    simp only [memStep, Option.map_eq_some_iff] at h
    obtain ⟨p, hi, rfl⟩ := h
    exact hg.fork hi
  | sbrk i n =>
    simp only [memStep, Option.map_eq_some_iff] at h
    obtain ⟨p, hi, rfl⟩ := h
    obtain ⟨t, ht, hgt⟩ := hg.sbrk hi (hsound p hi)
    exact ⟨t, M, ht, hgt⟩
  | reap i =>
    simp only [memStep, Option.map_eq_some_iff] at h
    obtain ⟨p, hi, rfl⟩ := h
    exact hg.reap hi
  | grab =>
    cases hf : s.phys.freelist with
    | nil => simp only [memStep, kalloc, hf, reduceCtorEq] at h
    | cons q ps =>
      simp only [memStep, kalloc, hf, Option.some.injEq] at h
      exact ⟨_, _, h.symm, hg.grab hf⟩
  | give q =>
    simp only [memStep] at h
    split_ifs at h with hq
    obtain ⟨m', he, hgt⟩ := hg.give hq
    rw [Option.some.injEq, he] at h
    exact ⟨_, _, h.symm, hgt⟩

end

end Xv6.Vm
