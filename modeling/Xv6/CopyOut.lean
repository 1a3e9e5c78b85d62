import Xv6.PageWalk
import Xv6.UserVm

/-!
`copyout` over any directory whose accessible pages are frames of their own. It looks up one page after the other, and
where the directory has no table for a page it reads through a null pointer.
-/

namespace Xv6.Vm

open ByteMemory

def pageOf (a : ℕ) : ℕ := a % 2 ^ 32 / PGSIZE

def Accessible (m : PhysMem) (d v : ℕ) : Prop := present (pte m d v) ∧ userBit (pte m d v)

instance (m : PhysMem) (d v : ℕ) : Decidable (Accessible m d v) := inferInstanceAs (Decidable (_ ∧ _))

def HasTable (m : PhysMem) (d v : ℕ) : Prop := present (pde m d (v / 1024))

instance (m : PhysMem) (d v : ℕ) : Decidable (HasTable m d v) := inferInstanceAs (Decidable (present _))

structure Apart (m : PhysMem) (d : ℕ) : Prop where
  inj : ∀ v v', v < 2 ^ 20 → v' < 2 ^ 20 → Accessible m d v → Accessible m d v' →
    frameOf (pte m d v) = frameOf (pte m d v') → v = v'
  dir : ∀ v, v < 2 ^ 20 → Accessible m d v → frameOf (pte m d v) ≠ d
  table : ∀ v i, v < 2 ^ 20 → i < NPDENTRIES → Accessible m d v → present (pde m d i) →
    frameOf (pde m d i) ≠ frameOf (pte m d v)

structure SameDir (m m' : PhysMem) (d : ℕ) : Prop where
  tables : ∀ i, i < NPDENTRIES → pde m' d i = pde m d i
  entries : ∀ v, v < 2 ^ 20 → pte m' d v = pte m d v

variable {m m' : PhysMem} {d v va : ℕ} {buf : List UInt8} {null : PhysMem → Outcome ℕ}

theorem pageOf_lt (a : ℕ) : pageOf a < 2 ^ 20 := by
  simp only [pageOf, PGSIZE]
  omega

theorem Accessible.hasTable (h : Accessible m d v) : HasTable m d v := table_of_present h.1

theorem SameDir.accessible (h : SameDir m m' d) (hv : v < 2 ^ 20) : Accessible m' d v ↔ Accessible m d v := by
  rw [Accessible, h.entries v hv, Accessible]

theorem SameDir.hasTable (h : SameDir m m' d) (hv : v < 2 ^ 20) : HasTable m' d v ↔ HasTable m d v := by
  rw [HasTable, h.tables _ (div_lt_entries hv), HasTable]

theorem Apart.sameDir (h : Apart m d) (hv : v < 2 ^ 20) (ha : Accessible m d v) (b : Bytes) :
    SameDir m (m.setPage (frameOf (pte m d v)) b) d := by
  have hpde : ∀ i, pde (m.setPage (frameOf (pte m d v)) b) d i = pde m d i := by
    intro i
    rw [pde, setPage_mem_ne m b (h.dir v hv ha).symm, pde]
  refine ⟨fun i _ => hpde i, fun v' hv' => ?_⟩
  by_cases hp : present (pde m d (v' / 1024))
  · rw [pte_of_present (by rw [hpde]; exact hp), pte_of_present hp, hpde,
      setPage_mem_ne m b (h.table v _ hv (div_lt_entries hv') ha hp)]
  · rw [pte_of_absent (by rw [hpde]; exact hp), pte_of_absent hp]

theorem Apart.of_sameDir (h : Apart m d) (hs : SameDir m m' d) : Apart m' d := by
  refine ⟨fun v v' hv hv' ha ha' he => ?_, fun v hv ha => ?_, fun v i hv hi ha hp => ?_⟩
  · rw [hs.entries v hv, hs.entries v' hv'] at he
    exact h.inj v v' hv hv' ((hs.accessible hv).mp ha) ((hs.accessible hv').mp ha') he
  · rw [hs.entries v hv]
    exact h.dir v hv ((hs.accessible hv).mp ha)
  · rw [hs.entries v hv, hs.tables i hi]
    rw [hs.tables i hi] at hp
    exact h.table v i hv hi ((hs.accessible hv).mp ha) hp

def frameAt (m : PhysMem) (d a : ℕ) : ℕ := frameOf (pte m d (pageOf a))

structure Written (m m' : PhysMem) (d va : ℕ) (buf : List UInt8) : Prop where
  bytes : ∀ i (h : i < buf.length), m'.mem (frameAt m d (va + i)) ((va + i) % PGSIZE) = buf[i]
  others : ∀ p k, (∀ i, i < buf.length → p = frameAt m d (va + i) → k ≠ (va + i) % PGSIZE) → m'.mem p k = m.mem p k
  free : m'.freelist = m.freelist

structure WrittenInside (m m' : PhysMem) (d : ℕ) : Prop where
  others : ∀ p, (∀ v, v < 2 ^ 20 → Accessible m d v → p ≠ frameOf (pte m d v)) → m'.mem p = m.mem p
  free : m'.freelist = m.freelist

theorem uva2kaWith_table (h : HasTable m d (pageOf va)) (hva : va < 2 ^ 32) :
    uva2kaWith null m d (PGROUNDDOWN va) =
      .ok (if Accessible m d (pageOf va) then some (frameOf (pte m d (pageOf va))) else none) := by
  have hdown : PGROUNDDOWN va / PGSIZE = pageOf va := by
    simp only [PGROUNDDOWN, pageOf, PGSIZE]
    omega
  have htab : present (pde m d (PGROUNDDOWN va / PGSIZE / 1024)) := by rwa [hdown]
  obtain ⟨hw, hpte⟩ := walkpgdir_entry htab
  rw [hdown] at hw hpte
  simp only [uva2kaWith, hw, hpte, Outcome.ok_bind, Accessible]
  by_cases h1 : present (pte m d (pageOf va)) <;> by_cases h2 : userBit (pte m d (pageOf va)) <;> simp [h1, h2]

theorem uva2kaWith_null (h : ¬ HasTable m d (pageOf va)) (hva : va < 2 ^ 32) :
    uva2kaWith null m d (PGROUNDDOWN va) = (do
      let pte ← null m
      if ¬present pte then .ok none else if ¬userBit pte then .ok none else .ok (some (frameOf pte))) := by
  have hi : PDX (PGROUNDDOWN va) = pageOf va / 1024 := by
    simp only [PDX, PGROUNDDOWN, pageOf, PGSIZE]
    omega
  have habs : ¬ present (pde m d (PDX (PGROUNDDOWN va))) := by rwa [hi]
  simp only [uva2kaWith, walkpgdir_absent habs]

theorem copyoutWith_step (ha : Accessible m d (pageOf va)) (hva : va < 2 ^ 32) (hpos : 0 < buf.length) :
    copyoutWith null d va buf m =
      copyoutWith null d ((PGROUNDDOWN va + PGSIZE) % 2 ^ 32) (buf.drop (copyLen va buf.length))
        (m.setPage (frameOf (pte m d (pageOf va)))
          (store (m.mem (frameOf (pte m d (pageOf va)))) (va - PGROUNDDOWN va)
            (buf.take (copyLen va buf.length)))) := by
  rw [copyoutWith, dif_pos hpos]
  simp only [uva2kaWith_table ha.hasTable hva, if_pos ha, Outcome.ok_bind]

theorem copyoutWith_null {w : ℕ} (h : ¬HasTable m d (pageOf va)) (hva : va < 2 ^ 32) (hpos : 0 < buf.length)
    (hnull : null m = .ok w) (hp : present w) (hu : userBit w) :
    copyoutWith null d va buf m =
      copyoutWith null d ((PGROUNDDOWN va + PGSIZE) % 2 ^ 32) (buf.drop (copyLen va buf.length))
        (m.setPage (frameOf w) (store (m.mem (frameOf w)) (va - PGROUNDDOWN va)
          (buf.take (copyLen va buf.length)))) := by
  rw [copyoutWith, dif_pos hpos]
  simp only [uva2kaWith_null h hva, hnull, Outcome.ok_bind, if_neg (not_not.mpr hp), if_neg (not_not.mpr hu)]

theorem copyLen_spec (hva : va < 2 ^ 32) (len : ℕ) :
    (∀ i, i < copyLen va len → pageOf (va + i) = pageOf va ∧ (va + i) % PGSIZE = va - PGROUNDDOWN va + i) ∧
      (copyLen va len < len → ∀ j, pageOf ((PGROUNDDOWN va + PGSIZE) % 2 ^ 32 + j) =
        pageOf (va + (copyLen va len + j)) ∧
        ((PGROUNDDOWN va + PGSIZE) % 2 ^ 32 + j) % PGSIZE = (va + (copyLen va len + j)) % PGSIZE) := by
  simp only [copyLen, pageOf, PGROUNDDOWN, PGSIZE]
  refine ⟨fun i hi => ?_, fun hlt j => ?_⟩
  · omega
  · omega

theorem copyLen_le (va len : ℕ) : copyLen va len ≤ len := Nat.min_le_right _ _

theorem Apart.place_inj (h : Apart m d) {a b : ℕ} (ha : Accessible m d (pageOf a)) (hb : Accessible m d (pageOf b))
    (hf : frameAt m d a = frameAt m d b) (hk : a % PGSIZE = b % PGSIZE) : a % 2 ^ 32 = b % 2 ^ 32 := by
  have hpage := h.inj _ _ (pageOf_lt a) (pageOf_lt b) ha hb hf
  simp only [pageOf, PGSIZE] at hpage hk
  omega

theorem Written.cons {m1 : PhysMem} (h : Apart m d) (hva : va < 2 ^ 32) (hlen : buf.length ≤ 2 ^ 32)
    (hall : ∀ i, i < buf.length → Accessible m d (pageOf (va + i)))
    (hm1 : m1 = m.setPage (frameOf (pte m d (pageOf va)))
      (store (m.mem (frameOf (pte m d (pageOf va)))) (va - PGROUNDDOWN va) (buf.take (copyLen va buf.length))))
    (hs : SameDir m m1 d)
    (hw : Written m1 m' d ((PGROUNDDOWN va + PGSIZE) % 2 ^ 32) (buf.drop (copyLen va buf.length))) :
    Written m m' d va buf := by
  obtain ⟨hfirst, hnext⟩ := copyLen_spec hva buf.length
  have hle := copyLen_le va buf.length
  have htake : (buf.take (copyLen va buf.length)).length = copyLen va buf.length := by
    rw [List.length_take, min_eq_left hle]
  -- the places of the rest, in terms of the memory before
  have hrest : ∀ j, j < (buf.drop (copyLen va buf.length)).length →
      frameAt m1 d ((PGROUNDDOWN va + PGSIZE) % 2 ^ 32 + j) = frameAt m d (va + (copyLen va buf.length + j)) ∧
        ((PGROUNDDOWN va + PGSIZE) % 2 ^ 32 + j) % PGSIZE = (va + (copyLen va buf.length + j)) % PGSIZE := by
    intro j hj
    rw [List.length_drop] at hj
    obtain ⟨hp, hk⟩ := hnext (by omega) j
    exact ⟨by rw [frameAt, frameAt, hp, hs.entries _ (pageOf_lt _)], hk⟩
  have hkeep : ∀ i, i < copyLen va buf.length →
      m'.mem (frameAt m d (va + i)) ((va + i) % PGSIZE) = m1.mem (frameAt m d (va + i)) ((va + i) % PGSIZE) := by
    intro i hi
    apply hw.others
    intro j hj hf hk
    obtain ⟨hf', hk'⟩ := hrest j hj
    rw [List.length_drop] at hj
    have := h.place_inj (hall i (by omega)) (hall _ (by omega)) (hf.trans hf') (hk.trans hk')
    omega
  refine ⟨fun i hi => ?_, fun p k hpk => ?_, hw.free.trans (by rw [hm1, setPage_freelist])⟩
  · rcases Nat.lt_or_ge i (copyLen va buf.length) with hin | hout
    · obtain ⟨hp, hk⟩ := hfirst i hin
      rw [hkeep i hin, frameAt, hp, hk, hm1, setPage_mem_self, store_apply_mem (by omega),
        List.getD_eq_getElem _ _ (by omega), List.getElem_take]
    · obtain ⟨j, rfl⟩ := Nat.exists_eq_add_of_le hout
      have hj : j < (buf.drop (copyLen va buf.length)).length := by
        rw [List.length_drop]
        omega
      obtain ⟨hf, hk⟩ := hrest j hj
      rw [← hf, ← hk, hw.bytes j hj, List.getElem_drop]
  · have hm1k : m1.mem p k = m.mem p k := by
      by_cases hp : p = frameOf (pte m d (pageOf va))
      · subst hp
        rw [hm1, setPage_mem_self]
        apply store_apply_not_mem
        rintro ⟨hlow, hlt⟩
        obtain ⟨i, rfl⟩ := Nat.exists_eq_add_of_le hlow
        obtain ⟨hp, hk⟩ := hfirst i (by omega)
        exact hpk i (by omega) (by rw [frameAt, hp]) hk.symm
      · rw [hm1, setPage_mem_ne _ _ hp]
    rw [← hm1k]
    apply hw.others
    intro j hj hf hk
    obtain ⟨hf', hk'⟩ := hrest j hj
    rw [List.length_drop] at hj
    exact hpk _ (by omega) (hf.trans hf') (hk.trans hk')

theorem WrittenInside.cons {m1 : PhysMem} {b : Bytes} (ha : Accessible m d (pageOf va))
    (hm1 : m1 = m.setPage (frameOf (pte m d (pageOf va))) b) (hs : SameDir m m1 d) (hw : WrittenInside m1 m' d) :
    WrittenInside m m' d := by
  refine ⟨fun p hp => ?_, hw.free.trans (by rw [hm1, setPage_freelist])⟩
  rw [hw.others p fun v hv hv' => by rw [hs.entries v hv]; exact hp v hv ((hs.accessible hv).mp hv'), hm1,
    setPage_mem_ne _ _ (hp _ (pageOf_lt va) ha)]

def Missing (m : PhysMem) (d va i : ℕ) : Prop :=
  (∀ j, j < i → Accessible m d (pageOf (va + j))) ∧ ¬ Accessible m d (pageOf (va + i))

instance (m : PhysMem) (d va i : ℕ) : Decidable (Missing m d va i) := inferInstanceAs (Decidable (_ ∧ _))

theorem missing_next {m1 : PhysMem} (hva : va < 2 ^ 32) (ha : Accessible m d (pageOf va)) (hs : SameDir m m1 d) {i : ℕ}
    (hi : i < buf.length) (hm : Missing m d va i) :
    ∃ j, i = copyLen va buf.length + j ∧ j < (buf.drop (copyLen va buf.length)).length ∧
      Missing m1 d ((PGROUNDDOWN va + PGSIZE) % 2 ^ 32) j ∧
      (HasTable m1 d (pageOf ((PGROUNDDOWN va + PGSIZE) % 2 ^ 32 + j)) ↔ HasTable m d (pageOf (va + i))) := by
  obtain ⟨hfirst, hnext⟩ := copyLen_spec hva buf.length
  have hge : copyLen va buf.length ≤ i := by
    by_contra hlt
    apply hm.2
    rw [(hfirst i (by omega)).1]
    exact ha
  obtain ⟨j, rfl⟩ := Nat.exists_eq_add_of_le hge
  have hacc : ∀ k, Accessible m1 d (pageOf ((PGROUNDDOWN va + PGSIZE) % 2 ^ 32 + k)) ↔
      Accessible m d (pageOf (va + (copyLen va buf.length + k))) := by
    intro k
    rw [(hnext (by omega) k).1, hs.accessible (pageOf_lt _)]
  refine ⟨j, rfl, by rw [List.length_drop]; omega, ⟨fun k hk => ?_, ?_⟩, ?_⟩
  · rw [hacc]
    exact hm.1 _ (by omega)
  · rw [hacc]
    exact hm.2
  · rw [(hnext (by omega) j).1, hs.hasTable (pageOf_lt _)]

theorem copyoutWith_all (h : Apart m d) (hva : va < 2 ^ 32) (hlen : buf.length ≤ 2 ^ 32)
    (hall : ∀ i, i < buf.length → Accessible m d (pageOf (va + i))) :
    ∃ m', (∀ null, copyoutWith null d va buf m = .ok (true, m')) ∧ Written m m' d va buf := by
  induction hk : buf.length using Nat.strong_induction_on generalizing va buf m with
  | _ k ih =>
    subst hk
    by_cases hpos : 0 < buf.length
    · have ha : Accessible m d (pageOf va) := hall 0 hpos
      have hs := h.sameDir (pageOf_lt va) ha (store (m.mem (frameOf (pte m d (pageOf va)))) (va - PGROUNDDOWN va)
        (buf.take (copyLen va buf.length)))
      have hn := copyLen_pos va hpos
      obtain ⟨m', hrun, hw⟩ := ih (buf.drop (copyLen va buf.length)).length (by rw [List.length_drop]; omega)
        (h.of_sameDir hs) (Nat.mod_lt (PGROUNDDOWN va + PGSIZE) (by decide)) (by rw [List.length_drop]; omega)
        (fun j hj => by
          rw [List.length_drop] at hj
          rw [((copyLen_spec hva buf.length).2 (by omega) j).1, hs.accessible (pageOf_lt _)]
          exact hall _ (by omega)) rfl
      exact ⟨m', fun null => by rw [copyoutWith_step ha hva hpos, hrun], .cons h hva hlen hall rfl hs hw⟩
    · have he : buf = [] := by simpa using hpos
      subst he
      refine ⟨m, fun null => ?_, fun i hi => absurd hi (by simp), fun _ _ _ => rfl, rfl⟩
      rw [copyoutWith, dif_neg hpos]

theorem copyoutWith_missing (h : Apart m d) (hva : va < 2 ^ 32) {i : ℕ} (hi : i < buf.length) (hm : Missing m d va i) :
    (HasTable m d (pageOf (va + i)) → ∃ m', (∀ null, copyoutWith null d va buf m = .ok (false, m')) ∧
      WrittenInside m m' d) ∧
      (¬ HasTable m d (pageOf (va + i)) → ∀ e, copyoutWith (fun _ => .error e) d va buf m = .error e) := by
  induction hk : buf.length using Nat.strong_induction_on generalizing va buf m i with
  | _ k ih =>
    subst hk
    have hpos : 0 < buf.length := by omega
    by_cases ha : Accessible m d (pageOf va)
    · have hs := h.sameDir (pageOf_lt va) ha (store (m.mem (frameOf (pte m d (pageOf va)))) (va - PGROUNDDOWN va)
        (buf.take (copyLen va buf.length)))
      have hn := copyLen_pos va hpos
      obtain ⟨j, rfl, hj, hm', htab⟩ := missing_next hva ha hs hi hm
      obtain ⟨ih1, ih2⟩ := ih (buf.drop (copyLen va buf.length)).length (by rw [List.length_drop]; omega)
        (h.of_sameDir hs) (Nat.mod_lt (PGROUNDDOWN va + PGSIZE) (by decide)) hj hm' rfl
      constructor
      · intro ht
        obtain ⟨m', hrun, hw⟩ := ih1 (htab.mpr ht)
        exact ⟨m', fun null => by rw [copyoutWith_step ha hva hpos, hrun], .cons ha rfl hs hw⟩
      · intro ht e
        rw [copyoutWith_step ha hva hpos, ih2 (fun h => ht (htab.mp h))]
    · obtain rfl : i = 0 := by
        by_contra hne
        exact ha (hm.1 0 (by omega))
      rw [Nat.add_zero]
      constructor
      · intro ht
        refine ⟨m, fun null => ?_, fun _ _ => rfl, rfl⟩
        rw [copyoutWith, dif_pos hpos]
        simp only [uva2kaWith_table ht hva, if_neg ha, Outcome.ok_bind]
      · intro ht e
        rw [copyoutWith, dif_pos hpos]
        simp only [uva2kaWith_null ht hva, Outcome.error_bind]

structure Correct (m m' : PhysMem) (d va : ℕ) (buf : List UInt8) (b : Bool) : Prop where
  iff : b = true ↔ ∀ i, i < buf.length → Accessible m d (pageOf (va + i))
  done : b = true → Written m m' d va buf
  failed : b = false → WrittenInside m m' d

def Safe (m : PhysMem) (d va : ℕ) (buf : List UInt8) : Prop :=
  ∃ b m', (∀ cur, copyout cur d va buf m = .ok (b, m')) ∧ (∀ null, copyoutWith null d va buf m = .ok (b, m')) ∧
    Correct m m' d va buf b

theorem safe_of (h : ∃ b m', (∀ null, copyoutWith null d va buf m = .ok (b, m')) ∧ Correct m m' d va buf b) :
    Safe m d va buf := by
  obtain ⟨b, m', hrun, hc⟩ := h
  exact ⟨b, m', fun cur => hrun _, hrun, hc⟩

theorem missing_or_all (m : PhysMem) (d va len : ℕ) :
    (∀ i, i < len → Accessible m d (pageOf (va + i))) ∨ ∃ i, i < len ∧ Missing m d va i := by
  by_cases hall : ∀ i, i < len → Accessible m d (pageOf (va + i))
  · exact .inl hall
  · right
    have hex : ∃ i, i < len ∧ ¬ Accessible m d (pageOf (va + i)) := by
      by_contra hn
      exact hall fun i hi => by_contra fun ha => hn ⟨i, hi, ha⟩
    classical
    obtain ⟨hlt, hn⟩ := Nat.find_spec hex
    refine ⟨Nat.find hex, hlt, fun j hj => ?_, hn⟩
    by_contra ha
    exact Nat.find_min hex hj ⟨by omega, ha⟩

/-- `copyout` is safe exactly when the first page that is not accessible, if there is one, has a table. -/
theorem copyout_safe_iff (h : Apart m d) (hva : va < 2 ^ 32) (hlen : buf.length < 2 ^ 32) :
    Safe m d va buf ↔ ∀ i, i < buf.length → Missing m d va i → HasTable m d (pageOf (va + i)) := by
  rcases missing_or_all m d va buf.length with hall | ⟨i, hi, hm⟩
  · obtain ⟨m', hrun, hw⟩ := copyoutWith_all h hva hlen.le hall
    refine iff_of_true (safe_of ⟨true, m', hrun, iff_of_true rfl hall, fun _ => hw, fun hb => absurd hb (by decide)⟩) ?_
    intro i hi hm
    exact absurd (hall i hi) hm.2
  · obtain ⟨hwith, hwithout⟩ := copyoutWith_missing h hva hi hm
    constructor
    · rintro ⟨b, m', -, hrun, -⟩ j hj hmj
      have hij : j = i := by
        rcases Nat.lt_trichotomy j i with hlt | heq | hlt
        · exact absurd (hm.1 j hlt) hmj.2
        · exact heq
        · exact absurd (hmj.1 i hlt) hm.2
      subst hij
      by_contra ht
      cases (hwithout ht "trap").symm.trans (hrun _)
    · intro ht
      obtain ⟨m', hrun, hw⟩ := hwith (ht i hi hm)
      exact safe_of ⟨false, m', hrun, iff_of_false (by decide) fun hall => hm.2 (hall i hi),
        fun hb => absurd hb (by decide), fun _ => hw⟩

theorem Inv.apart {L : Layout} {A : Set Role} {M : Set ℕ} (hI : Inv L A M m) (hd : Spans A d)
    (hk : ∀ v, userPages ≤ v → v < 2 ^ 20 → ¬userBit (pte m d v)) : Apart m d := by
  have hown : ∀ v, v < 2 ^ 20 → Accessible m d v → owned A m (.frame d v) = some (frameOf (pte m d v)) := by
    intro v hv ha
    refine frame_owned (hd _ rfl) ?_ ha.1
    by_contra hu
    exact hk v (by omega) hv ha.2
  refine ⟨fun v v' hv hv' ha ha' he => ?_, fun v hv ha he => ?_, fun v i hv hi ha hp he => ?_⟩
  · cases hI.ledger.inj _ _ _ (hown v hv ha) (he ▸ hown v' hv' ha')
    rfl
  · cases hI.ledger.inj _ _ _ (hown v hv ha) (he ▸ Inv.dir_owned (hd (.dir d) rfl))
  · cases hI.ledger.inj _ _ _ (hown v hv ha) (he ▸ table_owned (hd (.table d i) rfl) hi hp)

def onePage : PhysMem := ((⟨fun _ => zero, []⟩ : PhysMem).setEntry 1 0 (2 * PGSIZE + 7)).setEntry 2 0 (3 * PGSIZE + 7)

theorem onePage_pde (i : ℕ) : pde onePage 1 i = if i = 0 then 2 * PGSIZE + 7 else 0 := by
  rw [pde, onePage, setEntry_mem_ne _ _ _ (by decide), word_setEntry _ _ _ (by decide), word_zero]

theorem onePage_pte (v : ℕ) : pte onePage 1 v = if v = 0 then 3 * PGSIZE + 7 else 0 := by
  rw [pte, onePage_pde]
  by_cases hi : v / 1024 = 0
  · have htab : frameOf (2 * PGSIZE + 7) = 2 := by decide
    rw [if_pos hi, if_pos (by decide), htab, onePage, word_setEntry _ _ _ (by decide),
        setEntry_mem_ne _ _ _ (by decide),
      word_zero]
    simp only [show v % 1024 = 0 ↔ v = 0 by omega]
  · rw [if_neg hi, if_neg (by decide), if_neg (by omega)]

theorem onePage_accessible (h : Accessible onePage 1 v) : v = 0 := by
  by_contra hv
  rw [Accessible, onePage_pte, if_neg hv] at h
  exact absurd h.1 (by decide)

theorem onePage_apart : Apart onePage 1 := by
  refine ⟨fun v v' _ _ ha ha' _ => ?_, fun v _ ha => ?_, fun v i _ _ ha hp => ?_⟩
  · rw [onePage_accessible ha, onePage_accessible ha']
  · rw [onePage_accessible ha, onePage_pte]
    decide
  · by_cases hi : i = 0
    · rw [onePage_pde, if_pos hi, onePage_accessible ha, onePage_pte]
      decide
    · rw [onePage_pde, if_neg hi] at hp
      exact absurd hp (by decide)

/-- Four bytes across the end of the accessible page: the table has no entry for the next page. -/
theorem copyout_safe_iff_page_end : Safe onePage 1 4094 [1, 2, 3, 4] ∧ Missing onePage 1 4094 2 := by
  refine ⟨(copyout_safe_iff onePage_apart (by decide) (by decide)).mpr ?_, by decide⟩
  have htab : ∀ i, i < 4 → HasTable onePage 1 (pageOf (4094 + i)) := by decide
  exact fun i hi _ => htab i hi

/-- The directory 5 is empty, and the caller has put an entry for the page 4 at its own address 0: `copyout` writes the
page 4, which directory 5 does not map, and returns 0. -/
theorem copyout_writes_foreign_page : ¬ ∀ (m : PhysMem) (cur d va : ℕ) (buf : List UInt8), Apart m d → va < 2 ^ 32 →
    buf.length < 2 ^ 32 → ∃ b m', copyout cur d va buf m = .ok (b, m') ∧ Correct m m' d va buf b := by
  intro h
  have hpde : ∀ i, pde (onePage.setEntry 3 0 (4 * PGSIZE + 7)) 5 i = 0 := word_zero
  have habs : ∀ v, ¬ Accessible (onePage.setEntry 3 0 (4 * PGSIZE + 7)) 5 v := by
    intro v ha
    rw [Accessible, pte_of_absent (by rw [hpde]; decide)] at ha
    exact absurd ha.1 (by decide)
  have hapart : Apart (onePage.setEntry 3 0 (4 * PGSIZE + 7)) 5 :=
    ⟨fun v _ _ _ ha => absurd ha (habs v), fun v _ ha => absurd ha (habs v), fun v _ _ _ ha => absurd ha (habs v)⟩
  obtain ⟨b, m', hrun, hc⟩ := h _ 1 5 0 [1] hapart (by decide) (by decide)
  have hnull : uva2ka (onePage.setEntry 3 0 (4 * PGSIZE + 7)) 1 5 (PGROUNDDOWN 0) = .ok (some 4) := rfl
  rw [copyout, copyoutWith, dif_pos (by decide)] at hrun
  rw [uva2ka] at hnull
  simp only [hnull, Outcome.ok_bind] at hrun
  rw [copyoutWith, dif_neg (by decide)] at hrun
  cases hrun
  exact habs _ (hc.iff.mp rfl 0 (by decide))

end Xv6.Vm
