import Xv6.BufferCache

namespace Xv6.Bio

open LinkedRing MemIde
open Function (update update_self update_of_ne)

variable {P : Type}

def Pc.target : Pc → Option (Fin NBUF)
  | .idle => none
  | .waiting i _ | .locked i _ | .releasing i => some i

def Pc.lockedOn (i : Fin NBUF) : Pc → Bool
  | .locked j _ => j = i
  | _ => false

def Pc.request : Pc → Option (Fin NBUF × ℕ)
  | .waiting i n | .locked i n => some (i, n)
  | _ => none

def owned (s : Bcache P) (i : Fin NBUF) : Bool :=
  match s.lock i with
  | some p => !(s.pc p).lockedOn i
  | none => false

variable {s t u : Bcache P} {i : Fin NBUF} {p : P} {b : Buf} {disksize n : ℕ} {x : Pc}

theorem owned_of_owns [DecidableEq P] (h : owns s p i) : owned s i = true := by
  simp [owned, h.1, h.2, Pc.lockedOn]

structure Keys (s : Bcache P) : Prop where
  unique : ∀ i j, (s.buf i).dev = ROOTDEV → (s.buf j).dev = ROOTDEV → (s.buf i).blockno = (s.buf j).blockno → i = j
  request : ∀ p i n, (s.pc p).request = some (i, n) → (s.buf i).dev = ROOTDEV ∧ (s.buf i).blockno = n
  locked : ∀ p i, (s.pc p).lockedOn i = true → s.lock i = some p
  owned : ∀ i, owned s i = true → (s.buf i).valid = true ∧ (s.buf i).dev = ROOTDEV
  dirty : ∀ i, (s.buf i).dirty = true → (s.buf i).valid = true ∧ (s.buf i).dev = ROOTDEV

def Refs (s : Bcache P) : Prop :=
  ∀ i, ∃ calls : Finset P, (∀ p, p ∈ calls ↔ (s.pc p).target = some i) ∧
    (s.buf i).refcnt = calls.card + (owned s i).toNat

def Listed (s : Bcache P) : Prop := ∃ l, Ring s.next s.prev l ∧ l.Perm (List.finRange NBUF)

structure Table (s : Bcache P) : Prop where
  keys : Keys s
  refs : Refs s
  listed : Listed s

theorem Listed.cached_spec (h : Listed s) (dev n : ℕ) :
    (∀ i, cached s dev n = some i → (s.buf i).dev = dev ∧ (s.buf i).blockno = n) ∧
      (cached s dev n = none → ∀ i, ¬ ((s.buf i).dev = dev ∧ (s.buf i).blockno = n)) := by
  obtain ⟨l, hr, hl⟩ := h
  have hw : walk s.next NBUF (s.next none) = l := hr.walk_next (by simp [hl.length_eq])
  simp only [cached, hw]
  constructor
  · intro i hi
    simpa using List.find?_some hi
  · intro hn i
    have := List.find?_eq_none.mp hn i (hl.mem_iff.mpr (List.mem_finRange i))
    simpa using this

theorem unused_spec (h : unused s = some i) : (s.buf i).refcnt = 0 ∧ (s.buf i).dirty = false := by
  simpa using List.find?_some h

theorem Listed.unused_ne_none (h : Listed s) (hi : (s.buf i).refcnt = 0)
    (hd : (s.buf i).dirty = false) : unused s ≠ none := by
  obtain ⟨l, hr, hl⟩ := h
  rw [unused, hr.walk_prev (by simp [hl.length_eq]), ne_eq, List.find?_eq_none]
  intro hn
  apply hn i (List.mem_reverse.mpr (hl.mem_iff.mpr (List.mem_finRange i)))
  simp [hi, hd]

theorem Refs.free (h : Refs s) (hi : (s.buf i).refcnt = 0) : (∀ p, (s.pc p).target ≠ some i) ∧ owned s i = false := by
  obtain ⟨calls, hc, hn⟩ := h i
  rw [hi] at hn
  constructor
  · intro p hp
    have : calls = ∅ := Finset.card_eq_zero.mp (by omega)
    simpa [this] using (hc p).mpr hp
  · by_contra ho
    simp [Bool.not_eq_false _ ▸ ho] at hn

structure Kept (b c : Buf) : Prop where
  dev : c.dev = b.dev
  blockno : c.blockno = b.blockno
  refcnt : c.refcnt = b.refcnt
  valid : b.valid = true → c.valid = true
  dirty : c.dirty = true → b.dirty = true ∨ b.valid = true ∧ b.dev = ROOTDEV

theorem Kept.rfl : Kept b b := ⟨Eq.refl _, Eq.refl _, Eq.refl _, id, Or.inl⟩

theorem sync_kept (disk : Disk) (b : Buf) : Kept b (sync disk b).2 := by
  simp only [sync]
  split_ifs
  · exact ⟨Eq.refl _, Eq.refl _, Eq.refl _, fun _ => Eq.refl _, by rintro ⟨⟩⟩
  · exact ⟨Eq.refl _, Eq.refl _, Eq.refl _, fun _ => Eq.refl _, Or.inl⟩

theorem sync_valid (disk : Disk) (b : Buf) : (sync disk b).2.valid = true := by
  simp only [sync]
  split_ifs <;> rfl

theorem Table.kept (h : Table s) (hpc : t.pc = s.pc) (hlock : t.lock = s.lock)
    (hnext : t.next = s.next) (hprev : t.prev = s.prev) (hb : ∀ i, Kept (s.buf i) (t.buf i)) : Table t := by
  have ho : ∀ i, owned t i = owned s i := fun i => by simp only [owned, hpc, hlock]
  refine ⟨⟨?_, ?_, ?_, ?_, ?_⟩, ?_, ?_⟩
  · intro i j hi hj hn
    rw [(hb i).dev] at hi
    rw [(hb j).dev] at hj
    rw [(hb i).blockno, (hb j).blockno] at hn
    exact h.keys.unique i j hi hj hn
  · intro p i n hp
    rw [(hb i).dev, (hb i).blockno]
    exact h.keys.request p i n (hpc ▸ hp)
  · rw [hpc, hlock]
    exact h.keys.locked
  · intro i hi
    obtain ⟨hv, hd⟩ := h.keys.owned i (ho i ▸ hi)
    exact ⟨(hb i).valid hv, (hb i).dev.trans hd⟩
  · intro i hi
    rcases (hb i).dirty hi with hs | ⟨hv, hd⟩
    · obtain ⟨hv, hd⟩ := h.keys.dirty i hs
      exact ⟨(hb i).valid hv, (hb i).dev.trans hd⟩
    · exact ⟨(hb i).valid hv, (hb i).dev.trans hd⟩
  · intro i
    rw [hpc, (hb i).refcnt, ho i]
    exact h.refs i
  · rw [Listed, hnext, hprev]
    exact h.listed

theorem kept_setBuf (h : Kept (s.buf i) b) (j : Fin NBUF) : Kept (s.buf j) ((setBuf s i b).buf j) := by
  by_cases hj : j = i
  · subst hj
    simpa [setBuf] using h
  · simp only [setBuf, update_of_ne hj]
    exact Kept.rfl

theorem Table.diskRw (h : Table s) (ht : diskRw disksize s i = .ok t) :
    Table t ∧ t = setBuf { s with disk := (sync s.disk (s.buf i)).1 } i (sync s.disk (s.buf i)).2 := by
  simp only [Bio.diskRw] at ht
  cases hr : iderw disksize (s.lock i).isSome s.disk (s.buf i) with
  | error e => simp [hr] at ht
  | ok q =>
    obtain ⟨-, rfl⟩ := iderw_ok hr
    rw [hr] at ht
    cases ht
    exact ⟨h.kept rfl rfl rfl rfl (kept_setBuf (sync_kept _ _)), rfl⟩

theorem Table.modified (h : Table s) (i : Fin NBUF) (data : ByteMemory.Bytes) : Table (modify s i data) := by
  apply h.kept (by rfl) (by rfl) (by rfl) (by rfl)
  exact kept_setBuf ⟨rfl, rfl, rfl, id, Or.inl⟩

structure SameKey (b c : Buf) : Prop where
  dev : c.dev = b.dev
  blockno : c.blockno = b.blockno
  valid : c.valid = b.valid
  dirty : c.dirty = b.dirty

theorem sameKey_setBuf (h : SameKey (s.buf i) b) (j : Fin NBUF) : SameKey (s.buf j) ((setBuf s i b).buf j) := by
  by_cases hj : j = i
  · subst hj
    simpa [setBuf] using h
  · simp only [setBuf, update_of_ne hj]
    exact ⟨rfl, rfl, rfl, rfl⟩

theorem refcnt_setBuf (s : Bcache P) (i j : Fin NBUF) (b : Buf) :
    ((setBuf s i b).buf j).refcnt = if i = j then b.refcnt else (s.buf j).refcnt := by
  by_cases hj : i = j
  · subst hj
    simp [setBuf]
  · simp [setBuf, hj, update_of_ne (Ne.symm hj)]

variable [DecidableEq P]

def Pc.count (x : Pc) (i : Fin NBUF) : ℕ := if x.target = some i then 1 else 0

theorem Refs.goto (h : Refs s) (hpc : u.pc = s.pc) (hn : ∀ i, (u.buf i).refcnt + (s.pc p).count i + (owned s i).toNat =
      (s.buf i).refcnt + x.count i + (owned (Bio.goto u p x) i).toNat) : Refs (Bio.goto u p x) := by
  intro i
  obtain ⟨calls, hc, hr⟩ := h i
  have hother : ∀ q, q ≠ p → ((Bio.goto u p x).pc q = s.pc q) := fun q hq => by
    simp [Bio.goto, hpc, update_of_ne hq]
  have hself : (Bio.goto u p x).pc p = x := by simp [Bio.goto]
  have hcard : calls.card = (calls.erase p).card + (s.pc p).count i := by
    by_cases hp : p ∈ calls
    · rw [Pc.count, if_pos ((hc p).mp hp), Finset.card_erase_add_one hp]
    · rw [Pc.count, if_neg (fun ht => hp ((hc p).mpr ht)), Finset.erase_eq_of_notMem hp, Nat.add_zero]
  refine ⟨if x.target = some i then insert p (calls.erase p) else calls.erase p, ?_, ?_⟩
  · intro q
    by_cases hq : q = p
    · subst hq
      rw [hself]
      split_ifs with hx <;> simp [hx]
    · rw [hother q hq, ← hc q]
      split_ifs <;> simp [hq]
  · have hcard' : (if x.target = some i then insert p (calls.erase p) else calls.erase p).card =
        (calls.erase p).card + x.count i := by
      rw [Pc.count]
      split_ifs <;> simp
    have := hn i
    rw [hcard']
    show (u.buf i).refcnt = _
    omega

theorem owned_goto (hpc : u.pc = s.pc) (hlock : u.lock i = s.lock i)
    (hx : x.lockedOn i = (s.pc p).lockedOn i) : owned (goto u p x) i = owned s i := by
  simp only [owned, goto, hlock, hpc]
  cases hl : s.lock i with
  | none => rfl
  | some q =>
    by_cases hq : q = p
    · subst hq
      simp [hx]
    · simp [update_of_ne hq]

theorem Keys.goto (h : Keys s) (hpc : u.pc = s.pc) (hb : ∀ i, SameKey (s.buf i) (u.buf i))
    (hreq : ∀ i n, x.request = some (i, n) → (s.buf i).dev = ROOTDEV ∧ (s.buf i).blockno = n)
    (hlock : ∀ q i, ((Bio.goto u p x).pc q).lockedOn i = true → u.lock i = some q)
    (hown : ∀ i, Bio.owned (Bio.goto u p x) i = true → (s.buf i).valid = true ∧ (s.buf i).dev = ROOTDEV) :
    Keys (Bio.goto u p x) := by
  refine ⟨?_, ?_, hlock, ?_, ?_⟩
  · intro i j hi hj hn
    simp only [Bio.goto, (hb i).dev, (hb j).dev, (hb i).blockno, (hb j).blockno] at hi hj hn
    exact h.unique i j hi hj hn
  · intro q i n hq
    simp only [Bio.goto, (hb i).dev, (hb i).blockno]
    by_cases hqp : q = p
    · subst hqp
      exact hreq i n (by simpa [Bio.goto] using hq)
    · exact h.request q i n (by simpa [Bio.goto, hpc, update_of_ne hqp] using hq)
  · intro i hi
    simp only [Bio.goto, (hb i).valid, (hb i).dev]
    exact hown i hi
  · intro i hi
    simp only [Bio.goto, (hb i).valid, (hb i).dev, (hb i).dirty] at hi ⊢
    exact h.dirty i hi

theorem Keys.goto_counted (h : Keys s) (hpc : u.pc = s.pc) (hl : u.lock = s.lock)
    (hb : ∀ i, SameKey (s.buf i) (u.buf i))
    (hreq : ∀ i n, x.request = some (i, n) → (s.buf i).dev = ROOTDEV ∧ (s.buf i).blockno = n)
    (hx : ∀ i, x.lockedOn i = false) (hp : ∀ i, (s.pc p).lockedOn i = false) : Keys (Bio.goto u p x) := by
  apply h.goto hpc hb hreq
  · intro q i hq
    by_cases hqp : q = p
    · subst hqp
      simp [Bio.goto, hx i] at hq
    · rw [hl]
      exact h.locked q i (by simpa [Bio.goto, hpc, update_of_ne hqp] using hq)
  · intro i hi
    rw [owned_goto hpc (congrFun hl i) ((hx i).trans (hp i).symm)] at hi
    exact h.owned i hi

theorem Table.take (h : Table s) (hp : s.pc p = .idle) (hi : (s.buf i).dev = ROOTDEV ∧ (s.buf i).blockno = n) :
    Table (goto (setBuf s i (incref (s.buf i))) p (.waiting i n)) := by
  have hidle : ∀ j, (s.pc p).lockedOn j = false := fun j => by rw [hp]; rfl
  refine ⟨?_, ?_, h.listed⟩
  · apply h.keys.goto_counted (by rfl) (by rfl)
    · exact sameKey_setBuf ⟨rfl, rfl, rfl, rfl⟩
    · rintro j m hj
      cases hj
      exact hi
    · exact fun _ => rfl
    · exact hidle
  · apply h.refs.goto (by rfl)
    intro j
    have ho : owned (goto (setBuf s i (incref (s.buf i))) p (.waiting i n)) j = owned s j :=
      owned_goto rfl rfl (hidle j).symm
    rw [ho, refcnt_setBuf, hp]
    by_cases hj : i = j
    · simp [Pc.count, Pc.target, incref, hj]
    · simp [Pc.count, Pc.target, hj]

theorem Table.recycle (h : Table s) (hp : s.pc p = .idle)
    (hi : (s.buf i).refcnt = 0) (hn : ∀ j, ¬ ((s.buf j).dev = ROOTDEV ∧ (s.buf j).blockno = n)) :
    Table (goto (setBuf s i (recycle ROOTDEV n (s.buf i))) p (.waiting i n)) := by
  obtain ⟨hcalls, hfree⟩ := h.refs.free hi
  have hidle : ∀ j, (s.pc p).lockedOn j = false := fun j => by rw [hp]; rfl
  have ho : ∀ j, owned (goto (setBuf s i (Bio.recycle ROOTDEV n (s.buf i))) p (.waiting i n)) j = owned s j :=
    fun j => owned_goto rfl rfl (hidle j).symm
  have hbuf : ∀ j, j ≠ i → (setBuf s i (Bio.recycle ROOTDEV n (s.buf i))).buf j = s.buf j := fun j hj =>
    update_of_ne hj _ _
  have hself : (setBuf s i (Bio.recycle ROOTDEV n (s.buf i))).buf i = Bio.recycle ROOTDEV n (s.buf i) :=
    update_self i _ _
  refine ⟨⟨?_, ?_, ?_, ?_, ?_⟩, ?_, h.listed⟩
  · intro j k hj hk hjk
    simp only [goto] at hj hk hjk
    by_cases hji : j = i <;> by_cases hki : k = i
    · rw [hji, hki]
    · subst hji
      rw [hself, hbuf k hki] at hjk
      rw [hbuf k hki] at hk
      exact absurd ⟨hk, hjk.symm⟩ (hn k)
    · subst hki
      rw [hself, hbuf j hji] at hjk
      rw [hbuf j hji] at hj
      exact absurd ⟨hj, hjk⟩ (hn j)
    · rw [hbuf j hji] at hj hjk
      rw [hbuf k hki] at hk hjk
      exact h.keys.unique j k hj hk hjk
  · intro q j m hq
    simp only [goto] at hq ⊢
    by_cases hqp : q = p
    · subst hqp
      rw [update_self] at hq
      cases hq
      rw [hself]
      exact ⟨rfl, rfl⟩
    · rw [update_of_ne hqp] at hq
      have hji : j ≠ i := by
        rintro rfl
        apply hcalls q
        cases hx : (s.pc q) <;> simp_all [setBuf, Pc.request, Pc.target]
      rw [hbuf j hji]
      exact h.keys.request q j m hq
  · intro q j hq
    by_cases hqp : q = p
    · subst hqp
      simp [goto, Pc.lockedOn] at hq
    · exact h.keys.locked q j (by simpa [goto, setBuf, update_of_ne hqp] using hq)
  · intro j hj
    rw [ho j] at hj
    have hji : j ≠ i := by
      rintro rfl
      rw [hfree] at hj
      cases hj
    simp only [goto, hbuf j hji]
    exact h.keys.owned j hj
  · intro j hj
    simp only [goto] at hj ⊢
    by_cases hji : j = i
    · subst hji
      rw [hself] at hj
      cases hj
    · rw [hbuf j hji] at hj ⊢
      exact h.keys.dirty j hj
  · apply h.refs.goto (by rfl)
    intro j
    rw [ho j, refcnt_setBuf, hp]
    by_cases hj : i = j
    · subst hj
      simp [Pc.count, Pc.target, Bio.recycle, hi]
    · simp [Pc.count, Pc.target, hj]

theorem owned_lock (hp : s.pc p = .waiting i n) (hi : s.lock i = none) (j : Fin NBUF) :
    owned (goto { s with lock := update s.lock i (some p) } p (.locked i n)) j = owned s j := by
  by_cases hj : j = i
  · subst hj
    simp [owned, goto, Pc.lockedOn, hi]
  · apply owned_goto (by rfl)
    · simp [update_of_ne hj]
    · simp [hp, Pc.lockedOn, Ne.symm hj]

theorem Table.lock (h : Table s) (hp : s.pc p = .waiting i n) (hi : s.lock i = none) :
    Table (goto { s with lock := update s.lock i (some p) } p (.locked i n)) := by
  have ho := owned_lock hp hi
  refine ⟨?_, ?_, h.listed⟩
  · apply h.keys.goto (by rfl)
    · exact fun _ => ⟨rfl, rfl, rfl, rfl⟩
    · rintro j m hj
      cases hj
      exact h.keys.request p i n (by rw [hp]; rfl)
    · intro q j hq
      by_cases hqp : q = p
      · subst hqp
        have hj : i = j := by simpa [goto, Pc.lockedOn] using hq
        subst hj
        simp
      · have hq' := h.keys.locked q j (by simpa [goto, update_of_ne hqp] using hq)
        have hj : j ≠ i := by
          rintro rfl
          rw [hi] at hq'
          cases hq'
        simpa [update_of_ne hj] using hq'
    · intro j hj
      exact h.keys.owned j (ho j ▸ hj)
  · apply h.refs.goto (by rfl)
    intro j
    rw [ho j, hp]
    simp [Pc.count, Pc.target]

theorem owned_giveBack (hp : s.pc p = .locked i n) {j : Fin NBUF} (hj : j ≠ i) : owned (goto s p .idle) j = owned s j :=
  owned_goto rfl rfl (by simp [hp, Pc.lockedOn, Ne.symm hj])

theorem Table.giveBack (h : Table s) (hp : s.pc p = .locked i n)
    (hi : (s.buf i).valid = true) : Table (goto s p .idle) := by
  have hl := h.keys.locked p i (by rw [hp]; simp [Pc.lockedOn])
  refine ⟨?_, ?_, h.listed⟩
  · apply h.keys.goto (by rfl)
    · exact fun _ => ⟨rfl, rfl, rfl, rfl⟩
    · rintro j m hj
      cases hj
    · intro q j hq
      by_cases hqp : q = p
      · subst hqp
        simp [goto, Pc.lockedOn] at hq
      · exact h.keys.locked q j (by simpa [goto, update_of_ne hqp] using hq)
    · intro j hj
      by_cases hji : j = i
      · subst hji
        exact ⟨hi, (h.keys.request p j n (by rw [hp]; rfl)).1⟩
      · exact h.keys.owned j (owned_giveBack hp hji ▸ hj)
  · apply h.refs.goto (by rfl)
    intro j
    rw [hp]
    by_cases hji : j = i
    · subst hji
      simp [owned, goto, hl, hp, Pc.count, Pc.target, Pc.lockedOn]
    · rw [owned_giveBack hp hji]
      simp [Pc.count, Pc.target, Ne.symm hji]

theorem owned_unlock (hp : owns s p i) {j : Fin NBUF} (hj : j ≠ i) :
    owned (goto { s with lock := update s.lock i none } p (.releasing i)) j = owned s j := by
  apply owned_goto (by rfl)
  · simp [update_of_ne hj]
  · simp [hp.1, Pc.lockedOn]

theorem Table.unlock (h : Table s) (hp : owns s p i) :
    Table (goto { s with lock := update s.lock i none } p (.releasing i)) := by
  have hi : owned (goto { s with lock := update s.lock i none } p (.releasing i)) i = false := by
    simp [owned, goto]
  refine ⟨?_, ?_, h.listed⟩
  · apply h.keys.goto (by rfl)
    · exact fun _ => ⟨rfl, rfl, rfl, rfl⟩
    · rintro j m hj
      cases hj
    · intro q j hq
      by_cases hqp : q = p
      · subst hqp
        simp [goto, Pc.lockedOn] at hq
      · have hq' := h.keys.locked q j (by simpa [goto, update_of_ne hqp] using hq)
        have hj : j ≠ i := by
          rintro rfl
          rw [hp.2] at hq'
          exact hqp (Option.some.inj hq').symm
        simpa [update_of_ne hj] using hq'
    · intro j hj
      by_cases hji : j = i
      · subst hji
        rw [hi] at hj
        cases hj
      · exact h.keys.owned j (owned_unlock hp hji ▸ hj)
  · apply h.refs.goto (by rfl)
    intro j
    rw [hp.1]
    by_cases hji : j = i
    · subst hji
      rw [hi, owned_of_owns hp]
      simp [Pc.count, Pc.target]
    · rw [owned_unlock hp hji]
      simp [Pc.count, Pc.target, Ne.symm hji]

theorem Table.drop (h : Table s) (hp : s.pc p = .releasing i) : Table (brelseRest s p i) := by
  have hidle : ∀ j, (s.pc p).lockedOn j = false := fun j => by rw [hp]; rfl
  have hpos : 0 < (s.buf i).refcnt := by
    apply Nat.pos_of_ne_zero
    intro hz
    exact (h.refs.free hz).1 p (by rw [hp]; rfl)
  have hkeep : ∀ u : Bcache P, u.pc = s.pc → u.lock = s.lock → u.buf = (setBuf s i (decref (s.buf i))).buf → Listed u →
      Table (goto u p .idle) := by
    intro u hpc hlock hbuf hl
    refine ⟨?_, ?_, hl⟩
    · apply h.keys.goto_counted hpc hlock
      · rw [hbuf]
        exact sameKey_setBuf ⟨rfl, rfl, rfl, rfl⟩
      · rintro j m hj
        cases hj
      · exact fun _ => rfl
      · exact hidle
    · apply h.refs.goto hpc
      intro j
      have ho : owned (goto u p .idle) j = owned s j := owned_goto hpc (congrFun hlock j) (hidle j).symm
      rw [ho, hbuf, refcnt_setBuf, hp]
      by_cases hj : i = j
      · subst hj
        simp [Pc.count, Pc.target, decref]
        omega
      · simp [Pc.count, Pc.target, hj]
  simp only [brelseRest]
  split_ifs
  · obtain ⟨l, hr, hl⟩ := h.listed
    have hm : i ∈ l := hl.mem_iff.mpr (List.mem_finRange i)
    exact hkeep (moveToFront _ i) rfl rfl rfl
      ⟨i :: l.erase i, hr.moveToFront hm rfl, (List.perm_cons_erase hm).symm.trans hl⟩
  · exact hkeep _ rfl rfl rfl h.listed

theorem Table.pinned (h : Table s) (hp : owns s p i) : Table (logWrite s i) := by
  apply h.kept (by rfl) (by rfl) (by rfl) (by rfl)
  exact kept_setBuf ⟨rfl, rfl, rfl, id, fun _ => Or.inr (h.keys.owned i (owned_of_owns hp))⟩

theorem bget_cases {dev n : ℕ} (hl : Listed s) (h : bget s p dev n = .ok t) :
    (∃ i, (s.buf i).dev = dev ∧ (s.buf i).blockno = n ∧ t = goto (setBuf s i (incref (s.buf i))) p (.waiting i n)) ∨
      ∃ i, (s.buf i).refcnt = 0 ∧ (s.buf i).dirty = false ∧ (∀ j, ¬ ((s.buf j).dev = dev ∧ (s.buf j).blockno = n)) ∧
        t = goto (setBuf s i (recycle dev n (s.buf i))) p (.waiting i n) := by
  simp only [bget] at h
  split at h
  · next i hc =>
    cases h
    obtain ⟨hd, hb⟩ := (hl.cached_spec dev n).1 i hc
    exact Or.inl ⟨i, hd, hb, rfl⟩
  · next hc =>
    split at h
    · next i hu =>
      cases h
      obtain ⟨hz, hd⟩ := unused_spec hu
      exact Or.inr ⟨i, hz, hd, (hl.cached_spec dev n).2 hc, rfl⟩
    · cases h

theorem breadRest_cases (hs : Table s) (h : breadRest disksize s p i = .ok t) :
    ∃ u, t = goto u p .idle ∧ Table u ∧ (u.buf i).valid = true ∧ u.pc = s.pc ∧ (u = s ∨ (s.buf i).valid = false ∧
        u = setBuf { s with disk := (sync s.disk (s.buf i)).1 } i (sync s.disk (s.buf i)).2) := by
  simp only [breadRest] at h
  split_ifs at h with hv
  · cases h
    exact ⟨s, rfl, hs, hv, rfl, Or.inl rfl⟩
  · cases hr : diskRw disksize s i with
    | error e => simp [hr] at h
    | ok u =>
      simp only [hr, Outcome.ok_bind] at h
      cases h
      obtain ⟨hu, he⟩ := hs.diskRw hr
      refine ⟨u, rfl, hu, ?_, ?_, Or.inr ⟨by simpa using hv, he⟩⟩
      · simp [he, setBuf, sync_valid]
      · rw [he]
        rfl

theorem step_table {e : Event P} (h : Table s) (hs : Transition.Steps (bioStep disksize) s e t) : Table t := by
  simp only [Transition.Steps] at hs
  cases e with
  | bread p n =>
    simp only [bioStep] at hs
    split_ifs at hs with hp
    rcases bget_cases h.listed (Option.some.inj hs) with ⟨i, hd, hn, rfl⟩ | ⟨i, hz, -, hn, rfl⟩
    · exact h.take hp ⟨hd, hn⟩
    · exact h.recycle hp hz hn
  | modify p i data =>
    simp only [bioStep] at hs
    split_ifs at hs
    cases hs
    exact h.modified i data
  | bwrite p i =>
    simp only [bioStep, bwrite] at hs
    split_ifs at hs with hp
    · cases hs
    · exact ((h.pinned hp).diskRw (Option.some.inj hs)).1
  | logWrite p i =>
    simp only [bioStep] at hs
    split_ifs at hs with hp
    cases hs
    exact h.pinned hp
  | brelse p i =>
    simp only [bioStep, brelse] at hs
    split_ifs at hs with hp
    · cases hs
    · cases hs
      exact h.unlock hp
  | advance p =>
    simp only [bioStep, advance] at hs
    split at hs
    · cases hs
    · next i n hp =>
      split_ifs at hs with hi
      cases hs
      exact h.lock hp hi
    · next i n hp =>
      obtain ⟨u, rfl, hu, hv, hpc, -⟩ := breadRest_cases h (Option.some.inj hs)
      exact hu.giveBack (hpc ▸ hp) hv
    · next i hp =>
      cases hs
      exact h.drop hp

omit [DecidableEq P] in
theorem boot_table (disk : Disk) : Table (boot disk : Bcache P) := by
  have hring : ∀ (l k : List (Fin NBUF)) (q : Pointers (Fin NBUF) × Pointers (Fin NBUF)), Ring q.1 q.2 k →
      (l.reverse ++ k).Nodup →
      Ring (l.foldl (fun q i => insert q.1 q.2 i) q).1 (l.foldl (fun q i => insert q.1 q.2 i) q).2
          (l.reverse ++ k) := by
    intro l
    induction l with
    | nil => exact fun k q hq _ => hq
    | cons i l ih =>
      intro k q hq hl
      simp only [List.reverse_cons, List.append_assoc, List.singleton_append] at hl ⊢
      apply ih _ _ (hq.insert ?_) hl
      exact (List.nodup_cons.mp (List.nodup_append.mp hl).2.1).1
  refine ⟨⟨?_, ?_, ?_, ?_, ?_⟩, ?_, ?_⟩
  · intro i j hi
    cases hi
  · intro p i n hp
    cases hp
  · intro p i hp
    cases hp
  · intro i hi
    cases hi
  · intro i hi
    cases hi
  · intro i
    refine ⟨∅, fun p => ?_, rfl⟩
    simp [boot, Pc.target]
  · refine ⟨(List.finRange NBUF).reverse ++ [], hring _ [] _ ⟨⟨rfl, rfl⟩, List.nodup_nil⟩ ?_, ?_⟩
    · simpa using List.nodup_finRange NBUF
    · simp

end Xv6.Bio
