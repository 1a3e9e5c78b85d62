import Xv6.BufferTable

namespace Xv6.Bio

open LinkedRing MemIde Transition
open Function (update update_self update_of_ne)

variable {P : Type}

structure Coherent (s : Bcache P) : Prop where
  touched : ∀ i, s.touched i = true → owned s i = true
  data : ∀ i, (s.buf i).dev = ROOTDEV → (s.buf i).valid = true → s.touched i = false →
    (s.buf i).data = s.last (s.buf i).blockno
  disk : ∀ n, (∀ i, (s.buf i).dev = ROOTDEV → (s.buf i).blockno = n → (s.buf i).dirty = false) → s.disk n = s.last n

variable {s t : Bcache P} {i : Fin NBUF} {n disksize : ℕ} {p : P}

theorem Coherent.frame (h : Coherent s) (hb : ∀ i, SameKey (s.buf i) (t.buf i))
    (hdata : ∀ i, (t.buf i).data = (s.buf i).data) (htouched : t.touched = s.touched) (hdisk : t.disk = s.disk)
    (hlast : t.last = s.last) (hown : ∀ i, s.touched i = true → owned s i = true → owned t i = true) : Coherent t := by
  refine ⟨?_, ?_, ?_⟩
  · intro i hi
    rw [htouched] at hi
    exact hown i hi (h.touched i hi)
  · intro i hd hv ht
    rw [(hb i).dev] at hd
    rw [(hb i).valid] at hv
    rw [htouched] at ht
    rw [hdata i, hlast, (hb i).blockno]
    exact h.data i hd hv ht
  · intro n hn
    rw [hdisk, hlast]
    apply h.disk n
    intro i hd hb'
    rw [← (hb i).dirty]
    exact hn i ((hb i).dev.trans hd) ((hb i).blockno.trans hb')

theorem Coherent.recycle {s u : Bcache P} (h : Coherent s) (hi : (s.buf i).dirty = false)
    (hu : ∀ j, owned u j = owned s j) (hbuf : u.buf = update s.buf i (Bio.recycle ROOTDEV n (s.buf i)))
    (htouched : u.touched = s.touched) (hdisk : u.disk = s.disk) (hlast : u.last = s.last) : Coherent u := by
  refine ⟨?_, ?_, ?_⟩
  · intro j hj
    rw [htouched] at hj
    rw [hu j]
    exact h.touched j hj
  · intro j hd hv hj
    rw [htouched] at hj
    rw [hlast]
    rw [hbuf] at hd hv ⊢
    by_cases hji : j = i
    · subst hji
      simp [Bio.recycle] at hv
    · rw [update_of_ne hji] at hd hv ⊢
      exact h.data j hd hv hj
  · intro m hm
    rw [hdisk, hlast]
    apply h.disk m
    intro j hd hb
    by_cases hji : j = i
    · rw [hji]
      exact hi
    · have := hm j
      rw [hbuf, update_of_ne hji] at this
      exact this hd hb

theorem Coherent.read (h : Coherent s) (ht : Table s) (hi : (s.buf i).valid = false) :
    Coherent (setBuf { s with disk := (sync s.disk (s.buf i)).1 } i (sync s.disk (s.buf i)).2) := by
  have hclean : (s.buf i).dirty = false := by
    by_contra hd
    rw [Bool.not_eq_false] at hd
    rw [(ht.keys.dirty i hd).1] at hi
    cases hi
  have hsync : sync s.disk (s.buf i) = (s.disk, { s.buf i with data := s.disk (s.buf i).blockno, valid := true }) := by
    simp [sync, hclean]
  rw [hsync]
  refine ⟨h.touched, ?_, ?_⟩
  · intro j hd hv hj
    by_cases hji : j = i
    · subst hji
      simp only [setBuf, update_self] at hd ⊢
      apply h.disk
      intro k hk hkb
      rw [ht.keys.unique k j hk hd hkb]
      exact hclean
    · simp only [setBuf, update_of_ne hji] at hd hv ⊢
      exact h.data j hd hv hj
  · intro m hm
    apply h.disk m
    intro j hd hb
    by_cases hji : j = i
    · rw [hji]
      exact hclean
    · have := hm j
      simp only [setBuf, update_of_ne hji] at this
      exact this hd hb

theorem Coherent.modified (h : Coherent s) (hi : owned s i = true)
    (data : ByteMemory.Bytes) : Coherent (modify s i data) := by
  refine ⟨?_, ?_, ?_⟩
  · intro j hj
    by_cases hji : j = i
    · subst hji
      exact hi
    · exact h.touched j (by simpa [modify, update_of_ne hji] using hj)
  · intro j hd hv hj
    by_cases hji : j = i
    · subst hji
      simp [modify] at hj
    · simp only [modify, setBuf, update_of_ne hji] at hd hv hj ⊢
      exact h.data j hd hv hj
  · intro m hm
    apply h.disk m
    intro j hd hb
    have := hm j
    by_cases hji : j = i
    · subst hji
      simp only [modify, setBuf, update_self] at this
      exact this hd hb
    · simp only [modify, setBuf, update_of_ne hji] at this
      exact this hd hb

theorem Coherent.pinned (h : Coherent s) (ht : Table s) (hi : owned s i = true) : Coherent (logWrite s i) := by
  have hdev := (ht.keys.owned i hi).2
  refine ⟨?_, ?_, ?_⟩
  · intro j hj
    by_cases hji : j = i
    · subst hji
      exact hi
    · exact h.touched j (by simpa [logWrite, record, pin, setBuf, update_of_ne hji] using hj)
  · intro j hd hv hj
    by_cases hji : j = i
    · subst hji
      simp [logWrite, record, pin, setBuf]
    · simp only [logWrite, record, pin, setBuf, update_of_ne hji, update_self] at hd hv hj ⊢
      have hne : (s.buf j).blockno ≠ (s.buf i).blockno := fun he => hji (ht.keys.unique j i hd hdev he)
      rw [update_of_ne hne]
      exact h.data j hd hv hj
  · intro m hm
    have hne : m ≠ (s.buf i).blockno := by
      rintro rfl
      have := hm i
      simp [logWrite, record, pin, setBuf, hdev] at this
    simp only [logWrite, record, pin, setBuf, update_self]
    rw [update_of_ne hne]
    apply h.disk m
    intro j hd hb
    by_cases hji : j = i
    · rw [hji] at hb
      exact absurd hb.symm hne
    · have := hm j
      simp only [logWrite, record, pin, setBuf, update_of_ne hji] at this
      exact this hd hb

theorem Coherent.written (h : Coherent s) (ht : Table s) (hi : (s.buf i).dirty = true) (hu : s.touched i = false) :
    Coherent (setBuf { s with disk := (sync s.disk (s.buf i)).1 } i (sync s.disk (s.buf i)).2) := by
  obtain ⟨hvalid, hdev⟩ := ht.keys.dirty i hi
  have hdata := h.data i hdev hvalid hu
  have hsync : sync s.disk (s.buf i) =
      (update s.disk (s.buf i).blockno (s.buf i).data, { s.buf i with dirty := false, valid := true }) := by
    simp [sync, hi]
  rw [hsync]
  refine ⟨h.touched, ?_, ?_⟩
  · intro j hd hv hj
    by_cases hji : j = i
    · subst hji
      simpa [setBuf] using hdata
    · simp only [setBuf, update_of_ne hji] at hd hv ⊢
      exact h.data j hd hv hj
  · intro m hm
    simp only [setBuf]
    by_cases hmi : m = (s.buf i).blockno
    · subst hmi
      rw [update_self, hdata]
    · rw [update_of_ne hmi]
      apply h.disk m
      intro j hd hb
      by_cases hji : j = i
      · rw [hji] at hb
        exact absurd hb.symm hmi
      · have := hm j
        simp only [setBuf, update_of_ne hji] at this
        exact this hd hb

/-- The buffers that `bget` may not recycle. -/
def busy (s : Bcache P) : Finset (Fin NBUF) :=
  Finset.univ.filter fun i => (s.buf i).refcnt ≠ 0 ∨ (s.buf i).dirty = true

variable [DecidableEq P]

def Written (s : Bcache P) : Event P → Prop
  | .brelse _ i => s.touched i = false
  | _ => True

instance (s : Bcache P) : ∀ e : Event P, Decidable (Written s e)
  | .brelse _ i => inferInstanceAs (Decidable (s.touched i = false))
  | .bread .. | .modify .. | .bwrite .. | .logWrite .. | .advance _ => .isTrue trivial

theorem advance_coherent (ht : Table s) (h : Coherent s) (hs : advance disksize s p = some (.ok t)) : Coherent t := by
  have hsame : ∀ i, SameKey (s.buf i) (s.buf i) := fun _ => ⟨rfl, rfl, rfl, rfl⟩
  simp only [advance] at hs
  split at hs
  · cases hs
  · next i n hp =>
    split_ifs at hs with hi
    cases hs
    refine h.frame hsame (fun _ => rfl) rfl rfl rfl ?_
    intro j _ hj
    rw [owned_lock hp hi]
    exact hj
  · next i n hp =>
    obtain ⟨u, rfl, -, -, hpc, hu⟩ := breadRest_cases ht (Option.some.inj hs)
    have hcu : Coherent u := by
      rcases hu with rfl | ⟨hv, rfl⟩
      · exact h
      · exact h.read ht hv
    refine hcu.frame (fun _ => ⟨rfl, rfl, rfl, rfl⟩) (fun _ => rfl) rfl rfl rfl ?_
    intro j _ hj
    by_cases hji : j = i
    · -- a buffer on which `bread` is about to return is not yet owned
      subst hji
      cases hl : u.lock j with
      | none => simp [owned, hl] at hj
      | some q =>
        by_cases hq : q = p
        · simp [owned, goto, hl, hq, Pc.lockedOn]
        · simpa [owned, goto, hl, update_of_ne hq] using hj
    · rw [owned_giveBack (hpc ▸ hp) hji]
      exact hj
  · next i hp =>
    cases hs
    have hkeep : ∀ u : Bcache P, u.pc = s.pc → u.lock = s.lock → u.buf = (setBuf s i (decref (s.buf i))).buf →
        u.touched = s.touched → u.disk = s.disk → u.last = s.last → Coherent (goto u p .idle) := by
      intro u hpc hlock hbuf htouched hdisk hlast
      refine h.frame ?_ ?_ htouched hdisk hlast ?_
      · show ∀ j, SameKey (s.buf j) (u.buf j)
        rw [hbuf]
        exact sameKey_setBuf ⟨rfl, rfl, rfl, rfl⟩
      · intro j
        show (u.buf j).data = _
        rw [hbuf]
        by_cases hji : j = i
        · subst hji
          simp [setBuf, decref]
        · simp [setBuf, update_of_ne hji]
      · intro j _ hj
        rw [owned_goto hpc (congrFun hlock j) (by simp [hp, Pc.lockedOn])]
        exact hj
    simp only [brelseRest]
    split_ifs
    · exact hkeep (moveToFront _ i) rfl rfl rfl rfl rfl rfl
    · exact hkeep _ rfl rfl rfl rfl rfl rfl

theorem step_coherent {e : Event P} (ht : Table s) (h : Coherent s) (hw : Written s e)
    (hs : Steps (bioStep disksize) s e t) : Coherent t := by
  simp only [Steps] at hs
  cases e with
  | bread p n =>
    simp only [bioStep] at hs
    split_ifs at hs with hp
    have hidle : ∀ j, Pc.lockedOn j (s.pc p) = false := fun j => by rw [hp]; rfl
    rcases bget_cases ht.listed (Option.some.inj hs) with ⟨i, -, -, rfl⟩ | ⟨i, -, hd, -, rfl⟩
    · refine h.frame (sameKey_setBuf ⟨rfl, rfl, rfl, rfl⟩) ?_ rfl rfl rfl ?_
      · intro j
        by_cases hji : j = i
        · subst hji
          simp [goto, setBuf, incref]
        · simp [goto, setBuf, update_of_ne hji]
      · intro j _ hj
        have ho : owned (goto (setBuf s i (incref (s.buf i))) p (.waiting i n)) j = owned s j :=
          owned_goto rfl rfl (hidle j).symm
        exact ho.trans hj
    · refine h.recycle hd ?_ rfl rfl rfl rfl
      intro j
      exact owned_goto rfl rfl (hidle j).symm
  | modify p i data =>
    simp only [bioStep] at hs
    split_ifs at hs with hp
    cases hs
    exact h.modified (owned_of_owns hp) data
  | bwrite p i =>
    simp only [bioStep, bwrite] at hs
    split_ifs at hs with hp
    · cases hs
    · obtain ⟨-, rfl⟩ := (ht.pinned hp).diskRw (Option.some.inj hs)
      apply (h.pinned ht (owned_of_owns hp)).written (ht.pinned hp)
      · simp [logWrite, record, pin, setBuf]
      · simp [logWrite, record, pin, setBuf]
  | logWrite p i =>
    simp only [bioStep] at hs
    split_ifs at hs with hp
    cases hs
    exact h.pinned ht (owned_of_owns hp)
  | brelse p i =>
    simp only [bioStep, brelse] at hs
    split_ifs at hs with hp
    · cases hs
    · cases hs
      refine h.frame (fun _ => ⟨rfl, rfl, rfl, rfl⟩) (fun _ => rfl) rfl rfl rfl ?_
      intro j htj hj
      have hji : j ≠ i := by
        rintro rfl
        rw [show s.touched j = false from hw] at htj
        cases htj
      rw [owned_unlock hp hji]
      exact hj
  | advance p => exact advance_coherent ht h hs

omit [DecidableEq P] in
theorem boot_coherent (disk : Disk) : Coherent (boot disk : Bcache P) where
  touched i h := by cases h
  data i h := by cases h
  disk n _ := rfl

omit [DecidableEq P] in
theorem key_setBuf {b : Buf} (h : b.dev = (s.buf i).dev ∧ b.blockno = (s.buf i).blockno) (j : Fin NBUF) :
    ((setBuf s i b).buf j).dev = (s.buf j).dev ∧ ((setBuf s i b).buf j).blockno = (s.buf j).blockno := by
  by_cases hji : j = i
  · subst hji
    simpa [setBuf] using h
  · simp [setBuf, update_of_ne hji]

theorem step_recycled {e : Event P} (ht : Table s) (hs : Steps (bioStep disksize) s e t) (i : Fin NBUF) :
    ((t.buf i).dev = (s.buf i).dev ∧ (t.buf i).blockno = (s.buf i).blockno) ∨
      (s.buf i).refcnt = 0 ∧ (s.buf i).dirty = false := by
  simp only [Steps] at hs
  cases e with
  | bread p n =>
    simp only [bioStep] at hs
    split_ifs at hs
    rcases bget_cases ht.listed (Option.some.inj hs) with ⟨j, -, -, rfl⟩ | ⟨j, hz, hd, -, rfl⟩
    · exact Or.inl (key_setBuf (b := incref (s.buf j)) ⟨rfl, rfl⟩ i)
    · by_cases hij : i = j
      · subst hij
        exact Or.inr ⟨hz, hd⟩
      · left
        simp [goto, setBuf, update_of_ne hij]
  | modify p j data =>
    simp only [bioStep] at hs
    split_ifs at hs
    cases hs
    exact Or.inl (key_setBuf (b := { s.buf j with data := data }) ⟨rfl, rfl⟩ i)
  | bwrite p j =>
    simp only [bioStep, bwrite] at hs
    split_ifs at hs with hp
    · cases hs
    · obtain ⟨-, rfl⟩ := (ht.pinned hp).diskRw (Option.some.inj hs)
      have hk := sync_kept (logWrite s j).disk ((logWrite s j).buf j)
      obtain ⟨hd, hb⟩ := key_setBuf (s := logWrite s j) ⟨hk.dev, hk.blockno⟩ i
      obtain ⟨hd', hb'⟩ := key_setBuf (s := s) (i := j) (b := { s.buf j with dirty := true }) ⟨rfl, rfl⟩ i
      exact Or.inl ⟨hd.trans hd', hb.trans hb'⟩
  | logWrite p j =>
    simp only [bioStep] at hs
    split_ifs at hs
    cases hs
    exact Or.inl (key_setBuf (b := { s.buf j with dirty := true }) ⟨rfl, rfl⟩ i)
  | brelse p j =>
    simp only [bioStep, brelse] at hs
    split_ifs at hs
    · cases hs
    · cases hs
      exact Or.inl ⟨rfl, rfl⟩
  | advance p =>
    left
    simp only [bioStep, advance] at hs
    split at hs
    · cases hs
    · split_ifs at hs
      cases hs
      exact ⟨rfl, rfl⟩
    · next j n hp =>
      obtain ⟨u, rfl, -, -, -, rfl | ⟨-, rfl⟩⟩ := breadRest_cases ht (Option.some.inj hs)
      · exact ⟨rfl, rfl⟩
      · have hk := sync_kept s.disk (s.buf j)
        exact key_setBuf (s := { s with disk := (sync s.disk (s.buf j)).1 }) ⟨hk.dev, hk.blockno⟩ i
    · next j hp =>
      cases hs
      simp only [brelseRest]
      split_ifs
      · exact key_setBuf (s := s) (b := decref (s.buf j)) ⟨rfl, rfl⟩ i
      · exact key_setBuf (s := s) (b := decref (s.buf j)) ⟨rfl, rfl⟩ i

theorem run_coherent {disk : Disk} {es : List (Event P)} (hrun : Run (Steps (bioStep disksize)) (boot disk) es s)
    (hw : Along (Steps (bioStep disksize)) Written (boot disk) es) : Table s ∧ Coherent s := by
  apply hrun.invariant (C := Written) _ hw ⟨boot_table disk, boot_coherent disk⟩
  intro u e v hu he hs
  exact ⟨step_table hu.1 hs, step_coherent hu.1 hu.2 he hs⟩

theorem bread_returns (ht : Table s) (hc : Coherent s)
    (hp : s.pc p = .locked i n) (hs : Steps (bioStep disksize) s (.advance p) t) :
    owns t p i ∧ (t.buf i).dev = ROOTDEV ∧ (t.buf i).blockno = n ∧ (t.buf i).data = t.last n := by
  have hct := step_coherent ht hc (e := .advance p) trivial hs
  have hs' : some (breadRest disksize s p i) = some (.ok t) := by
    simpa only [Steps, bioStep, advance, hp] using hs
  obtain ⟨u, rfl, hu, hv, hpc, he⟩ := breadRest_cases ht (Option.some.inj hs')
  obtain ⟨hd, hn⟩ := hu.keys.request p i n (by rw [hpc, hp]; rfl)
  have hl := hu.keys.locked p i (by rw [hpc, hp]; simp [Pc.lockedOn])
  have hfree : u.touched i = false := by
    rw [← Bool.not_eq_true]
    intro hti
    have hsi : s.touched i = true := by rcases he with rfl | ⟨-, rfl⟩ <;> exact hti
    have ho := hc.touched i hsi
    have hls := ht.keys.locked p i (by rw [hp]; simp [Pc.lockedOn])
    simp [owned, hls, hp, Pc.lockedOn] at ho
  refine ⟨⟨by simp [goto], hl⟩, hd, hn, ?_⟩
  rw [hct.data i hd hv hfree]
  exact congrArg u.last hn

omit [DecidableEq P] in
theorem exists_unused (h : (busy s).card < NBUF) : ∃ i, (s.buf i).refcnt = 0 ∧ (s.buf i).dirty = false := by
  have hlt : (busy s).card < (Finset.univ : Finset (Fin NBUF)).card := by rwa [Finset.card_fin]
  obtain ⟨i, -, hi⟩ := Finset.exists_mem_notMem_of_card_lt_card hlt
  exact ⟨i, by simpa [busy] using hi⟩

theorem bget_returns (hl : Listed s) (p : P) {dev n : ℕ}
    (h : (busy s).card < NBUF ∨ ∃ i, (s.buf i).dev = dev ∧ (s.buf i).blockno = n) :
    ∃ i t, bget s p dev n = .ok t ∧ t.pc p = .waiting i n := by
  rw [bget]
  cases hc : cached s dev n with
  | some i => exact ⟨i, _, rfl, update_self ..⟩
  | none =>
    have hroom : (busy s).card < NBUF := by
      apply h.resolve_right
      rintro ⟨i, hi⟩
      exact (hl.cached_spec dev n).2 hc i hi
    obtain ⟨j, hj, hjd⟩ := exists_unused hroom
    obtain ⟨i, hi⟩ := Option.ne_none_iff_exists'.mp (hl.unused_ne_none hj hjd)
    rw [hi]
    exact ⟨i, _, rfl, update_self ..⟩

theorem breadRest_returns (ht : Table s)
    (hp : s.pc p = .locked i n) (hn : n < disksize) : ∃ t, breadRest disksize s p i = .ok t := by
  rw [breadRest]
  split_ifs with hv
  · exact ⟨_, rfl⟩
  · obtain ⟨hd, hb⟩ := ht.keys.request p i n (by rw [hp]; rfl)
    have hl := ht.keys.locked p i (by rw [hp]; simp [Pc.lockedOn])
    simp only [diskRw, iderw, hl, hd, hb, hv, Option.isSome_some]
    rw [if_neg (by simp), if_neg (by simp), if_neg (by decide), if_neg (by omega)]
    exact ⟨_, rfl⟩

theorem buffer_cache_coherent {disksize : ℕ} {disk : Disk} {s : Bcache P} {es : List (Event P)}
    (hrun : Run (Steps (bioStep disksize)) (boot disk) es s)
    (hw : Along (Steps (bioStep disksize)) Written (boot disk) es) :
    (∀ i j, (s.buf i).dev = ROOTDEV → (s.buf j).dev = ROOTDEV → (s.buf i).blockno = (s.buf j).blockno → i = j) ∧
      (∃ l, Ring s.next s.prev l ∧ l.Perm (List.finRange NBUF)) ∧
      (∀ e t, Steps (bioStep disksize) s e t → ∀ i,
        ((t.buf i).dev = (s.buf i).dev ∧ (t.buf i).blockno = (s.buf i).blockno) ∨
          (s.buf i).refcnt = 0 ∧ (s.buf i).dirty = false) ∧
      (∀ p n, s.pc p = .idle → (busy s).card < NBUF ∨ (∃ i, (s.buf i).dev = ROOTDEV ∧ (s.buf i).blockno = n) →
        ∃ i t, Steps (bioStep disksize) s (.bread p n) t ∧ t.pc p = .waiting i n) ∧
      (∀ p i n, s.pc p = .waiting i n → s.lock i = none →
        ∃ t, Steps (bioStep disksize) s (.advance p) t ∧ t.pc p = .locked i n) ∧
      ∀ p i n, s.pc p = .locked i n → (n < disksize → ∃ t, Steps (bioStep disksize) s (.advance p) t) ∧
        ∀ t, Steps (bioStep disksize) s (.advance p) t →
          owns t p i ∧ (t.buf i).dev = ROOTDEV ∧ (t.buf i).blockno = n ∧ (t.buf i).data = t.last n := by
  obtain ⟨ht, hc⟩ := run_coherent hrun hw
  refine ⟨ht.keys.unique, ht.listed, fun e t hs i => step_recycled ht hs i, ?_, ?_, ?_⟩
  · intro p n hp hroom
    obtain ⟨i, t, hb, hpc⟩ := bget_returns ht.listed p hroom
    exact ⟨i, t, by simp only [Steps, bioStep, hp, if_true, hb], hpc⟩
  · intro p i n hp hl
    refine ⟨goto { s with lock := update s.lock i (some p) } p (.locked i n), ?_, update_self ..⟩
    simp only [Steps, bioStep, advance, hp, hl, if_true]
  · intro p i n hp
    refine ⟨fun hn => ?_, fun t hs => bread_returns ht hc hp hs⟩
    obtain ⟨t, hb⟩ := breadRest_returns ht hp hn
    exact ⟨t, by simp only [Steps, bioStep, advance, hp, hb]⟩

def firstBuf : Fin NBUF := ⟨0, by decide⟩

def sharedBlock : List (Event Bool) :=
  [.bread true 5, .advance true, .advance true, .modify true firstBuf (ByteMemory.fill 7), .logWrite true firstBuf,
    .bread false 5, .brelse true firstBuf, .advance true, .advance false]

def unwrittenBlock : List (Event Bool) :=
  [.bread true 5, .advance true, .advance true, .modify true firstBuf (ByteMemory.fill 7),
    .bread false 5, .brelse true firstBuf, .advance true, .advance false]

def returnedByte (es : List (Event Bool)) : Option (Pc × UInt8 × UInt8) :=
  (exec (bioStep FSSIZE) (boot fun _ => ByteMemory.zero) es).bind fun s =>
    match bioStep FSSIZE s (.advance false) with
    | some (.ok t) => some (s.pc false, (t.buf firstBuf).data 0, t.last 5 0)
    | _ => none

theorem returnedByte_eq {es : List (Event Bool)} {x : Pc} {a b : UInt8} (h : returnedByte es = some (x, a, b)) :
    ∃ s t : Bcache Bool, Run (Steps (bioStep FSSIZE)) (boot fun _ => ByteMemory.zero) es s ∧
      Steps (bioStep FSSIZE) s (.advance false) t ∧ s.pc false = x ∧ (t.buf firstBuf).data 0 = a ∧ t.last 5 0 = b := by
  obtain ⟨s, he, hs⟩ := Option.bind_eq_some_iff.mp h
  split at hs
  · next t ht =>
    cases hs
    exact ⟨s, t, run_of_exec he, ht, rfl, rfl, rfl⟩
  · cases hs

theorem buffer_cache_coherent_shared : ∃ s t : Bcache Bool,
    Run (Steps (bioStep FSSIZE)) (boot fun _ => ByteMemory.zero) sharedBlock s ∧
      Steps (bioStep FSSIZE) s (.advance false) t ∧ t.last 5 0 = 7 ∧
      owns t false firstBuf ∧ (t.buf firstBuf).data = t.last 5 := by
  have h : returnedByte sharedBlock = some (.locked firstBuf 5, 7, 7) := by decide +kernel
  obtain ⟨s, t, hrun, hs, hp, -, hl⟩ := returnedByte_eq h
  have hw : Along (Steps (bioStep FSSIZE)) Written (boot fun _ => ByteMemory.zero) sharedBlock := by decide +kernel
  obtain ⟨ho, -, -, hd⟩ := ((buffer_cache_coherent hrun hw).2.2.2.2.2 false firstBuf 5 hp).2 t hs
  exact ⟨s, t, hrun, hs, hl, ho, hd⟩

theorem unwritten_block_returned : ¬ ∀ (disk : Disk) (es : List (Event Bool)) (s : Bcache Bool),
    Run (Steps (bioStep FSSIZE)) (boot disk) es s → ∀ p i n t, s.pc p = .locked i n →
      Steps (bioStep FSSIZE) s (.advance p) t → (t.buf i).data = t.last n := by
  intro hall
  have h : returnedByte unwrittenBlock = some (.locked firstBuf 5, 7, 0) := by decide +kernel
  obtain ⟨s, t, hrun, hs, hp, hd, hl⟩ := returnedByte_eq h
  have he := congrFun (hall _ _ s hrun false firstBuf 5 t hp hs) 0
  rw [hd, hl] at he
  cases he

end Xv6.Bio
