import Xv6.InodeCache

namespace Xv6.InodeSlots

open Transition Fs
open Function (update update_self update_of_ne update_eq_self update_apply)

def addrSlot (bn : ℕ) : ℕ := if bn < NDIRECT then bn else NDIRECT

def Covered (d : Dinode) (k : ℕ) : Prop := ∀ bn, bn * BSIZE < k → d.addrs (addrSlot bn) ≠ 0

def NoHoles (d : Dinode) : Prop := Covered d d.size

variable {d e : Dinode} {alloc : ℕ → ℕ+} {off n dev inum : ℕ}

theorem Covered.mono {k m : ℕ} (h : Covered d k) (hm : m ≤ k) : Covered d m :=
  fun bn hb => h bn (hb.trans_le hm)

structure SameFields (d e : Dinode) : Prop where
  type : e.type = d.type
  major : e.major = d.major
  minor : e.minor = d.minor
  nlink : e.nlink = d.nlink
  size : e.size = d.size
  addrs : ∀ k, d.addrs k ≠ 0 → e.addrs k = d.addrs k

theorem SameFields.covered {k : ℕ} (h : SameFields d e) (hd : Covered d k) : Covered e k := by
  intro bn hb
  rw [h.addrs _ (hd bn hb)]
  exact hd bn hb

theorem SameFields.trans {d e f : Dinode} (h : SameFields d e) (h' : SameFields e f) : SameFields d f where
  type := h'.type.trans h.type
  major := h'.major.trans h.major
  minor := h'.minor.trans h.minor
  nlink := h'.nlink.trans h.nlink
  size := h'.size.trans h.size
  addrs k hk := by
    have := h.addrs k hk
    rw [h'.addrs k (this ▸ hk), this]

theorem bmap_spec {bn : ℕ} (h : bmap alloc d bn = .ok e) :
    SameFields d e ∧ e.addrs (addrSlot bn) ≠ 0 ∧ (d.addrs (addrSlot bn) ≠ 0 → e = d) := by
  simp only [bmap] at h
  change (if _ then Except.ok (if d.addrs (addrSlot bn) = 0 then
    { d with addrs := update d.addrs (addrSlot bn) (alloc (addrSlot bn)) } else d) else _) = _ at h
  by_cases hr : bn < NDIRECT ∨ bn - NDIRECT < NINDIRECT
  · rw [if_pos hr] at h
    by_cases hz : d.addrs (addrSlot bn) = 0
    · rw [if_pos hz] at h
      cases h
      refine ⟨⟨rfl, rfl, rfl, rfl, rfl, fun k hk => ?_⟩, by simp, fun hn => absurd hz hn⟩
      apply update_of_ne
      rintro rfl
      exact hk hz
    · rw [if_neg hz] at h
      cases h
      exact ⟨⟨rfl, rfl, rfl, rfl, rfl, fun _ _ => rfl⟩, hz, fun _ => rfl⟩
  · rw [if_neg hr] at h
    cases h

theorem blockLoop_spec (h : blockLoop alloc d off n = .ok e) :
    SameFields d e ∧ (Covered d off → Covered e (off + n)) ∧ (Covered d (off + n) → e = d) := by
  induction n using Nat.strong_induction_on generalizing d off with
  | _ n ih =>
    rw [blockLoop] at h
    by_cases hn : n = 0
    · rw [if_pos hn] at h
      cases h
      subst hn
      exact ⟨⟨rfl, rfl, rfl, rfl, rfl, fun _ _ => rfl⟩, id, fun _ => rfl⟩
    · rw [if_neg hn] at h
      cases hb : bmap alloc d (off / BSIZE) with
      | error m => simp [hb] at h
      | ok c =>
        rw [hb, Outcome.ok_bind] at h
        obtain ⟨hf, hz, hsame⟩ := bmap_spec hb
        have hmod : off % BSIZE < BSIZE := Nat.mod_lt _ (by decide)
        have hdiv : off / BSIZE * BSIZE + off % BSIZE = off := Nat.div_add_mod' off BSIZE
        have hpos : 0 < BSIZE := by decide
        generalize hm : min n (BSIZE - off % BSIZE) = m at h
        have hm0 : 0 < m := by omega
        have hmn : m ≤ n := by omega
        have hend : off + m + (n - m) = off + n := by omega
        obtain ⟨hf', hcov, hsame'⟩ := ih (n - m) (by omega) h
        refine ⟨hf.trans hf', fun hd => ?_, fun hd => ?_⟩
        · rw [← hend]
          apply hcov
          intro bn hbn
          by_cases hlt : bn * BSIZE < off
          · exact hf.covered hd bn hlt
          · -- the block of `off` itself
            have heq : bn = off / BSIZE := by
              apply le_antisymm
              · have : bn * BSIZE < (off / BSIZE + 1) * BSIZE := by
                  rw [Nat.add_mul, Nat.one_mul]
                  omega
                exact Nat.lt_succ_iff.mp (lt_of_mul_lt_mul_right this (Nat.zero_le _))
              · have : off / BSIZE * BSIZE ≤ bn * BSIZE := by omega
                exact le_of_mul_le_mul_right this hpos
            rw [heq]
            exact hz
        · have hcd : c = d := hsame (hd _ (by omega))
          rw [hsame' (by rw [hend, hcd]; exact hd), hcd]

theorem readi_spec (hd : NoHoles d) (h : readi alloc d off n = .ok e) : e = d := by
  simp only [readi] at h
  by_cases hdev : d.type = .dev
  · rw [if_pos hdev] at h
    cases h
    rfl
  · rw [if_neg hdev] at h
    by_cases hoff : d.size < off ∨ 2 ^ 32 ≤ off + n
    · rw [if_pos hoff] at h
      cases h
      rfl
    · rw [if_neg hoff] at h
      apply (blockLoop_spec h).2.2
      apply Covered.mono hd
      split_ifs <;> omega

theorem writei_spec {changed : Bool} (hd : NoHoles d)
    (h : writei alloc d off n = .ok (changed, e)) : NoHoles e ∧ e.type = d.type ∧ (changed = false → e = d) := by
  have hself : Except.ok (false, d) = (Except.ok (changed, e) : Outcome _) →
      NoHoles e ∧ e.type = d.type ∧ (changed = false → e = d) := by
    rintro ⟨⟩
    exact ⟨hd, rfl, fun _ => rfl⟩
  simp only [writei] at h
  by_cases hdev : d.type = .dev
  · rw [if_pos hdev] at h
    exact hself h
  · rw [if_neg hdev] at h
    by_cases hoff : d.size < off ∨ 2 ^ 32 ≤ off + n
    · rw [if_pos hoff] at h
      exact hself h
    · rw [if_neg hoff] at h
      by_cases hmax : MAXFILE * BSIZE < off + n
      · rw [if_pos hmax] at h
        exact hself h
      · rw [if_neg hmax] at h
        cases hl : blockLoop alloc d off n with
        | error m => simp [hl] at h
        | ok c =>
          rw [hl, Outcome.ok_bind] at h
          obtain ⟨hf, hcov, hsame⟩ := blockLoop_spec hl
          by_cases hgrow : 0 < n ∧ c.size < off + n
          · rw [if_pos hgrow] at h
            cases h
            exact ⟨hcov (hd.mono (by omega)), hf.type, by rintro ⟨⟩⟩
          · rw [if_neg hgrow] at h
            have hle : off + n ≤ d.size := by
              have := hf.size
              omega
            have hcd : c = d := hsame (hd.mono hle)
            rw [hcd] at h
            exact hself h

variable {P : Type} {s t : Icache P} {p : P} {i j : Fin NINODE} {x : Pc}

def Pc.on : Pc → Option (Fin NINODE)
  | .load i | .update i | .iput i _ => some i
  | _ => none

def Pc.entering (i : Fin NINODE) : Pc → Bool
  | .load j | .iput j .test | .iput j .release => j = i
  | _ => false

inductive Stage
  | steady
  | dirty
  | cleared
  | dead

def Pc.stage : Pc → Stage
  | .update _ => .dirty
  | .iput _ .truncated => .dirty
  | .iput _ .cleared => .cleared
  | .iput _ .invalidate => .dead
  | _ => .steady

def stage (s : Icache P) (i : Fin NINODE) : Stage :=
  match s.lock i with
  | some p => if (s.pc p).on = some i then (s.pc p).stage else .steady
  | none => .steady

def Agrees (s : Icache P) (i : Fin NINODE) : Stage → Prop
  | .steady => (s.entry i).copy = onDisk s i ∧ (s.entry i).copy.type ≠ .free
  | .dirty => (s.entry i).copy.type ≠ .free ∧ (onDisk s i).type ≠ .free
  | .cleared => (onDisk s i).type ≠ .free
  | .dead => True

structure Cache (s : Icache P) : Prop where
  refs : ∀ i, (s.entry i).ref = s.tokens.countP (fun t => t.2 = i)
  unique : ∀ i j, 0 < (s.entry i).ref → 0 < (s.entry j).ref → (s.entry i).dev = (s.entry j).dev →
    (s.entry i).inum = (s.entry j).inum → i = j
  busy : ∀ p i, (s.pc p).on = some i → s.lock i = some p
  dropping : ∀ p i, s.pc p = .drop i → (p, i) ∈ s.tokens ∧ s.lock i ≠ some p
  held : ∀ p i, s.lock i = some p → (p, i) ∈ s.tokens
  loaded : ∀ p i, s.lock i = some p → (s.pc p).entering i = false → (s.entry i).valid = true
  agrees : ∀ i, 0 < (s.entry i).ref → (s.entry i).valid = true → Agrees s i (stage s i)
  disk : ∀ dev inum, NoHoles (s.dinode dev inum)
  copies : ∀ i, 0 < (s.entry i).ref → (s.entry i).valid = true → NoHoles (s.entry i).copy

theorem Cache.ref_pos (h : Cache s) (ht : (p, i) ∈ s.tokens) : 0 < (s.entry i).ref := by
  rw [h.refs, List.countP_pos_iff]
  exact ⟨(p, i), ht, by simp⟩

theorem Agrees.frame {x : Stage} (h : Agrees s i x) (he : t.entry i = s.entry i)
    (hd : onDisk t i = onDisk s i) : Agrees t i x := by
  cases x <;> simp only [Agrees, he, hd] at h ⊢ <;> exact h

theorem on_of_entering (h : x.entering i = true) : x.on = some i := by
  cases x with
  | iput j ph => cases ph <;> simp_all [Pc.entering, Pc.on]
  | _ => simp_all [Pc.entering, Pc.on]

theorem Cache.recount (h : Cache s) (hpc : t.pc = s.pc) (hlock : t.lock = s.lock)
    (hdisk : t.dinode = s.dinode) (hentry : ∀ i, t.entry i = { s.entry i with ref := (t.entry i).ref })
    (hrefs : ∀ i, (t.entry i).ref = t.tokens.countP (fun t => t.2 = i))
    (hpos : ∀ i, 0 < (t.entry i).ref → 0 < (s.entry i).ref)
    (hheld : ∀ p i, s.lock i = some p → (p, i) ∈ t.tokens)
    (hdrop : ∀ p i, s.pc p = .drop i → (p, i) ∈ t.tokens) : Cache t := by
  have hst : ∀ i, stage t i = stage s i := fun i => by simp only [stage, hpc, hlock]
  have hdev : ∀ i, (t.entry i).dev = (s.entry i).dev := fun i => by rw [hentry i]
  have hinum : ∀ i, (t.entry i).inum = (s.entry i).inum := fun i => by rw [hentry i]
  have hvalid : ∀ i, (t.entry i).valid = (s.entry i).valid := fun i => by rw [hentry i]
  have hcopy : ∀ i, (t.entry i).copy = (s.entry i).copy := fun i => by rw [hentry i]
  have hon : ∀ i, onDisk t i = onDisk s i := fun i => by rw [onDisk, hdisk, hdev, hinum, onDisk]
  refine ⟨hrefs, ?_, ?_, ?_, ?_, ?_, ?_, ?_, ?_⟩
  · intro i j hi hj hd hn
    rw [hdev, hdev] at hd
    rw [hinum, hinum] at hn
    exact h.unique i j (hpos i hi) (hpos j hj) hd hn
  · rw [hpc, hlock]
    exact h.busy
  · intro p i hp
    rw [hpc] at hp
    rw [hlock]
    exact ⟨hdrop p i hp, (h.dropping p i hp).2⟩
  · rw [hlock]
    exact hheld
  · intro p i hl he
    rw [hlock] at hl
    rw [hpc] at he
    rw [hvalid]
    exact h.loaded p i hl he
  · intro i hi hv
    have ha := h.agrees i (hpos i hi) (hvalid i ▸ hv)
    rw [hst]
    cases hx : stage s i <;> rw [hx] at ha <;> simp only [Agrees, hcopy, hon] at ha ⊢ <;> exact ha
  · rw [hdisk]
    exact h.disk
  · intro i hi hv
    rw [hcopy]
    exact h.copies i (hpos i hi) (hvalid i ▸ hv)

theorem entry_setEntry (s : Icache P) (i j : Fin NINODE) (e : Entry) :
    (setEntry s i e).entry j = if j = i then e else s.entry j := by
  simp [setEntry, update_apply]

theorem Cache.addRef (h : Cache s) (hi : 0 < (s.entry i).ref) : Cache (addRef s p i) := by
  have hentry : ∀ j, (InodeSlots.addRef s p i).entry j =
      if j = i then { s.entry i with ref := (s.entry i).ref + 1 } else s.entry j := fun j => entry_setEntry s i j _
  apply h.recount (by rfl) (by rfl) (by rfl)
  · intro j
    rw [hentry]
    split_ifs with hj
    · rw [hj]
    · rfl
  · intro j
    show _ = ((p, i) :: s.tokens).countP _
    rw [List.countP_cons, ← h.refs j, hentry]
    by_cases hj : j = i
    · simp [hj]
    · simp [hj, Ne.symm hj]
  · intro j hj
    rw [hentry] at hj
    split_ifs at hj with hji
    · rw [hji]
      exact hi
    · exact hj
  · exact fun q j hq => List.mem_cons_of_mem _ (h.held q j hq)
  · exact fun q j hq => List.mem_cons_of_mem _ (h.dropping q j hq).1

theorem Cache.unlocked (h : Cache s) (hi : (s.entry i).ref = 0) : s.lock i = none ∧ ∀ p, (p, i) ∉ s.tokens := by
  have ht : ∀ p, (p, i) ∉ s.tokens := fun p hp => (h.ref_pos hp).ne' hi
  refine ⟨?_, ht⟩
  cases hl : s.lock i with
  | none => rfl
  | some p => exact absurd (h.held p i hl) (ht p)

theorem Cache.recycle (h : Cache s) (hi : (s.entry i).ref = 0)
    (hn : ∀ j, ¬ (0 < (s.entry j).ref ∧ (s.entry j).dev = dev ∧ (s.entry j).inum = inum)) :
    Cache (recycle s p i dev inum) := by
  obtain ⟨hlock, htok⟩ := h.unlocked hi
  have hentry : ∀ j, j ≠ i → (InodeSlots.recycle s p i dev inum).entry j = s.entry j := fun j hj =>
    update_of_ne hj _ _
  have hself : (InodeSlots.recycle s p i dev inum).entry i =
      { s.entry i with dev := dev, inum := inum, ref := 1, valid := false } := update_self i _ _
  refine ⟨?_, ?_, h.busy, ?_, ?_, ?_, ?_, h.disk, ?_⟩
  · intro j
    show ((InodeSlots.recycle s p i dev inum).entry j).ref = ((p, i) :: s.tokens).countP _
    rw [List.countP_cons]
    by_cases hj : j = i
    · subst hj
      rw [hself, ← h.refs j, hi]
      simp
    · simp [hentry j hj, h.refs j, Ne.symm hj]
  · intro j k hj hk hd hm
    by_cases hji : j = i <;> by_cases hki : k = i
    · rw [hji, hki]
    · rw [hji, hself, hentry k hki] at hd hm
      rw [hentry k hki] at hk
      exact absurd ⟨hk, hd.symm, hm.symm⟩ (hn k)
    · rw [hki, hself, hentry j hji] at hd hm
      rw [hentry j hji] at hj
      exact absurd ⟨hj, hd, hm⟩ (hn j)
    · rw [hentry j hji] at hj hd hm
      rw [hentry k hki] at hk hd hm
      exact h.unique j k hj hk hd hm
  · intro q j hq
    obtain ⟨ht, hl⟩ := h.dropping q j hq
    exact ⟨List.mem_cons_of_mem _ ht, hl⟩
  · intro q j hq
    exact List.mem_cons_of_mem _ (h.held q j hq)
  · intro q j hq he
    have hji : j ≠ i := by
      rintro rfl
      rw [show s.lock j = some q from hq] at hlock
      cases hlock
    rw [hentry j hji]
    exact h.loaded q j hq he
  · intro j hj hv
    have hji : j ≠ i := by
      rintro rfl
      rw [hself] at hv
      cases hv
    rw [hentry j hji] at hj hv
    apply (h.agrees j hj hv).frame (hentry j hji)
    simp only [onDisk, hentry j hji]
    rfl
  · intro j hj hv
    have hji : j ≠ i := by
      rintro rfl
      rw [hself] at hv
      cases hv
    rw [hentry j hji] at hj hv ⊢
    exact h.copies j hj hv

theorem iget_cache (h : Cache s) (hs : iget s p dev inum = .ok t) : Cache t := by
  simp only [iget] at hs
  split at hs
  · next i hi =>
    cases hs
    have := List.find?_some hi
    simp only [decide_eq_true_eq] at this
    exact h.addRef this.1
  · next hnone =>
    split at hs
    · next i hi =>
      cases hs
      have hz := List.find?_some hi
      simp only [decide_eq_true_eq] at hz
      apply h.recycle hz
      intro j
      simpa using List.find?_eq_none.mp hnone j (List.mem_finRange j)
    · cases hs

section

variable {fs : State}

/-- The slots of the cache behind the counts by inode number. -/
structure Counts (dev : ℕ) (s : Icache P) (fs : State) : Prop where
  within : ∀ i, 0 < (s.entry i).ref → (s.entry i).dev = dev ∧ (s.entry i).inum < fs.sb.ninodes
  same : ∀ i, 0 < (s.entry i).ref →
    fs.ref (s.entry i).inum = (s.entry i).ref ∧ fs.valid (s.entry i).inum = (s.entry i).valid
  cover : ∀ n, 0 < fs.ref n → ∃ i, 0 < (s.entry i).ref ∧ (s.entry i).inum = n

theorem Counts.boot (hs : ∀ i, (s.entry i).ref = 0) (hf : ∀ n, fs.ref n = 0) : Counts dev s fs := by
  refine ⟨fun i hi => ?_, fun i hi => ?_, fun n hn => ?_⟩
  · simp [hs] at hi
  · simp [hs] at hi
  · simp [hf] at hn

def used (s : Icache P) : Finset (Fin NINODE) := {i | 0 < (s.entry i).ref}

theorem Counts.cached_length (h : Counts dev s fs) (hc : Cache s) : (cached fs).length = (used s).card := by
  have hnd : (cached fs).Nodup := List.nodup_range.filter _
  rw [← List.toFinset_card_of_nodup hnd]
  symm
  apply Finset.card_bij fun i _ => (s.entry i).inum
  · intro i hi
    have hi : 0 < (s.entry i).ref := by simpa [used] using hi
    simp [cached, (h.within i hi).2, (h.same i hi).1, hi]
  · intro i hi j hj he
    have hi : 0 < (s.entry i).ref := by simpa [used] using hi
    have hj : 0 < (s.entry j).ref := by simpa [used] using hj
    exact hc.unique i j hi hj ((h.within i hi).1.trans (h.within j hj).1.symm) he
  · intro n hn
    obtain ⟨i, hi, he⟩ := h.cover n (by simpa using (List.mem_filter.mp (List.mem_toFinset.mp hn)).2)
    exact ⟨i, by simpa [used] using hi, he⟩

theorem Counts.set {e : Entry} (h : Counts dev s fs) (ht : ∀ j, t.entry j = if j = i then e else s.entry j)
    (hdev : e.dev = dev) (hn : e.inum < fs.sb.ninodes) (hi : 0 < (s.entry i).ref → (s.entry i).inum = e.inum)
    (hj : ∀ j, j ≠ i → 0 < (s.entry j).ref → (s.entry j).inum ≠ e.inum) :
    Counts dev t { fs with ref := update fs.ref e.inum e.ref, valid := update fs.valid e.inum e.valid } := by
  refine ⟨fun j => ?_, fun j => ?_, fun n hpos => ?_⟩
  · rw [ht]
    split_ifs with he
    · exact fun _ => ⟨hdev, hn⟩
    · exact h.within j
  · rw [ht]
    split_ifs with he
    · exact fun _ => ⟨update_self .., update_self ..⟩
    · intro hpos
      have hne := hj j he hpos
      exact ⟨(update_of_ne hne ..).trans (h.same j hpos).1, (update_of_ne hne ..).trans (h.same j hpos).2⟩
  · dsimp only at hpos
    by_cases he : n = e.inum
    · rw [he, update_self] at hpos
      exact ⟨i, by rw [ht, if_pos rfl]; exact hpos, by rw [ht, if_pos rfl, he]⟩
    · rw [update_of_ne he] at hpos
      obtain ⟨j, hr, rfl⟩ := h.cover n hpos
      have hne : j ≠ i := by
        rintro rfl
        exact he (hi hr)
      exact ⟨j, by rw [ht, if_neg hne]; exact hr, by rw [ht, if_neg hne]⟩

theorem Counts.setRef {k : ℕ} (h : Counts dev s fs) (hc : Cache s) (hi : 0 < (s.entry i).ref)
    (ht : ∀ j, t.entry j = if j = i then { s.entry i with ref := k } else s.entry j) :
    Counts dev t { fs with ref := update fs.ref (s.entry i).inum k } := by
  have hset := h.set ht (h.within i hi).1 (h.within i hi).2 (fun _ => rfl) fun j hne hj he =>
    hne (hc.unique j i hj hi ((h.within j hj).1.trans (h.within i hi).1.symm) he)
  have hv : update fs.valid (s.entry i).inum (s.entry i).valid = fs.valid := by
    rw [← (h.same i hi).2, update_eq_self]
  rwa [hv] at hset

theorem Counts.idup (h : Counts dev s fs) (hc : Cache s) (hi : 0 < (s.entry i).ref) (p : P) :
    Counts dev (addRef s p i) (idup fs (s.entry i).inum) := by
  rw [Fs.idup, (h.same i hi).1]
  exact h.setRef hc hi fun j => entry_setEntry s i j _

theorem Counts.dropRef [DecidableEq P] (h : Counts dev s fs) (hc : Cache s) (hi : 0 < (s.entry i).ref) (p : P) :
    Counts dev (dropRef s p i) (Fs.dropRef fs (s.entry i).inum) := by
  rw [Fs.dropRef, (h.same i hi).1]
  exact h.setRef hc hi fun j => entry_setEntry s i j _

/-- `iget` on the slots does what `iget` on the counts does, and stops where that stops. -/
theorem Counts.iget (h : Counts dev s fs) (hc : Cache s) (hn : inum < fs.sb.ninodes) (p : P) :
    (∃ t fs', iget s p dev inum = .ok t ∧ Fs.iget fs inum = .ok fs' ∧ Counts dev t fs') ∨
      ∃ e, iget s p dev inum = .error e ∧ Fs.iget fs inum = .error e := by
  rw [InodeSlots.iget, Fs.iget]
  cases hl : lookup s dev inum with
  | some i =>
    have hi := List.find?_some hl
    simp only [decide_eq_true_eq] at hi
    obtain ⟨hpos, -, rfl⟩ := hi
    rw [if_pos (by rw [(h.same i hpos).1]; exact hpos)]
    exact Or.inl ⟨_, _, rfl, rfl, h.idup hc hpos p⟩
  | none =>
    have hnone : ∀ j, 0 < (s.entry j).ref → (s.entry j).inum ≠ inum := by
      intro j hj he
      have := List.find?_eq_none.mp hl j (List.mem_finRange j)
      simp [hj, (h.within j hj).1, he] at this
    have hzero : ¬0 < fs.ref inum := by
      intro hpos
      obtain ⟨j, hj, he⟩ := h.cover inum hpos
      exact hnone j hj he
    rw [if_neg hzero, h.cached_length hc]
    cases hempty : empty s with
    | some i =>
      have hi := List.find?_some hempty
      simp only [decide_eq_true_eq] at hi
      have hlt : (used s).card < NINODE := by
        have := Finset.card_lt_univ_of_notMem (s := used s) (x := i) (by simp [used, hi])
        rwa [Fintype.card_fin] at this
      rw [if_neg (by omega)]
      refine Or.inl ⟨_, _, rfl, rfl, ?_⟩
      exact h.set (i := i) (e := { s.entry i with dev := dev, inum := inum, ref := 1, valid := false })
        (fun j => entry_setEntry s i j _) rfl hn (fun hpos => by omega) fun j _ => hnone j
    | none =>
      have hall : used s = Finset.univ := by
        ext j
        have := List.find?_eq_none.mp hempty j (List.mem_finRange j)
        simp only [decide_eq_true_eq] at this
        simp [used, Nat.pos_of_ne_zero this]
      rw [hall, Finset.card_univ, Fintype.card_fin, if_pos le_rfl]
      exact Or.inr ⟨_, rfl, rfl⟩

end

theorem Cache.claim (h : Cache s)
    (hfree : (s.dinode dev inum).type = .free) (hd : d.size = 0) : Cache (setDinode s dev inum d) := by
  have hother : ∀ a b, a ≠ dev ∨ b ≠ inum → (setDinode s dev inum d).dinode a b = s.dinode a b := by
    intro a b hab
    simp only [setDinode]
    by_cases ha : a = dev
    · subst ha
      have hb : b ≠ inum := hab.resolve_left (by simp)
      simp [update_of_ne hb]
    · simp [update_of_ne ha]
  have hself : (setDinode s dev inum d).dinode dev inum = d := by simp [setDinode]
  refine ⟨h.refs, h.unique, h.busy, h.dropping, h.held, h.loaded, ?_, ?_, h.copies⟩
  · intro j hj hv
    have ha := h.agrees j hj hv
    change Agrees (setDinode s dev inum d) j (stage s j)
    by_cases hk : (s.entry j).dev ≠ dev ∨ (s.entry j).inum ≠ inum
    · exact ha.frame rfl (hother _ _ hk)
    · push Not at hk
      have hf : (onDisk s j).type = .free := by rw [onDisk, hk.1, hk.2, hfree]
      cases hst : stage s j with
      | steady =>
        rw [hst] at ha
        exact absurd (ha.1 ▸ hf) ha.2
      | dirty =>
        rw [hst] at ha
        exact absurd hf ha.2
      | cleared =>
        rw [hst] at ha
        exact absurd hf ha
      | dead => trivial
  · intro a b
    by_cases hab : a ≠ dev ∨ b ≠ inum
    · rw [hother a b hab]
      exact h.disk a b
    · push Not at hab
      rw [hab.1, hab.2, hself]
      intro bn hbn
      omega

variable [DecidableEq P]

theorem stage_update (hpc : t.pc = update s.pc p x)
    (hlock : t.lock j = s.lock j) (hx : x.on ≠ some j) (hp : (s.pc p).on ≠ some j) : stage t j = stage s j := by
  simp only [stage, hlock, hpc]
  cases hl : s.lock j with
  | none => rfl
  | some q =>
    by_cases hq : q = p
    · subst hq
      simp [hx, hp]
    · simp [update_of_ne hq]

structure Local (s t : Icache P) (p : P) (i : Fin NINODE) (x : Pc) : Prop where
  pc : t.pc = update s.pc p x
  tokens : t.tokens = s.tokens
  entry : ∀ j, j ≠ i → t.entry j = s.entry j
  key : (t.entry i).dev = (s.entry i).dev ∧ (t.entry i).inum = (s.entry i).inum ∧ (t.entry i).ref = (s.entry i).ref
  lock : ∀ j, j ≠ i → t.lock j = s.lock j
  disk : ∀ dev inum, dev ≠ (s.entry i).dev ∨ inum ≠ (s.entry i).inum → t.dinode dev inum = s.dinode dev inum
  token : (p, i) ∈ s.tokens
  before : s.lock i = some p ∨ s.lock i = none
  after : t.lock i = some p ∨ t.lock i = none
  source : ∀ j, (s.pc p).on = some j → j = i
  target : ∀ j, x.on = some j → j = i ∧ t.lock i = some p

theorem Cache.local (h : Cache s) (hl : Local s t p i x) (hdrop : ∀ j, x = .drop j → j = i ∧ t.lock i = none)
    (hload : t.lock i = some p → x.entering i = false → (t.entry i).valid = true)
    (hagree : (t.entry i).valid = true → Agrees t i (stage t i))
    (hdisk : NoHoles (t.dinode (s.entry i).dev (s.entry i).inum))
    (hcopy : (t.entry i).valid = true → NoHoles (t.entry i).copy) : Cache t := by
  have hi := h.ref_pos hl.token
  have hpc : ∀ q, q ≠ p → t.pc q = s.pc q := fun q hq => by rw [hl.pc, update_of_ne hq]
  have hself : t.pc p = x := by rw [hl.pc, update_self]
  have hkey : ∀ j, (t.entry j).dev = (s.entry j).dev ∧ (t.entry j).inum = (s.entry j).inum ∧
      (t.entry j).ref = (s.entry j).ref := by
    intro j
    by_cases hj : j = i
    · subst hj
      exact hl.key
    · rw [hl.entry j hj]
      exact ⟨rfl, rfl, rfl⟩
  have hlocki : ∀ q, t.lock i = some q → q = p := by
    intro q hq
    rcases hl.after with ha | ha <;> rw [ha] at hq
    · exact (Option.some.inj hq).symm
    · cases hq
  refine ⟨?_, ?_, ?_, ?_, ?_, ?_, ?_, ?_, ?_⟩
  · intro j
    rw [(hkey j).2.2, hl.tokens]
    exact h.refs j
  · intro j k hj hk hd hn
    rw [(hkey j).2.2] at hj
    rw [(hkey k).2.2] at hk
    rw [(hkey j).1, (hkey k).1] at hd
    rw [(hkey j).2.1, (hkey k).2.1] at hn
    exact h.unique j k hj hk hd hn
  · intro q j hq
    by_cases hqp : q = p
    · subst hqp
      rw [hself] at hq
      obtain ⟨rfl, ht⟩ := hl.target j hq
      exact ht
    · rw [hpc q hqp] at hq
      have hb := h.busy q j hq
      by_cases hj : j = i
      · subst hj
        rcases hl.before with hs | hs <;> rw [hs] at hb
        · exact absurd (Option.some.inj hb).symm hqp
        · cases hb
      · rw [hl.lock j hj]
        exact hb
  · intro q j hq
    rw [hl.tokens]
    by_cases hqp : q = p
    · subst hqp
      rw [hself] at hq
      obtain ⟨rfl, hn⟩ := hdrop j hq
      exact ⟨hl.token, by simp [hn]⟩
    · obtain ⟨ht, hn⟩ := h.dropping q j (hpc q hqp ▸ hq)
      refine ⟨ht, ?_⟩
      by_cases hj : j = i
      · subst hj
        exact fun hc => hqp (hlocki q hc)
      · rw [hl.lock j hj]
        exact hn
  · intro q j hq
    rw [hl.tokens]
    by_cases hj : j = i
    · subst hj
      rw [hlocki q hq]
      exact hl.token
    · exact h.held q j (hl.lock j hj ▸ hq)
  · intro q j hq he
    by_cases hj : j = i
    · subst hj
      have hqp := hlocki q hq
      subst hqp
      exact hload hq (hself ▸ he)
    · rw [hl.entry j hj]
      rw [hl.lock j hj] at hq
      apply h.loaded q j hq
      by_cases hqp : q = p
      · subst hqp
        rw [← Bool.not_eq_true]
        exact fun hc => hj (hl.source j (on_of_entering hc))
      · exact hpc q hqp ▸ he
  · intro j hj hv
    by_cases hji : j = i
    · subst hji
      exact hagree hv
    · rw [(hkey j).2.2] at hj
      rw [hl.entry j hji] at hv
      have hst : stage t j = stage s j := stage_update hl.pc (hl.lock j hji) (fun hc => hji (hl.target j hc).1)
        (fun hc => hji (hl.source j hc))
      rw [hst]
      apply (h.agrees j hj hv).frame (hl.entry j hji)
      simp only [onDisk, hl.entry j hji]
      apply hl.disk
      by_contra hc
      push Not at hc
      exact hji (h.unique j i hj hi hc.1 hc.2)
  · intro dev inum
    by_cases hd : dev ≠ (s.entry i).dev ∨ inum ≠ (s.entry i).inum
    · rw [hl.disk dev inum hd]
      exact h.disk dev inum
    · push Not at hd
      rw [hd.1, hd.2]
      exact hdisk
  · intro j hj hv
    by_cases hji : j = i
    · subst hji
      exact hcopy hv
    · rw [(hkey j).2.2] at hj
      rw [hl.entry j hji] at hv ⊢
      exact h.copies j hj hv

theorem Cache.elsewhere (h : Cache s) (hx : x.on = none) (hp : (s.pc p).on = none)
    (hd : ∀ j, x ≠ .drop j) : Cache (goto s p x) := by
  have hpc : ∀ q, q ≠ p → (goto s p x).pc q = s.pc q := fun q hq => update_of_ne hq _ _
  have hself : (goto s p x).pc p = x := by simp [goto]
  refine ⟨h.refs, h.unique, ?_, ?_, h.held, ?_, ?_, h.disk, h.copies⟩
  · intro q j hq
    by_cases hqp : q = p
    · subst hqp
      rw [hself, hx] at hq
      cases hq
    · exact h.busy q j (hpc q hqp ▸ hq)
  · intro q j hq
    by_cases hqp : q = p
    · subst hqp
      exact absurd (hself ▸ hq) (hd j)
    · exact h.dropping q j (hpc q hqp ▸ hq)
  · intro q j hq he
    apply h.loaded q j hq
    by_cases hqp : q = p
    · subst hqp
      rw [← Bool.not_eq_true]
      intro hc
      rw [on_of_entering hc] at hp
      cases hp
    · exact hpc q hqp ▸ he
  · intro j hj hv
    have hst : stage (goto s p x) j = stage s j := stage_update rfl rfl (by simp [hx]) (by simp [hp])
    rw [hst]
    exact (h.agrees j hj hv).frame rfl rfl

theorem countP_erase_token {l : List (P × Fin NINODE)} (h : (p, i) ∈ l) :
    (l.erase (p, i)).countP (fun t => t.2 = i) = l.countP (fun t => t.2 = i) - 1 := by
  simp [List.countP_erase, h]

theorem countP_erase_other {l : List (P × Fin NINODE)} (h : j ≠ i) :
    (l.erase (p, i)).countP (fun t => t.2 = j) = l.countP (fun t => t.2 = j) := by
  simp [List.countP_erase, Ne.symm h]

theorem Cache.keep {p q : P} (h : Cache s) (hp : s.pc p = .idle)
    (hl : s.lock i ≠ some p) (hq : s.lock j = some q ∨ s.pc q = .drop j) : (q, j) ∈ s.tokens.erase (p, i) := by
  have hne : (q, j) ≠ (p, i) := by
    rintro ⟨⟩
    rcases hq with hq | hq
    · exact hl hq
    · rw [hp] at hq
      cases hq
  apply (List.mem_erase_of_ne hne).mpr
  rcases hq with hq | hq
  · exact h.held q j hq
  · exact (h.dropping q j hq).1

theorem Cache.give {p q : P} (h : Cache s) (hp : s.pc p = .idle) (ht : (p, i) ∈ s.tokens) (hl : s.lock i ≠ some p) :
    Cache { s with tokens := (q, i) :: s.tokens.erase (p, i) } := by
  apply h.recount (by rfl) (by rfl) (by rfl)
  · exact fun _ => rfl
  · intro j
    show (s.entry j).ref = ((q, i) :: s.tokens.erase (p, i)).countP _
    rw [List.countP_cons]
    by_cases hij : i = j
    · subst hij
      have hpos := h.ref_pos ht
      rw [countP_erase_token ht, ← h.refs i]
      simp only [decide_true, if_true]
      omega
    · rw [countP_erase_other (Ne.symm hij), ← h.refs j]
      simp [hij]
  · exact fun _ hj => hj
  · exact fun r j hr => List.mem_cons_of_mem _ (h.keep hp hl (Or.inl hr))
  · exact fun r j hr => List.mem_cons_of_mem _ (h.keep hp hl (Or.inr hr))

theorem Cache.dropRef (h : Cache s) (hp : s.pc p = .idle)
    (ht : (p, i) ∈ s.tokens) (hl : s.lock i ≠ some p) : Cache (dropRef s p i) := by
  have hentry : ∀ j, (InodeSlots.dropRef s p i).entry j =
      if j = i then { s.entry i with ref := (s.entry i).ref - 1 } else s.entry j := fun j => entry_setEntry s i j _
  apply h.recount (by rfl) (by rfl) (by rfl)
  · intro j
    rw [hentry]
    split_ifs with hj
    · rw [hj]
    · rfl
  · intro j
    show _ = (s.tokens.erase (p, i)).countP _
    rw [hentry]
    split_ifs with hj
    · subst hj
      rw [countP_erase_token ht, ← h.refs j]
    · rw [countP_erase_other hj, ← h.refs j]
  · intro j hj
    rw [hentry] at hj
    split_ifs at hj with hji
    · rw [hji]
      exact h.ref_pos ht
    · exact hj
  · exact fun r j hr => h.keep hp hl (Or.inl hr)
  · exact fun r j hr => h.keep hp hl (Or.inr hr)

theorem Cache.drop (h : Cache s) (hp : s.pc p = .drop i) : Cache (goto (InodeSlots.dropRef s p i) p .idle) := by
  obtain ⟨ht, hl⟩ := h.dropping p i hp
  have hg : Cache (goto s p .idle) := h.elsewhere rfl (by rw [hp]; rfl) (by rintro _ ⟨⟩)
  exact hg.dropRef (by simp [goto]) ht hl

omit [DecidableEq P] in
theorem stage_locked (h : s.lock i = some p) :
    stage s i = if (s.pc p).on = some i then (s.pc p).stage else .steady := by
  simp only [stage, h]

theorem Cache.local_lock {v : Option P} (h : Cache s) (ht : (p, i) ∈ s.tokens) (hv : v = some p ∨ v = none)
    (hb : s.lock i = some p ∨ s.lock i = none) (hsource : ∀ j, (s.pc p).on = some j → j = i)
    (htarget : ∀ j, x.on = some j → j = i ∧ v = some p) (hdrop : ∀ j, x = .drop j → j = i ∧ v = none)
    (hload : v = some p → x.entering i = false → (s.entry i).valid = true)
    (hsteady : stage s i = .steady) (hx : x.stage = .steady) : Cache (goto (setLock s i v) p x) := by
  have hl : (goto (setLock s i v) p x).lock i = v := by simp [goto, setLock]
  refine h.local (p := p) (i := i) (x := x) ⟨rfl, rfl, fun _ _ => rfl, ⟨rfl, rfl, rfl⟩, ?_, fun _ _ _ => rfl, ht, hb,
      ?_,
    hsource, ?_⟩ ?_ ?_ ?_ (h.disk _ _) (h.copies i (h.ref_pos ht))
  · intro j hj
    simp [goto, setLock, update_of_ne hj]
  · rw [hl]
    exact hv
  · rw [hl]
    exact htarget
  · rw [hl]
    exact hdrop
  · rw [hl]
    exact hload
  · intro hval
    have hst : stage (goto (setLock s i v) p x) i = .steady := by
      rcases hv with rfl | rfl
      · rw [stage_locked hl]
        simp [goto, hx]
      · simp [stage, hl]
    have ha := h.agrees i (h.ref_pos ht) hval
    rw [hsteady] at ha
    rw [hst]
    exact ha

theorem Cache.local_entry {e : Entry} (h : Cache s) (hl : s.lock i = some p)
    (hkey : e.dev = (s.entry i).dev ∧ e.inum = (s.entry i).inum ∧ e.ref = (s.entry i).ref)
    (hsource : ∀ j, (s.pc p).on = some j → j = i) (htarget : ∀ j, x.on = some j → j = i) (hdrop : ∀ j, x ≠ .drop j)
    (hload : x.entering i = false → e.valid = true)
    (hagree : e.valid = true → Agrees (setEntry s i e) i (if x.on = some i then x.stage else .steady))
    (hcopy : e.valid = true → NoHoles e.copy) : Cache (goto (setEntry s i e) p x) := by
  have he : (goto (setEntry s i e) p x).entry i = e := by simp [goto, setEntry]
  refine h.local (p := p) (i := i) (x := x) ⟨rfl, rfl, ?_, ?_, fun _ _ => rfl, fun _ _ _ => rfl, h.held p i hl,
      Or.inl hl,
    Or.inl hl, hsource, fun j hj => ⟨htarget j hj, hl⟩⟩ (fun j hj => absurd hj (hdrop j)) ?_ ?_ (h.disk _ _) ?_
  · intro j hj
    simp [goto, setEntry, update_of_ne hj]
  · rw [he]
    exact hkey
  · intro _ hx
    rw [he]
    exact hload hx
  · intro hv
    rw [he] at hv
    have hst : stage (goto (setEntry s i e) p x) i = if x.on = some i then x.stage else .steady := by
      rw [stage_locked (show (goto (setEntry s i e) p x).lock i = some p from hl)]
      simp [goto]
    rw [hst]
    exact (hagree hv).frame rfl rfl
  · rw [he]
    exact hcopy

theorem Cache.local_iupdate (h : Cache s) (hl : s.lock i = some p) (hv : (s.entry i).valid = true)
    (hsource : ∀ j, (s.pc p).on = some j → j = i) (htarget : ∀ j, x.on = some j → j = i) (hdrop : ∀ j, x ≠ .drop j)
    (hagree : x.on = some i ∧ x.stage = .dead ∨ (s.entry i).copy.type ≠ .free ∧ x.stage = .steady) :
    Cache (goto (iupdate s i) p x) := by
  have hdisk : (goto (iupdate s i) p x).dinode (s.entry i).dev (s.entry i).inum = (s.entry i).copy := by
    simp [goto, iupdate, setDinode]
  refine h.local (p := p) (i := i) (x := x) ⟨rfl, rfl, fun _ _ => rfl, ⟨rfl, rfl, rfl⟩, fun _ _ => rfl, ?_,
      h.held p i hl,
    Or.inl hl, Or.inl hl, hsource, fun j hj => ⟨htarget j hj, hl⟩⟩ (fun j hj => absurd hj (hdrop j))
        (fun _ _ => hv) ?_ ?_
    (h.copies i (h.ref_pos (h.held p i hl)))
  · intro dev inum hne
    simp only [goto, iupdate, setDinode]
    by_cases hd : dev = (s.entry i).dev
    · subst hd
      simp [update_of_ne (hne.resolve_left (by simp))]
    · simp [update_of_ne hd]
  · intro _
    have hst : stage (goto (iupdate s i) p x) i = if x.on = some i then x.stage else .steady := by
      rw [stage_locked (show (goto (iupdate s i) p x).lock i = some p from hl)]
      simp [goto]
    rw [hst]
    rcases hagree with ⟨ho, hx⟩ | ⟨hf, hx⟩
    · rw [if_pos ho, hx]
      trivial
    · rw [hx, ite_self]
      exact ⟨hdisk.symm, hf⟩
  · rw [hdisk]
    exact h.copies i (h.ref_pos (h.held p i hl)) hv

theorem callStep_cache {e : Event P} (h : Cache s) (hp : s.pc e.proc = .idle)
    (hs : callStep s e = some (.ok t)) : Cache t := by
  have hsource : ∀ {q : P} {i : Fin NINODE}, s.pc q = .idle → ∀ j, (s.pc q).on = some j → j = i := by
    intro q i hq j hj
    rw [hq] at hj
    cases hj
  -- what a process outside its calls finds under a lock that it holds
  have hheld : ∀ {q : P} {i : Fin NINODE}, s.pc q = .idle → s.lock i = some q →
      (s.entry i).valid = true ∧ Agrees s i .steady ∧ NoHoles (s.entry i).copy := by
    intro q i hq hl
    have hpos := h.ref_pos (h.held q i hl)
    have hv := h.loaded q i hl (by rw [hq]; rfl)
    have ha := h.agrees i hpos hv
    rw [stage_locked hl, hq] at ha
    exact ⟨hv, ha, h.copies i hpos hv⟩
  cases e with
  | iget p dev inum => exact iget_cache h (Option.some.inj hs)
  | idup p i =>
    simp only [callStep] at hs
    split_ifs at hs with ht
    cases hs
    exact h.addRef (h.ref_pos ht)
  | give p q i =>
    simp only [callStep] at hs
    split_ifs at hs with ht
    cases hs
    exact h.give hp ht.1 ht.2
  | ialloc p dev inum type =>
    simp only [callStep] at hs
    split_ifs at hs with hf
    cases hs
    have hp : s.pc p = .idle := hp
    apply (h.claim hf.1 rfl).elsewhere rfl
    · show (s.pc p).on = none
      rw [hp]
      rfl
    · rintro _ ⟨⟩
  | ilock p i =>
    have hp : s.pc p = .idle := hp
    simp only [callStep] at hs
    split_ifs at hs with ht hr
    · cases hs
    · cases hs
      apply h.local_lock ht.1 (Or.inl rfl) (Or.inr ht.2) (hsource hp)
      · rintro j ⟨⟩
        exact ⟨rfl, rfl⟩
      · rintro _ ⟨⟩
      · simp [Pc.entering]
      · simp [stage, ht.2]
      · rfl
  | iunlock p i =>
    have hp : s.pc p = .idle := hp
    simp only [callStep] at hs
    split_ifs at hs with hl
    cases hs
    have hg : setLock s i none = goto (setLock s i none) p .idle := by
      simp only [goto, setLock, ← hp, update_eq_self]
    rw [hg]
    apply h.local_lock (h.held p i hl) (Or.inr rfl) (Or.inl hl) (hsource hp)
    · rintro _ ⟨⟩
    · rintro _ ⟨⟩
    · rintro ⟨⟩
    · rw [stage_locked hl, hp]
      rfl
    · rfl
  | setFields p i major minor nlink =>
    have hp : s.pc p = .idle := hp
    simp only [callStep] at hs
    split_ifs at hs with hl
    cases hs
    obtain ⟨hv, ⟨hd, hf⟩, hn⟩ := hheld hp hl
    refine h.local_entry hl ⟨rfl, rfl, rfl⟩ (hsource hp) ?_ (by rintro _ ⟨⟩) (fun _ => hv) (fun _ => ?_) (fun _ => hn)
    · rintro j ⟨⟩
      rfl
    · simp only [Pc.on, if_true, Pc.stage, Agrees, onDisk, setEntry, update_self]
      exact ⟨hf, fun hc => hf (hd ▸ hc)⟩
  | readi p i off n alloc =>
    have hp : s.pc p = .idle := hp
    simp only [callStep] at hs
    split_ifs at hs with hl
    obtain ⟨-, -, hn⟩ := hheld hp hl
    cases hr : readi alloc (s.entry i).copy off n with
    | error m => simp [hr] at hs
    | ok d =>
      simp only [hr, Outcome.ok_bind, readi_spec hn hr] at hs
      cases hs
      have hsame : setCopy s i (s.entry i).copy = s := by simp [setCopy, setEntry]
      rw [hsame]
      exact h
  | writei p i off n alloc =>
    have hp : s.pc p = .idle := hp
    simp only [callStep] at hs
    split_ifs at hs with hl
    obtain ⟨hv, ⟨hd, hf⟩, hn⟩ := hheld hp hl
    cases hr : writei alloc (s.entry i).copy off n with
    | error m => simp [hr] at hs
    | ok q =>
      obtain ⟨changed, d⟩ := q
      obtain ⟨hnd, htype, hsame⟩ := writei_spec hn hr
      simp only [hr, Outcome.ok_bind] at hs
      cases hs
      refine h.local_entry hl ⟨rfl, rfl, rfl⟩ (hsource hp) ?_ ?_ (fun _ => hv) (fun _ => ?_) (fun _ => hnd)
      · cases changed
        · rintro _ ⟨⟩
        · rintro j ⟨⟩
          rfl
      · cases changed <;> rintro _ ⟨⟩
      · cases changed with
        | true =>
          simp only [if_true, Pc.on, Pc.stage, Agrees, onDisk, setEntry, update_self]
          exact ⟨htype ▸ hf, fun hc => hf (hd ▸ hc)⟩
        | false =>
          simp only [Pc.on, reduceCtorEq, if_false, Bool.false_eq_true, Agrees, onDisk, setEntry, update_self]
          rw [hsame rfl]
          exact ⟨hd, hf⟩
  | iput p i =>
    have hp : s.pc p = .idle := hp
    simp only [callStep] at hs
    split_ifs at hs with ht
    cases hs
    apply h.local_lock ht.1 (Or.inl rfl) (Or.inr ht.2) (hsource hp)
    · rintro j ⟨⟩
      exact ⟨rfl, rfl⟩
    · rintro _ ⟨⟩
    · simp [Pc.entering]
    · simp [stage, ht.2]
    · rfl
  | advance p => cases hs

theorem load_cache (h : Cache s) (hp : s.pc p = .load i) (hs : load s p i = .ok t) : Cache t := by
  have hl : s.lock i = some p := h.busy p i (by rw [hp]; rfl)
  have hpos := h.ref_pos (h.held p i hl)
  have hsource : ∀ j, (s.pc p).on = some j → j = i := by
    rw [hp]
    rintro j ⟨⟩
    rfl
  simp only [load] at hs
  split_ifs at hs with hv hf
  · cases hs
    have ha := h.agrees i hpos hv
    rw [stage_locked hl, hp] at ha
    have hg : goto s p .idle = goto (setEntry s i (s.entry i)) p .idle := by simp [goto, setEntry]
    rw [hg]
    refine h.local_entry hl ⟨rfl, rfl, rfl⟩ hsource (by rintro _ ⟨⟩) (by rintro _ ⟨⟩) (fun _ => hv) (fun _ => ?_)
        (h.copies i hpos)
    simp only [Pc.on, reduceCtorEq, if_false]
    have hs : setEntry s i (s.entry i) = s := by simp [setEntry]
    rw [hs]
    simpa [Pc.on, Pc.stage] using ha
  · cases hs
    refine h.local_entry hl ⟨rfl, rfl, rfl⟩ hsource (by rintro _ ⟨⟩) (by rintro _ ⟨⟩) (fun _ => rfl) (fun _ => ?_)
        (fun _ => h.disk _ _)
    simp only [Pc.on, reduceCtorEq, if_false, Agrees, onDisk, setEntry, update_self]
    exact ⟨trivial, hf⟩

theorem iputStep_cache {ph : Phase} (h : Cache s) (hp : s.pc p = .iput i ph) : Cache (iputStep s p i ph) := by
  have hl : s.lock i = some p := h.busy p i (by rw [hp]; rfl)
  have ht := h.held p i hl
  have hpos := h.ref_pos ht
  have hsource : ∀ j, (s.pc p).on = some j → j = i := by
    rw [hp]
    rintro j ⟨⟩
    rfl
  have htarget : ∀ ph' j, Pc.on (.iput i ph') = some j → j = i := by
    rintro ph' j ⟨⟩
    rfl
  have hst : stage s i = Pc.stage (.iput i ph) := by
    rw [stage_locked hl, hp]
    simp [Pc.on]
  have hagree : (s.entry i).valid = true → Agrees s i (Pc.stage (.iput i ph)) := fun hv => hst ▸ h.agrees i hpos hv
  have hloaded := h.loaded p i hl
  rw [hp] at hloaded
  have hsame : setEntry s i (s.entry i) = s := by simp [setEntry]
  cases ph with
  | test =>
    have hg : iputStep s p i .test = goto (setEntry s i (s.entry i)) p (.iput i
        (if (s.entry i).valid ∧ (s.entry i).copy.nlink = 0 ∧ (s.entry i).ref = 1 then .truncate else .release)) := by
      rw [hsame]
      rfl
    rw [hg]
    refine h.local_entry hl ⟨rfl, rfl, rfl⟩ hsource (htarget _) (by rintro _ ⟨⟩) ?_ (fun hv => ?_) (h.copies i hpos)
    · split_ifs with hlast
      · exact fun _ => hlast.1
      · simp [Pc.entering]
    · rw [hsame]
      split_ifs <;> exact hagree hv
  | truncate =>
    have hv := hloaded rfl
    obtain ⟨hd, hf⟩ : Agrees s i .steady := hagree hv
    refine h.local_entry hl ⟨rfl, rfl, rfl⟩ hsource (htarget _) (by rintro _ ⟨⟩) (fun _ => hv) (fun _ => ?_)
        (fun _ => ?_)
    · simp only [Pc.on, if_true, Pc.stage, Agrees, onDisk, setEntry, update_self]
      exact ⟨hf, fun hc => hf (hd ▸ hc)⟩
    · intro bn hbn
      exact absurd hbn (Nat.not_lt_zero _)
  | truncated =>
    have hv := hloaded rfl
    obtain ⟨hf, -⟩ : Agrees s i .dirty := hagree hv
    exact h.local_iupdate hl hv hsource (htarget _) (by rintro _ ⟨⟩) (Or.inr ⟨hf, rfl⟩)
  | clear =>
    have hv := hloaded rfl
    obtain ⟨hd, hf⟩ : Agrees s i .steady := hagree hv
    refine h.local_entry hl ⟨rfl, rfl, rfl⟩ hsource (htarget _) (by rintro _ ⟨⟩) (fun _ => hv) (fun _ => ?_)
        (fun _ => h.copies i hpos hv)
    simp only [Pc.on, if_true, Pc.stage, Agrees, onDisk, setEntry, update_self]
    exact fun hc => hf (hd ▸ hc)
  | cleared => exact h.local_iupdate hl (hloaded rfl) hsource (htarget _) (by rintro _ ⟨⟩) (Or.inl ⟨rfl, rfl⟩)
  | invalidate =>
    refine h.local_entry hl ⟨rfl, rfl, rfl⟩ hsource (htarget _) (by rintro _ ⟨⟩) ?_ (by rintro ⟨⟩) (by rintro ⟨⟩)
    simp [Pc.entering]
  | release =>
    apply h.local_lock ht (Or.inr rfl) (Or.inl hl) hsource
    · rintro _ ⟨⟩
    · rintro j ⟨⟩
      exact ⟨rfl, rfl⟩
    · rintro ⟨⟩
    · rw [hst]
      rfl
    · rfl

theorem step_cache {e : Event P} (h : Cache s) (hs : Steps icacheStep s e t) : Cache t := by
  simp only [Steps, icacheStep] at hs
  split at hs
  · next p =>
    simp only [advance] at hs
    split at hs
    · cases hs
    · next dev inum hp =>
      have hg : Cache (goto s p .idle) := h.elsewhere rfl (by rw [hp]; rfl) (by rintro _ ⟨⟩)
      exact iget_cache hg (Option.some.inj hs)
    · next i hp => exact load_cache h hp (Option.some.inj hs)
    · next i hp =>
      cases hs
      have hl : s.lock i = some p := h.busy p i (by rw [hp]; rfl)
      have hv := h.loaded p i hl (by rw [hp]; rfl)
      have ha := h.agrees i (h.ref_pos (h.held p i hl)) hv
      rw [stage_locked hl, hp] at ha
      simp only [Pc.on, if_true, Pc.stage] at ha
      refine h.local_iupdate hl hv ?_ (by rintro _ ⟨⟩) (by rintro _ ⟨⟩) (Or.inr ⟨ha.1, rfl⟩)
      rw [hp]
      rintro j ⟨⟩
      rfl
    · next i ph hp =>
      cases hs
      exact iputStep_cache h hp
    · next i hp =>
      cases hs
      exact h.drop hp
  · next hp => exact callStep_cache h hp hs
  · cases hs

omit [DecidableEq P] in
theorem boot_cache {dinode : ℕ → ℕ → Dinode} (h : ∀ dev inum, NoHoles (dinode dev inum)) :
    Cache (boot dinode : Icache P) := by
  refine ⟨?_, ?_, ?_, ?_, ?_, ?_, ?_, h, ?_⟩
  · intro i
    rfl
  · intro i j hi
    exact absurd hi (lt_irrefl 0)
  · rintro _ _ ⟨⟩
  · rintro _ _ ⟨⟩
  · rintro _ _ ⟨⟩
  · rintro _ _ ⟨⟩
  · intro i hi
    exact absurd hi (lt_irrefl 0)
  · intro i hi
    exact absurd hi (lt_irrefl 0)

theorem inode_cache_write_through {dinode : ℕ → ℕ → Dinode} (hdisk : ∀ dev inum, NoHoles (dinode dev inum))
    {es : List (Event P)} {s : Icache P} (hrun : Run (Steps icacheStep) (boot dinode) es s) :
    (∀ i j, 0 < (s.entry i).ref → 0 < (s.entry j).ref → (s.entry i).dev = (s.entry j).dev →
      (s.entry i).inum = (s.entry j).inum → i = j) ∧
      ∀ i, 0 < (s.entry i).ref → (s.entry i).valid = true → s.lock i = none →
        (s.entry i).copy = s.dinode (s.entry i).dev (s.entry i).inum := by
  have h : Cache s := hrun.always (fun s e t hs hstep => step_cache hs hstep) (boot_cache hdisk)
  refine ⟨h.unique, fun i hi hv hl => ?_⟩
  have ha := h.agrees i hi hv
  rw [stage, hl] at ha
  exact ha.1

def firstEntry : Fin NINODE := ⟨0, by decide⟩

def createFile : List (Event Bool) :=
  [.ialloc true 1 2 .file, .advance true, .ilock true firstEntry, .advance true, .iget false 1 2,
    .setFields true firstEntry 0 0 1, .advance true, .iunlock true firstEntry]

theorem inode_cache_write_through_create : ∃ s : Icache Bool,
    Run (Steps icacheStep) (boot fun _ _ => ⟨.free, 0, 0, 0, 0, fun _ => 0⟩) createFile s ∧
      (s.entry firstEntry).ref = 2 ∧ (s.entry firstEntry).copy.nlink = 1 ∧
      (s.entry firstEntry).copy = s.dinode (s.entry firstEntry).dev (s.entry firstEntry).inum := by
  have h : (exec icacheStep (boot fun _ _ => ⟨.free, 0, 0, 0, 0, fun _ => 0⟩) createFile).map
      (fun s => ((s.entry firstEntry).ref, (s.entry firstEntry).valid, s.lock firstEntry,
          (s.entry firstEntry).copy.nlink)) =
      some (2, true, none, 1) := by decide +kernel
  obtain ⟨s, he, hs⟩ := Option.map_eq_some_iff.mp h
  obtain ⟨hr, hv, hl, hn⟩ : (s.entry firstEntry).ref = 2 ∧ (s.entry firstEntry).valid = true ∧
      s.lock firstEntry = none ∧ (s.entry firstEntry).copy.nlink = 1 := by simpa using hs
  have hrun := run_of_exec he
  have hdisk : ∀ _ _ : ℕ, NoHoles ⟨.free, 0, 0, 0, 0, fun _ => 0⟩ := fun _ _ bn hbn => absurd hbn (Nat.not_lt_zero _)
  exact ⟨s, hrun, hr, hn, (inode_cache_write_through hdisk hrun).2 firstEntry (by omega) hv hl⟩

end Xv6.InodeSlots
