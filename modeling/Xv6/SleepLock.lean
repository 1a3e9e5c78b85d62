import Xv6.Param
import Xv6.SoleHolder
import Xv6.Transition

/-!
One sleep-lock and the processes that run the functions of `sleeplock.c` on it, a statement at a time.
-/

namespace Xv6.SleepLock

open SoleHolder Transition
open Function (update update_self update_of_ne update_eq_self)

inductive Guard
  | iunlock (ref : ℕ)
  | bwrite
  | brelse
  | iderw
  deriving DecidableEq

def Guard.message : Guard → String
  | .iunlock _ => "iunlock"
  | .bwrite => "bwrite"
  | .brelse => "brelse"
  | .iderw => "iderw: buf not locked"

def Guard.rejects : Guard → Bool → Bool
  | .iunlock ref, r => !r || decide (ref < 1)
  | .bwrite, r => !r
  | .brelse, r => !r
  | .iderw, r => !r

inductive Call
  | acquiresleep
  | releasesleep
  | holdingsleep (g : Guard)
  deriving DecidableEq

inductive Pc
  | user
  | enter (c : Call)
  | test
  | asleep
  | woken
  | setLocked
  | setPid
  | acquired
  | clearLocked
  | clearPid
  | wakeup
  | released
  | read (g : Guard)
  | leave (g : Guard) (r : Bool)
  | check (g : Guard) (r : Bool)
  deriving DecidableEq

structure Sys (P : Type) where
  spin : Option P
  locked : Bool
  lkpid : Int32
  pc : P → Pc
  held : P → Bool

variable {P : Type} [DecidableEq P]

def goto (s : Sys P) (p : P) (x : Pc) : Sys P := { s with pc := update s.pc p x }

def Call.body : Call → Pc
  | .acquiresleep => .test
  | .releasesleep => .clearLocked
  | .holdingsleep g => .read g

def Pc.wake : Pc → Pc
  | .asleep => .woken
  | x => x

def advance (pid : P → Int32) (s : Sys P) (p : P) : Option (Outcome (Sys P)) :=
  match s.pc p with
  | .user => none
  | .enter c => if s.spin = none then some (.ok (goto { s with spin := some p } p c.body)) else none
  | .test =>
    -- `sleep` has `ptable.lock` from before it gives `lk->lk` up until the process is asleep
    if s.locked then some (.ok (goto { s with spin := none } p .asleep)) else some (.ok (goto s p .setLocked))
  | .asleep => none
  | .woken => if s.spin = none then some (.ok (goto { s with spin := some p } p .test)) else none
  | .setLocked => some (.ok (goto { s with locked := true } p .setPid))
  | .setPid => some (.ok (goto { s with lkpid := pid p } p .acquired))
  | .acquired => some (.ok (goto { s with spin := none, held := update s.held p true } p .user))
  | .clearLocked =>
    some (.ok (goto { s with locked := false, held := update s.held p false } p .clearPid))
  | .clearPid => some (.ok (goto { s with lkpid := 0 } p .wakeup))
  | .wakeup => some (.ok (goto { s with pc := fun q => (s.pc q).wake } p .released))
  | .released => some (.ok (goto { s with spin := none } p .user))
  | .read g => some (.ok (goto s p (.leave g s.locked)))
  | .leave g r => some (.ok (goto { s with spin := none } p (.check g r)))
  | .check g r => if g.rejects r then some (.error g.message) else some (.ok (goto s p .user))

inductive Event (P : Type)
  | call (p : P) (c : Call)
  | advance (p : P)
  | kill (p : P)

def lockStep (pid : P → Int32) (s : Sys P) : Event P → Option (Outcome (Sys P))
  | .call p c =>
    if s.pc p = .user ∧ (c = .releasesleep → s.held p = true) then some (.ok (goto s p (.enter c))) else none
  | .advance p => advance pid s p
  | .kill p => some (.ok (goto s p (s.pc p).wake))

def boot : Sys P := ⟨none, false, 0, fun _ => .user, fun _ => false⟩

def Pc.inside : Pc → Bool
  | .user | .enter _ | .asleep | .woken | .check _ _ => false
  | _ => true

inductive Role
  | plain
  | free
  | taking
  | giving

def Pc.role : Pc → Role
  | .setLocked | .clearPid => .free
  | .setPid | .acquired => .taking
  | .enter .releasesleep | .clearLocked => .giving
  | _ => .plain

def Fits (o : Option P) (p : P) (held : Bool) : Role → Prop
  | .plain => held = true ↔ o = some p
  | .free => o = none ∧ held = false
  | .taking => o = some p ∧ held = false
  | .giving => o = some p ∧ held = true

structure Owned (pid : P → Int32) (s : Sys P) (o : Option P) : Prop where
  spin : Sole (fun p => (s.pc p).inside) s.spin
  fits : ∀ p, Fits o p (s.held p) (s.pc p).role
  locked : s.locked = o.isSome
  named : ∀ p, o = some p → s.pc p ≠ .setPid → s.lkpid = pid p
  blank : o = none → (∀ p, s.pc p ≠ .clearPid) → s.lkpid = 0

variable {pid : P → Int32} {s t : Sys P} {o : Option P} {p q : P} {x : Pc} {r : Role} {b : Bool}

@[simp] theorem goto_pc_self : (goto s p x).pc p = x := update_self ..

@[simp] theorem goto_held : (goto s p x).held = s.held := rfl

theorem goto_pc_of_ne (h : q ≠ p) : (goto s p x).pc q = s.pc q := update_of_ne h ..

@[simp] theorem Pc.wake_inside : x.wake.inside = x.inside := by
  cases x <;> rfl

@[simp] theorem Pc.wake_role : x.wake.role = x.role := by
  cases x <;> rfl

theorem Pc.inside_of_free (h : x.role = .free) : x.inside = true := by
  cases x with
  | setLocked | clearPid => rfl
  | enter c => cases c <;> cases h
  | _ => cases h

omit [DecidableEq P] in
theorem Fits.owner (h : Fits o p b r) (hb : b = true) : o = some p := by
  cases r with
  | plain => exact h.mp hb
  | free => exact absurd (h.2.symm.trans hb) Bool.false_ne_true
  | taking | giving => exact h.1

omit [DecidableEq P] in
theorem Fits.of_ne (h : Fits (some p) q b r) (hq : q ≠ p) : r = .plain ∧ b = false := by
  have hsome : (some p : Option P) ≠ some q := fun he => hq (Option.some.inj he).symm
  cases r with
  | plain => exact ⟨rfl, by simpa [Fits, hsome] using h⟩
  | free => cases h.1
  | taking | giving => exact absurd h.1 hsome

omit [DecidableEq P] in
theorem Fits.of_none (h : Fits none p b r) : (r = .plain ∨ r = .free) ∧ b = false := by
  cases r with
  | plain => exact ⟨Or.inl rfl, by simpa [Fits] using h⟩
  | free => exact ⟨Or.inr rfl, h.2⟩
  | taking | giving => cases h.1

theorem spin_free (h : Sole (fun q => (s.pc q).inside) s.spin) (hp : (s.pc p).inside = true) (hx : x.inside = false) :
    Sole (fun q => ((goto s p x).pc q).inside) none := by
  rw [(h p).mp hp] at h
  apply h.drop (by simpa using hx)
  intro q hq
  rw [goto_pc_of_ne hq]

theorem spin_take (hs : s.spin = none) (h : Sole (fun q => (s.pc q).inside) s.spin) (hx : x.inside = true) :
    Sole (fun q => ((goto s p x).pc q).inside) (some p) := by
  rw [hs] at h
  apply h.take (by simpa using hx)
  intro q hq
  rw [goto_pc_of_ne hq]

theorem spin_keep (h : Sole (fun q => (s.pc q).inside) s.spin) (hx : x.inside = (s.pc p).inside) :
    Sole (fun q => ((goto s p x).pc q).inside) s.spin := by
  apply h.congr
  intro q
  by_cases hq : q = p
  · rw [hq, goto_pc_self, hx]
  · rw [goto_pc_of_ne hq]

theorem fits_goto {held : P → Bool} (hp : Fits o p (held p) x.role)
    (hother : ∀ q, q ≠ p → Fits o q (held q) (s.pc q).role) (q : P) : Fits o q (held q) ((goto s p x).pc q).role := by
  by_cases hq : q = p
  · rw [hq, goto_pc_self]
    exact hp
  · rw [goto_pc_of_ne hq]
    exact hother q hq

theorem Owned.move {k : Option P} {y : Pc} (h : Owned pid s o) (hp : s.pc p = y)
    (hspin : Sole (fun q => ((goto s p x).pc q).inside) k) (hfits : Fits o p (s.held p) x.role) (hset : y ≠ .setPid)
    (hclear : y ≠ .clearPid) : Owned pid (goto { s with spin := k } p x) o := by
  subst hp
  refine ⟨hspin, fits_goto hfits fun q _ => h.fits q, h.locked, fun q ho hq => ?_, fun ho hq => ?_⟩
  · apply h.named q ho
    by_cases hqp : q = p
    · rwa [hqp]
    · rwa [goto_pc_of_ne hqp] at hq
  · apply h.blank ho
    intro q
    by_cases hqp : q = p
    · rwa [hqp]
    · have := hq q
      rwa [goto_pc_of_ne hqp] at this

omit [DecidableEq P] in
theorem Owned.wake (h : Owned pid s o) : Owned pid { s with pc := fun q => (s.pc q).wake } o := by
  refine ⟨?_, ?_, h.locked, fun q ho hq => ?_, fun ho hq => ?_⟩
  · simpa using h.spin
  · simpa using h.fits
  · apply h.named q ho
    intro hs
    simp [hs, Pc.wake] at hq
  · apply h.blank ho
    intro q hs
    have := hq q
    simp [hs, Pc.wake] at this

theorem Owned.setLocked (h : Owned pid s o) (hp : s.pc p = .setLocked) :
    Owned pid (goto { s with locked := true } p .setPid) (some p) := by
  have hfit := h.fits p
  rw [hp] at hfit
  obtain ⟨rfl, hheld⟩ := hfit
  have hin : (s.pc p).inside = true := by rw [hp]; rfl
  refine ⟨spin_keep h.spin (by rw [hp]; rfl), fits_goto ⟨rfl, hheld⟩ fun q hq => ?_, rfl, ?_, fun he => by cases he⟩
  · -- whoever else knows the lock to be free is inside too
    obtain ⟨hr | hr, hb⟩ := (h.fits q).of_none
    · simp [hr, hb, Fits, Ne.symm hq]
    · exact absurd (h.spin.eq (Pc.inside_of_free hr) hin) hq
  · rintro q ⟨⟩ hq
    exact absurd goto_pc_self hq

theorem Owned.setPid (h : Owned pid s o) (hp : s.pc p = .setPid) :
    Owned pid (goto { s with lkpid := pid p } p .acquired) o := by
  have hfit := h.fits p
  rw [hp] at hfit
  obtain ⟨rfl, hheld⟩ := hfit
  refine ⟨spin_keep h.spin (by rw [hp]; rfl), fits_goto ⟨rfl, hheld⟩ fun q _ => h.fits q, h.locked, ?_,
    fun he => by cases he⟩
  rintro q ⟨⟩ _
  rfl

theorem Owned.acquired (h : Owned pid s o) (hp : s.pc p = .acquired) :
    Owned pid (goto { s with spin := none, held := update s.held p true } p .user) o := by
  have hfit := h.fits p
  rw [hp] at hfit
  obtain ⟨rfl, -⟩ := hfit
  have hspin : Sole (fun q => ((goto s p .user).pc q).inside) none := spin_free h.spin (by rw [hp]; rfl) rfl
  refine ⟨hspin, fits_goto ?_ fun q hq => ?_, h.locked, ?_, fun he => by cases he⟩
  · simp [Fits, Pc.role]
  · simpa only [goto_held, update_of_ne hq] using h.fits q
  · rintro q ⟨⟩ _
    exact h.named p rfl (by simp [hp])

theorem Owned.clearLocked (h : Owned pid s o) (hp : s.pc p = .clearLocked) :
    Owned pid (goto { s with locked := false, held := update s.held p false } p .clearPid) none := by
  have hfit := h.fits p
  rw [hp] at hfit
  obtain ⟨rfl, -⟩ := hfit
  refine ⟨spin_keep h.spin (by rw [hp]; rfl), fits_goto ?_ fun q hq => ?_, rfl, fun q he => (by cases he),
      fun _ hq => ?_⟩
  · simp [Fits, Pc.role]
  · obtain ⟨hr, hb⟩ := (h.fits q).of_ne hq
    simp [hr, hb, Fits, update_of_ne hq]
  · exact absurd goto_pc_self (hq p)

theorem Owned.clearPid (h : Owned pid s o) (hp : s.pc p = .clearPid) :
    Owned pid (goto { s with lkpid := 0 } p .wakeup) o := by
  have hfit := h.fits p
  rw [hp] at hfit
  obtain ⟨rfl, hheld⟩ := hfit
  refine ⟨spin_keep h.spin (by rw [hp]; rfl), fits_goto ?_ fun q _ => h.fits q, h.locked, fun q he => (by cases he),
    fun _ _ => rfl⟩
  simp [Fits, Pc.role, hheld]

def nextOwner (s : Sys P) (p : P) (o : Option P) : Option P :=
  match s.pc p with
  | .setLocked => some p
  | .clearLocked => none
  | _ => o

theorem advance_owned (h : Owned pid s o) (hs : advance pid s p = some (.ok t)) : Owned pid t (nextOwner s p o) := by
  have hfit := h.fits p
  cases hp : s.pc p with
  | user | asleep => simp [advance, hp] at hs
  | enter c =>
    rw [hp] at hfit
    simp only [advance, hp, Option.ite_none_right_eq_some] at hs
    obtain ⟨hnone, hs⟩ := hs
    cases hs
    simp only [nextOwner, hp]
    exact h.move hp (spin_take hnone h.spin (by cases c <;> rfl)) (by cases c <;> exact hfit) (by simp) (by simp)
  | test =>
    rw [hp] at hfit
    simp only [advance, hp] at hs
    simp only [nextOwner, hp]
    split_ifs at hs with hl
    · cases hs
      exact h.move hp (spin_free h.spin (by rw [hp]; rfl) rfl) hfit (by simp) (by simp)
    · cases hs
      have ho : o = none := by
        rw [h.locked] at hl
        simpa using hl
      subst ho
      exact h.move hp (spin_keep h.spin (by rw [hp]; rfl)) ⟨rfl, hfit.of_none.2⟩ (by simp) (by simp)
  | woken =>
    rw [hp] at hfit
    simp only [advance, hp, Option.ite_none_right_eq_some] at hs
    obtain ⟨hnone, hs⟩ := hs
    cases hs
    simp only [nextOwner, hp]
    exact h.move hp (spin_take hnone h.spin rfl) hfit (by simp) (by simp)
  | setLocked =>
    simp only [advance, hp, Option.some.injEq, Except.ok.injEq] at hs
    simpa only [nextOwner, hp, ← hs] using h.setLocked hp
  | setPid =>
    simp only [advance, hp, Option.some.injEq, Except.ok.injEq] at hs
    simpa only [nextOwner, hp, ← hs] using h.setPid hp
  | acquired =>
    simp only [advance, hp, Option.some.injEq, Except.ok.injEq] at hs
    simpa only [nextOwner, hp, ← hs] using h.acquired hp
  | clearLocked =>
    simp only [advance, hp, Option.some.injEq, Except.ok.injEq] at hs
    simpa only [nextOwner, hp, ← hs] using h.clearLocked hp
  | clearPid =>
    simp only [advance, hp, Option.some.injEq, Except.ok.injEq] at hs
    simpa only [nextOwner, hp, ← hs] using h.clearPid hp
  | wakeup =>
    rw [hp] at hfit
    simp only [advance, hp, Option.some.injEq, Except.ok.injEq] at hs
    simp only [nextOwner, hp, ← hs]
    have hw : (s.pc p).wake = .wakeup := by rw [hp]; rfl
    exact h.wake.move hw (spin_keep h.wake.spin (by simp [hp, Pc.wake, Pc.inside])) hfit (by simp) (by simp)
  | released =>
    rw [hp] at hfit
    simp only [advance, hp, Option.some.injEq, Except.ok.injEq] at hs
    simp only [nextOwner, hp, ← hs]
    exact h.move hp (spin_free h.spin (by rw [hp]; rfl) rfl) hfit (by simp) (by simp)
  | read g =>
    rw [hp] at hfit
    simp only [advance, hp, Option.some.injEq, Except.ok.injEq] at hs
    simp only [nextOwner, hp, ← hs]
    exact h.move hp (spin_keep h.spin (by rw [hp]; rfl)) hfit (by simp) (by simp)
  | leave g r =>
    rw [hp] at hfit
    simp only [advance, hp, Option.some.injEq, Except.ok.injEq] at hs
    simp only [nextOwner, hp, ← hs]
    exact h.move hp (spin_free h.spin (by rw [hp]; rfl) rfl) hfit (by simp) (by simp)
  | check g r =>
    rw [hp] at hfit
    simp only [advance, hp] at hs
    simp only [nextOwner, hp]
    split_ifs at hs
    · cases hs
    · cases hs
      exact h.move hp (spin_keep h.spin (by rw [hp]; rfl)) hfit (by simp) (by simp)

theorem step_owned {e : Event P} (h : Owned pid s o) (hs : lockStep pid s e = some (.ok t)) : ∃ o', Owned pid t o' := by
  cases e with
  | advance p => exact ⟨_, advance_owned h hs⟩
  | kill p =>
    have hfit := h.fits p
    cases hs
    by_cases hp : s.pc p = .asleep
    · rw [hp] at hfit ⊢
      exact ⟨o, h.move hp (spin_keep h.spin (by rw [hp]; rfl)) hfit (by simp) (by simp)⟩
    · have hw : (s.pc p).wake = s.pc p := by
        cases hx : s.pc p with
        | asleep => exact absurd hx hp
        | _ => rfl
      rw [goto, hw, update_eq_self]
      exact ⟨o, h⟩
  | call p c =>
    have hfit := h.fits p
    simp only [lockStep, Option.ite_none_right_eq_some] at hs
    obtain ⟨⟨hp, hheld⟩, hs⟩ := hs
    cases hs
    rw [hp] at hfit
    refine ⟨o, h.move hp (spin_keep h.spin (by rw [hp]; rfl)) ?_ (by simp) (by simp)⟩
    cases c with
    | releasesleep => exact ⟨hfit.owner (hheld rfl), hheld rfl⟩
    | acquiresleep => exact hfit
    | holdingsleep g => exact hfit

omit [DecidableEq P] in
theorem boot_owned : Owned pid (boot : Sys P) none :=
  ⟨fun p => by simp [boot, Pc.inside], fun p => by simp [boot, Fits, Pc.role], rfl, fun p he => (by cases he),
    fun _ _ => rfl⟩

theorem run_owned {es : List (Event P)} (hrun : Run (Steps (lockStep pid)) boot es s) : ∃ o, Owned pid s o :=
  hrun.always (I := fun s => ∃ o, Owned pid s o) (fun _ _ _ ⟨_, h⟩ hs => step_owned h hs) ⟨none, boot_owned⟩

def Event.proc : Event P → P
  | .call p _ => p
  | .advance p => p
  | .kill p => p

theorem step_other {e : Event P} (hs : lockStep pid s e = some (.ok t)) (hq : q ≠ e.proc) :
    t.held q = s.held q ∧ (t.pc q = s.pc q ∨ t.pc q = (s.pc q).wake) := by
  cases e with
  | call p c =>
    simp only [lockStep, Option.ite_none_right_eq_some] at hs
    obtain ⟨-, hs⟩ := hs
    cases hs
    exact ⟨rfl, Or.inl (goto_pc_of_ne hq)⟩
  | kill p =>
    cases hs
    exact ⟨rfl, Or.inl (goto_pc_of_ne hq)⟩
  | advance p =>
    simp only [lockStep, advance] at hs
    have hqp : q ≠ p := hq
    split at hs <;> try split_ifs at hs
    all_goals cases hs
    all_goals simp [goto, update_of_ne hqp]

def Pc.told : Pc → Option Bool
  | .leave _ r => some r
  | .check _ r => some r
  | _ => none

@[simp] theorem Pc.wake_told : x.wake.told = x.told := by
  cases x <;> rfl

def Pc.reads : Pc → Bool
  | .read _ => true
  | _ => false

def Told (s : Sys P) : Prop := ∀ p r, (s.pc p).told = some r → r = s.held p

def ReadsAlone (s : Sys P) : Event P → Prop
  | .advance p => (s.pc p).reads = true → ∀ q, q ≠ p → s.held q = false
  | _ => True

instance [Fintype P] (s : Sys P) : ∀ e, Decidable (ReadsAlone s e)
  | .advance p => inferInstanceAs (Decidable ((s.pc p).reads = true → ∀ q, q ≠ p → s.held q = false))
  | .call _ _ => .isTrue trivial
  | .kill _ => .isTrue trivial

theorem Owned.read {g : Guard} (h : Owned pid s o) (hp : s.pc p = .read g) (hq : ∀ q, q ≠ p → s.held q = false) :
    s.locked = true ↔ s.held p = true := by
  have hin : (s.pc p).inside = true := by rw [hp]; rfl
  have hfit := h.fits p
  rw [hp] at hfit
  rw [h.locked, show s.held p = true ↔ o = some p from hfit, Option.isSome_iff_exists]
  refine ⟨?_, fun ho => ⟨p, ho⟩⟩
  rintro ⟨q, rfl⟩
  by_contra hqp
  have hqp : q ≠ p := fun he => hqp (he ▸ rfl)
  have hfit' := h.fits q
  rw [hq q hqp] at hfit'
  -- only a process on its way out of `acquiresleep` has the lock and does not hold it yet
  cases hx : s.pc q with
  | setPid | acquired => exact hqp (h.spin.eq (by rw [hx]; rfl) hin)
  | enter c =>
    rw [hx] at hfit'
    cases c <;> simp [Pc.role, Fits] at hfit'
  | _ =>
    rw [hx] at hfit'
    simp [Pc.role, Fits] at hfit'

theorem step_told {e : Event P} (h : Owned pid s o) (hs : lockStep pid s e = some (.ok t)) (ht : Told s)
    (hc : ReadsAlone s e) : Told t := by
  intro q r hq
  by_cases hqe : q = e.proc
  · cases e with
    | call p c =>
      cases hqe
      simp only [lockStep, Option.ite_none_right_eq_some] at hs
      obtain ⟨-, hs⟩ := hs
      cases hs
      simp [Event.proc, Pc.told] at hq
    | kill p =>
      cases hqe
      cases hs
      exact ht p r (by simpa [Event.proc] using hq)
    | advance p =>
      cases hqe
      cases hp : s.pc p with
      | read g =>
        simp only [lockStep, advance, hp, Option.some.injEq, Except.ok.injEq] at hs
        subst hs
        simp only [Event.proc, goto_pc_self, Pc.told, Option.some.injEq] at hq ⊢
        rw [← hq, Bool.eq_iff_iff]
        exact h.read hp (hc (by rw [hp]; rfl))
      | leave g b =>
        simp only [lockStep, advance, hp, Option.some.injEq, Except.ok.injEq] at hs
        subst hs
        simp only [Event.proc, goto_pc_self] at hq
        exact ht p r (by rw [hp]; exact hq)
      | enter c =>
        simp only [lockStep, advance, hp, Option.ite_none_right_eq_some] at hs
        obtain ⟨-, hs⟩ := hs
        cases hs
        cases c <;> simp [Event.proc, Call.body, Pc.told] at hq
      | _ =>
        -- the other statements tell nothing
        simp only [lockStep, advance, hp] at hs
        try split_ifs at hs
        all_goals cases hs
        all_goals simp [Event.proc, Pc.told] at hq
  · obtain ⟨hheld, hpc⟩ := step_other hs hqe
    rw [hheld]
    apply ht q r
    rcases hpc with hpc | hpc
    · rwa [← hpc]
    · rwa [hpc, Pc.wake_told] at hq

theorem run_told {es : List (Event P)} (hrun : Run (Steps (lockStep pid)) boot es s)
    (hc : Along (Steps (lockStep pid)) ReadsAlone boot es) : Told s := by
  apply (hrun.invariant (I := fun s => (∃ o, Owned pid s o) ∧ Told s) _ hc ⟨⟨none, boot_owned⟩, _⟩).2
  · rintro s e t ⟨⟨o, h⟩, ht⟩ hc hs
    exact ⟨step_owned h hs, step_told h hs ht hc⟩
  · intro p r hp
    cases hp

theorem Guard.rejects_false (g : Guard) : g.rejects false = true := by
  cases g <;> rfl

theorem sleeplock_ownership {es : List (Event P)} (hrun : Run (Steps (lockStep pid)) boot es s)
    (hc : Along (Steps (lockStep pid)) ReadsAlone boot es) :
    (∀ p q, s.held p = true → s.held q = true → p = q) ∧
      (∀ p, s.held p = true → s.locked = true ∧ s.lkpid = pid p) ∧
      (s.spin = none → s.locked = false → s.lkpid = 0) ∧
      ∀ p g r, s.pc p = .check g r → (r = true ↔ s.held p = true) ∧
        (s.held p = false → lockStep pid s (.advance p) = some (.error g.message)) := by
  obtain ⟨o, h⟩ := run_owned hrun
  refine ⟨fun p q hp hq => ?_, fun p hp => ?_, fun hspin hl => ?_, fun p g r hp => ?_⟩
  · exact Option.some.inj (((h.fits p).owner hp).symm.trans ((h.fits q).owner hq))
  · have ho := (h.fits p).owner hp
    refine ⟨by rw [h.locked, ho]; rfl, h.named p ho fun hx => ?_⟩
    have hfit := h.fits p
    rw [hx] at hfit
    rw [hfit.2] at hp
    cases hp
  · apply h.blank
    · rw [h.locked] at hl
      simpa using hl
    · intro p hx
      have hin : (s.pc p).inside = true := by rw [hx]; rfl
      have := (h.spin p).mp hin
      rw [hspin] at this
      cases this
  · have htold := run_told hrun hc p r (by rw [hp]; rfl)
    refine ⟨by rw [htold], fun hheld => ?_⟩
    rw [hheld] at htold
    simp [lockStep, advance, hp, htold, g.rejects_false]

def twoPids (p : Bool) : Int32 := if p then 2 else 1

def takeLock : List (Event Bool) :=
  [.call false .acquiresleep, .advance false, .advance false, .advance false, .advance false, .advance false]

/-- Another process goes to sleep on the lock before its holder is asked. -/
def guardHolder : List (Event Bool) := takeLock ++ [.call true .acquiresleep, .advance true, .advance true,
  .call false (.holdingsleep .brelse), .advance false, .advance false, .advance false]

theorem sleeplock_ownership_guard : ∃ s, Run (Steps (lockStep twoPids)) boot guardHolder s ∧
    s.pc false = .check .brelse true ∧ s.pc true = .asleep ∧ s.held false = true ∧ s.held true = false ∧
    s.locked = true ∧ s.lkpid = twoPids false := by
  have h : (Transition.exec (lockStep twoPids) boot guardHolder).map (fun s => (s.pc false, s.pc true, s.held false)) =
      some (.check .brelse true, .asleep, true) := by
    decide +kernel
  have hc : Along (Steps (lockStep twoPids)) ReadsAlone boot guardHolder := by decide +kernel
  obtain ⟨s, he, hs⟩ := Option.map_eq_some_iff.mp h
  simp only [Prod.mk.injEq] at hs
  obtain ⟨hf, ht, hheld⟩ := hs
  obtain ⟨hone, hnamed, -⟩ := sleeplock_ownership (run_of_exec he) hc
  refine ⟨s, run_of_exec he, hf, ht, hheld, ?_, hnamed false hheld⟩
  rw [← Bool.not_eq_true]
  exact fun htrue => Bool.noConfusion (hone true false htrue hheld)

/-- While one process holds the lock, `brelse` lets every other process pass. -/
theorem brelse_passes_nonholder : ¬ ∀ (es : List (Event Bool)) (s : Sys Bool),
    Run (Steps (lockStep twoPids)) boot es s →
    ∀ p g r, s.pc p = .check g r → (r = true ↔ s.held p = true) ∧
      (s.held p = false → lockStep twoPids s (.advance p) = some (.error g.message)) := by
  intro hall
  have h : (Transition.exec (lockStep twoPids) boot (takeLock ++ [.call true (.holdingsleep .brelse), .advance true,
      .advance true, .advance true])).map (fun s => (s.pc true, s.held true)) =
      some (.check .brelse true, false) := by
    decide +kernel
  obtain ⟨s, he, hs⟩ := Option.map_eq_some_iff.mp h
  simp only [Prod.mk.injEq] at hs
  have := (hall _ s (run_of_exec he) true .brelse true hs.1).1
  rw [hs.2] at this
  exact Bool.false_ne_true (this.mp rfl)

end Xv6.SleepLock
