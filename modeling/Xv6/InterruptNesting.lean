import Xv6.Spinlock

namespace Xv6.Spinlock

open Transition
open Function (update update_self update_of_ne)

variable {K P L : Type}

structure Nested (s : Machine K P L) : Prop where
  finite : ∀ k, (held s k).Finite
  count : ∀ k, (s.cpu k).ncli = (held s k).ncard
  off : ∀ k, 0 < (s.cpu k).ncli → (s.cpu k).flIf = false
  running : ∀ k p, s.proc k = some p → s.context p = .running
  one : ∀ k k' p, s.proc k = some p → s.proc k' = some p → k = k'
  intena : ∀ k b, s.before (thread s k) = some b → (s.cpu k).intena = b
  idle : ∀ k, (s.cpu k).ncli = 0 → s.before (thread s k) = none
  away : ∀ p i b, s.context p = .sched i → s.before (.inl p) = some b → i = b
  fresh : ∀ p, s.context p = .forkret → s.before (.inl p) = none
  left : ∀ k p, s.proc k = some p → s.before (.inr k) = none

variable {s t : Machine K P L} {k : K} {l : L} {p : P}

theorem Start.nested (h : Start s) : Nested s := by
  have hheld (k : K) : held s k = ∅ := by
    ext l
    simp [held, Holds, h.lock]
  refine ⟨fun k => ?_, fun k => ?_, fun k hk => ?_, h.running, h.one, fun k b hb => ?_, fun k _ => h.before _,
    fun p i b _ hb => ?_, fun p _ => h.before _, fun k _ _ => h.before _⟩
  · rw [hheld]
    exact Set.finite_empty
  · rw [hheld, Set.ncard_empty, h.ncli]
    rfl
  · rw [h.ncli] at hk
    exact absurd hk (lt_irrefl 0)
  · rw [h.before] at hb
    cases hb
  · rw [h.before] at hb
    cases hb

theorem Nested.thread_ne (h : Nested s) {k k' : K} (hne : k' ≠ k) : thread s k' ≠ thread s k := by
  intro he
  simp only [thread] at he
  cases hk : s.proc k with
  | none =>
    rw [hk] at he
    cases hk' : s.proc k' with
    | none =>
      rw [hk'] at he
      exact hne (Sum.inr.inj he)
    | some p =>
      rw [hk'] at he
      cases he
  | some p =>
    rw [hk] at he
    cases hk' : s.proc k' with
    | none =>
      rw [hk'] at he
      cases he
    | some q =>
      rw [hk'] at he
      exact hne (h.one k' k p (Sum.inl.inj he ▸ hk') hk)

theorem thread_of_some (hp : s.proc k = some p) : thread s k = .inl p := by
  rw [thread, hp]

theorem thread_of_none (hp : s.proc k = none) : thread s k = .inr k := by
  rw [thread, hp]

theorem Nested.ncli_nonneg (h : Nested s) (k : K) : 0 ≤ (s.cpu k).ncli := by
  rw [h.count k]
  exact Int.natCast_nonneg _

theorem Nested.ncli_pos (h : Nested s) (hl : Holds s k l) : 0 < (s.cpu k).ncli := by
  rw [h.count k]
  exact Int.natCast_pos.mpr ((Set.ncard_pos (h.finite k)).mpr ⟨l, hl⟩)

theorem popcli_cases {c c' : Cpu} (h : popcli c = .ok c') : c.flIf = false ∧ 1 ≤ c.ncli ∧
    c' = { c with ncli := c.ncli - 1, flIf := decide (c.ncli - 1 = 0) && c.intena } := by
  simp only [popcli] at h
  split_ifs at h with h1 h2
  cases h
  exact ⟨by simpa using h1, by omega, rfl⟩

theorem popcli_pushcli {c : Cpu} (h : 0 ≤ c.ncli) (hoff : 0 < c.ncli → c.flIf = false) :
    popcli (pushcli c) = .ok { c with intena := if c.ncli = 0 then c.flIf else c.intena } := by
  simp only [popcli, pushcli, Bool.false_eq_true, if_false, add_sub_cancel_right]
  rw [if_neg (by omega)]
  by_cases h0 : c.ncli = 0
  · simp [h0]
  · simp [h0, hoff (by omega)]

theorem Nested.popcli_ok (h : Nested s) (hl : Holds s k l) : ∃ c, popcli (s.cpu k) = .ok c := by
  have hpos := h.ncli_pos hl
  rw [popcli, h.off k hpos, if_neg Bool.false_ne_true, if_neg (by omega)]
  exact ⟨_, rfl⟩

def PopcliPanic (e : String) : Prop := e = "popcli - interruptible" ∨ e = "popcli"

variable [DecidableEq K]

theorem Nested.onCpu (h : Nested s) {c : Cpu} {lock : L → Lock K} {before : P ⊕ K → Option Bool}
    (hother : ∀ k', k' ≠ k → ∀ l, (lock l).locked = true ∧ (lock l).cpu = some k' ↔ Holds s k' l)
    (hfin : {l | (lock l).locked = true ∧ (lock l).cpu = some k}.Finite)
    (hcount : c.ncli = {l | (lock l).locked = true ∧ (lock l).cpu = some k}.ncard)
    (hoff : 0 < c.ncli → c.flIf = false) (hkeep : ∀ x, x ≠ thread s k → before x = s.before x)
    (hmine : ∀ b, before (thread s k) = some b → c.intena = b) (hidle : c.ncli = 0 → before (thread s k) = none) :
    Nested { s with cpu := update s.cpu k c, lock := lock, before := before } := by
  have hheld (k' : K) (hne : k' ≠ k) : {l | (lock l).locked = true ∧ (lock l).cpu = some k'} = held s k' := by
    ext l
    exact hother k' hne l
  have haway (x : P ⊕ K) (hx : ∀ k', thread s k' ≠ x) : before x = s.before x := hkeep x fun he => hx k he.symm
  have hproc (p : P) (hp : s.context p ≠ .running) (k' : K) : thread s k' ≠ .inl p := by
    simp only [thread]
    cases hk : s.proc k' with
    | none => exact Sum.inr_ne_inl
    | some q =>
      rintro ⟨⟩
      exact hp (h.running k' p hk)
  refine ⟨fun k' => ?_, fun k' => ?_, fun k' hpos => ?_, h.running, h.one, fun k' b hb => ?_, fun k' h0 => ?_,
    fun p i b hp hb => ?_, fun p hp => ?_, fun k' p hp => ?_⟩
  · by_cases hne : k' = k
    · subst hne
      exact hfin
    · show {l | (lock l).locked = true ∧ (lock l).cpu = some k'}.Finite
      rw [hheld k' hne]
      exact h.finite k'
  · by_cases hne : k' = k
    · subst hne
      simp only [update_self]
      exact hcount
    · show (update s.cpu k c k').ncli = ({l | (lock l).locked = true ∧ (lock l).cpu = some k'}.ncard : ℤ)
      rw [update_of_ne hne, hheld k' hne]
      exact h.count k'
  · by_cases hne : k' = k
    · subst hne
      simp only [update_self] at hpos ⊢
      exact hoff hpos
    · simp only [update_of_ne hne] at hpos ⊢
      exact h.off k' hpos
  · by_cases hne : k' = k
    · subst hne
      simp only [update_self]
      exact hmine b hb
    · simp only [update_of_ne hne]
      exact h.intena k' b ((hkeep _ (h.thread_ne hne)).symm.trans hb)
  · by_cases hne : k' = k
    · subst hne
      simp only [update_self] at h0
      exact hidle h0
    · simp only [update_of_ne hne] at h0
      exact (hkeep _ (h.thread_ne hne)).trans (h.idle k' h0)
  · exact h.away p i b hp ((haway _ (hproc p (by rw [hp]; rintro ⟨⟩))).symm.trans hb)
  · exact (haway _ (hproc p (by rw [hp]; rintro ⟨⟩))).trans (h.fresh p hp)
  · refine (haway _ fun k'' he => ?_).trans (h.left k' p hp)
    simp only [thread] at he
    cases hk : s.proc k'' with
    | none =>
      rw [hk] at he
      cases he
      rw [hp] at hk
      cases hk
    | some q =>
      rw [hk] at he
      cases he

theorem holding_eq_true (h : holding s k l = .ok true) : Holds s k l := by
  simp only [holding] at h
  split_ifs at h with h1 h2
  · cases h
  · exact ⟨by simpa using h1, of_decide_eq_true (Except.ok.inj h)⟩

theorem Nested.myproc (h : Nested s) (k : K) : ∃ c, c.ncli = (s.cpu k).ncli ∧ c.flIf = (s.cpu k).flIf ∧
    myproc s k = .ok (setCpu s k c) ∧ Nested (setCpu s k c) := by
  refine ⟨{ s.cpu k with intena := if (s.cpu k).ncli = 0 then (s.cpu k).flIf else (s.cpu k).intena }, rfl, rfl, ?_, ?_⟩
  · rw [Spinlock.myproc, popcli_pushcli (h.ncli_nonneg k) (h.off k)]
    rfl
  · refine h.onCpu (fun _ _ _ => Iff.rfl) (h.finite k) (h.count k) (h.off k) (fun _ _ => rfl) (fun b hb => ?_)
        (h.idle k)
    by_cases h0 : (s.cpu k).ncli = 0
    · rw [h.idle k h0] at hb
      cases hb
    · exact (if_neg h0).trans (h.intena k b hb)

theorem holding_error {e : String} (h : holding s k l = .error e) : ¬PopcliPanic e := by
  simp only [holding] at h
  split_ifs at h
  cases h
  simp [PopcliPanic]

section

variable [DecidableEq L]

theorem acquire_cases (h : acquire s k l = some (.ok t)) : (s.lock l).locked = false ∧
    t = { setCpu s k (pushcli (s.cpu k)) with lock := update s.lock l ⟨true, some k⟩ } := by
  simp only [acquire] at h
  split at h
  · cases h
  · cases h
  · split_ifs at h with hl
    cases h
    exact ⟨Bool.eq_false_iff.mpr hl, rfl⟩

theorem release_cases (h : release s k l = .ok t) : Holds s k l ∧ ∃ c, popcli (s.cpu k) = .ok c ∧
    t = { setCpu s k c with lock := update s.lock l ⟨false, none⟩ } := by
  obtain ⟨b, hb, h⟩ := Outcome.bind_eq_ok.mp h
  cases b with
  | false => cases h
  | true =>
    obtain ⟨c, hc, h⟩ := Outcome.bind_eq_ok.mp h
    cases h
    exact ⟨holding_eq_true hb, c, hc, rfl⟩

theorem held_acquire (hl : (s.lock l).locked = false) (k' : K) :
    {x | (update s.lock l ⟨true, some k⟩ x).locked = true ∧ (update s.lock l ⟨true, some k⟩ x).cpu = some k'} =
      if k' = k then insert l (held s k') else held s k' := by
  ext x
  by_cases hx : x = l
  · subst hx
    by_cases hk : k' = k
    · simp [hk]
    · simp [hk, Ne.symm hk, held, Holds, hl]
  · simp only [Set.mem_ofPred_eq, update_of_ne hx]
    split_ifs with hk
    · rw [Set.mem_insert_iff, or_iff_right hx]
      rfl
    · rfl

theorem held_release (hl : Holds s k l) (k' : K) :
    {x | (update s.lock l ⟨false, none⟩ x).locked = true ∧ (update s.lock l ⟨false, none⟩ x).cpu = some k'} =
      if k' = k then held s k' \ {l} else held s k' := by
  ext x
  by_cases hx : x = l
  · subst hx
    by_cases hk : k' = k
    · simp [hk]
    · have hno : ¬Holds s k' x := fun h => hk (Option.some.inj (h.2.symm.trans hl.2))
      simp [hk, held, hno]
  · simp only [Set.mem_ofPred_eq, update_of_ne hx]
    split_ifs with hk
    · rw [Set.mem_sdiff, Set.mem_singleton_iff, and_iff_left hx]
      rfl
    · rfl

end

variable [DecidableEq P]

theorem Nested.leave (h : Nested s) (hp : s.proc k = some p) (hpos : 0 < (s.cpu k).ncli) : Nested
    { s with proc := update s.proc k none, context := update s.context p (.sched (s.cpu k).intena) } := by
  have hother (k' : K) (q : P) (hk : update s.proc k none k' = some q) : k' ≠ k ∧ q ≠ p ∧ s.proc k' = some q := by
    by_cases hne : k' = k
    · subst hne
      rw [update_self] at hk
      cases hk
    · rw [update_of_ne hne] at hk
      exact ⟨hne, fun he => hne (h.one k' k p (he ▸ hk) hp), hk⟩
  have hthread (k' : K) (hne : k' ≠ k) : thread { s with
      proc := update s.proc k none
      context := update s.context p (.sched (s.cpu k).intena) } k' = thread s k' := by
    simp only [thread, update_of_ne hne]
  have hself : thread { s with
      proc := update s.proc k none
      context := update s.context p (.sched (s.cpu k).intena) } k = .inr k :=
    thread_of_none (by simp)
  refine ⟨h.finite, h.count, h.off, fun k' q hq => ?_, fun k' k'' q hq hq' => ?_, fun k' b hb => ?_, fun k' h0 => ?_,
    fun q i b hq hb => ?_, fun q hq => ?_, fun k' q hq => ?_⟩
  · obtain ⟨-, hne, hq⟩ := hother k' q hq
    exact (update_of_ne hne _ _).trans (h.running k' q hq)
  · exact h.one k' k'' q (hother k' q hq).2.2 (hother k'' q hq').2.2
  · by_cases hne : k' = k
    · subst hne
      rw [hself] at hb
      rw [h.left k' p hp] at hb
      cases hb
    · rw [hthread k' hne] at hb
      exact h.intena k' b hb
  · by_cases hne : k' = k
    · subst hne
      exact absurd h0 hpos.ne'
    · rw [hthread k' hne]
      exact h.idle k' h0
  · by_cases hne : q = p
    · subst hne
      simp only [update_self, Context.sched.injEq] at hq
      rw [← hq]
      exact h.intena k b (by rw [thread_of_some hp]; exact hb)
    · simp only [update_of_ne hne] at hq
      exact h.away q i b hq hb
  · by_cases hne : q = p
    · subst hne
      simp only [update_self] at hq
      cases hq
    · simp only [update_of_ne hne] at hq
      exact h.fresh q hq
  · exact h.left k' q (hother k' q hq).2.2

theorem Nested.switchTo (h : Nested s) (hk : s.proc k = none) (hpos : 0 < (s.cpu k).ncli)
    (hp : s.context p ≠ .running) :
    Nested (switchTo s k p) ∧ ∀ i, s.context p = .sched i → ((switchTo s k p).cpu k).intena = i := by
  have hcpu : ∀ k', ((Spinlock.switchTo s k p).cpu k').ncli = (s.cpu k').ncli ∧
      ((Spinlock.switchTo s k p).cpu k').flIf = (s.cpu k').flIf := by
    intro k'
    by_cases hne : k' = k
    · subst hne
      simp only [Spinlock.switchTo, update_self]
      cases s.context p <;> exact ⟨rfl, rfl⟩
    · simp only [Spinlock.switchTo, update_of_ne hne, and_self]
  have hintena (i : Bool) (hi : s.context p = .sched i) : ((Spinlock.switchTo s k p).cpu k).intena = i := by
    simp only [Spinlock.switchTo, update_self, hi]
  have hother (k' : K) (q : P) (hq : (Spinlock.switchTo s k p).proc k' = some q) :
      k' = k ∧ q = p ∨ k' ≠ k ∧ q ≠ p ∧ s.proc k' = some q := by
    by_cases hne : k' = k
    · subst hne
      simp only [Spinlock.switchTo, update_self, Option.some.injEq] at hq
      exact Or.inl ⟨rfl, hq.symm⟩
    · simp only [Spinlock.switchTo, update_of_ne hne] at hq
      exact Or.inr ⟨hne, fun he => hp (he ▸ h.running k' q hq), hq⟩
  have hthread (k' : K) (hne : k' ≠ k) : thread (Spinlock.switchTo s k p) k' = thread s k' := by
    simp only [thread, Spinlock.switchTo, update_of_ne hne]
  have hbefore (x : P ⊕ K) (hx : x ≠ .inr k) : (Spinlock.switchTo s k p).before x = s.before x := by
    simp only [Spinlock.switchTo, update_of_ne hx]
  have hnot (k' : K) (hne : k' ≠ k) : thread s k' ≠ .inr k := by
    rw [← thread_of_none hk]
    exact h.thread_ne hne
  have hcontext (q : P) (hne : q ≠ p) : (Spinlock.switchTo s k p).context q = s.context q := by
    simp only [Spinlock.switchTo, update_of_ne hne]
  have hself : (Spinlock.switchTo s k p).context p = .running := by
    simp only [Spinlock.switchTo, update_self]
  refine ⟨⟨h.finite, fun k' => ?_, fun k' hpos' => ?_, fun k' q hq => ?_, fun k' k'' q hq hq' => ?_, fun k' b hb => ?_,
    fun k' h0 => ?_, fun q i b hq hb => ?_, fun q hq => ?_, fun k' q hq => ?_⟩, hintena⟩
  · rw [(hcpu k').1]
    exact h.count k'
  · rw [(hcpu k').1] at hpos'
    rw [(hcpu k').2]
    exact h.off k' hpos'
  · rcases hother k' q hq with ⟨-, rfl⟩ | ⟨-, hne, hq⟩
    · exact hself
    · exact (hcontext q hne).trans (h.running k' q hq)
  · rcases hother k' q hq with ⟨rfl, rfl⟩ | ⟨-, hne, hq⟩
    · rcases hother k'' q hq' with ⟨rfl, -⟩ | ⟨-, hne', -⟩
      · rfl
      · exact absurd rfl hne'
    · rcases hother k'' q hq' with ⟨-, rfl⟩ | ⟨-, -, hq'⟩
      · exact absurd rfl hne
      · exact h.one k' k'' q hq hq'
  · by_cases hne : k' = k
    · subst hne
      have hp' : thread (Spinlock.switchTo s k' p) k' = .inl p := thread_of_some (by simp [Spinlock.switchTo])
      rw [hp', hbefore _ Sum.inl_ne_inr] at hb
      cases hc : s.context p with
      | running => exact absurd hc hp
      | forkret =>
        rw [h.fresh p hc] at hb
        cases hb
      | sched i =>
        rw [hintena i hc]
        exact h.away p i b hc hb
    · rw [hthread k' hne, hbefore _ (hnot k' hne)] at hb
      simp only [Spinlock.switchTo, update_of_ne hne]
      exact h.intena k' b hb
  · rw [(hcpu k').1] at h0
    by_cases hne : k' = k
    · subst hne
      exact absurd h0 hpos.ne'
    · rw [hthread k' hne, hbefore _ (hnot k' hne)]
      exact h.idle k' h0
  · by_cases hne : q = p
    · subst hne
      rw [hself] at hq
      cases hq
    · rw [hcontext q hne] at hq
      rw [hbefore _ Sum.inl_ne_inr] at hb
      exact h.away q i b hq hb
  · by_cases hne : q = p
    · subst hne
      rw [hself] at hq
      cases hq
    · rw [hcontext q hne] at hq
      rw [hbefore _ Sum.inl_ne_inr]
      exact h.fresh q hq
  · by_cases hne : k' = k
    · subst hne
      simp only [Spinlock.switchTo, update_self]
    · rcases hother k' q hq with ⟨he, -⟩ | ⟨-, -, hq⟩
      · exact absurd he hne
      · rw [hbefore _ fun he => hne (Sum.inr.inj he)]
        exact h.left k' q hq

theorem Nested.fork (h : Nested s) (hp : s.context p ≠ .running) : Nested { s with
    context := update s.context p .forkret
    before := update s.before (.inl p) none } := by
  have hrun (k : K) (q : P) (hq : s.proc k = some q) : q ≠ p := fun he => hp (he ▸ h.running k q hq)
  have hthread (k : K) : thread s k ≠ .inl p := by
    cases hk : s.proc k with
    | none =>
      rw [thread_of_none hk]
      exact Sum.inr_ne_inl
    | some q =>
      rw [thread_of_some hk]
      exact fun he => hrun k q hk (Sum.inl.inj he)
  refine ⟨h.finite, h.count, h.off, fun k q hq => ?_, h.one, fun k b hb => ?_, fun k h0 => ?_, fun q i b hq hb => ?_,
    fun q hq => ?_, fun k q hq => ?_⟩
  · exact (update_of_ne (hrun k q hq) _ _).trans (h.running k q hq)
  · exact h.intena k b ((update_of_ne (hthread k) _ _).symm.trans hb)
  · exact (update_of_ne (hthread k) _ _).trans (h.idle k h0)
  · by_cases hne : q = p
    · subst hne
      simp only [update_self] at hq
      cases hq
    · have hne' : (Sum.inl q : P ⊕ K) ≠ .inl p := fun he => hne (Sum.inl.inj he)
      exact h.away q i b ((update_of_ne hne _ _).symm.trans hq) ((update_of_ne hne' _ _).symm.trans hb)
  · by_cases hne : q = p
    · subst hne
      exact update_self ..
    · have hne' : (Sum.inl q : P ⊕ K) ≠ .inl p := fun he => hne (Sum.inl.inj he)
      exact (update_of_ne hne' _ _).trans (h.fresh q ((update_of_ne hne _ _).symm.trans hq))
  · show update s.before (.inl p) none (.inr k) = none
    rw [update_of_ne Sum.inr_ne_inl]
    exact h.left k q hq

theorem sched_cases {ptable : L} (h : Nested s) (hs : sched ptable s k p = .ok t) : ∃ c, Nested (setCpu s k c) ∧
    0 < c.ncli ∧ t = { setCpu s k c with
      proc := update s.proc k none, context := update s.context p (.sched c.intena) } := by
  obtain ⟨c, hn, -, he, hc⟩ := h.myproc k
  rw [sched, he, Outcome.ok_bind] at hs
  obtain ⟨b, hb, hs⟩ := Outcome.bind_eq_ok.mp hs
  cases b with
  | false => cases hs
  | true =>
    have hpos := hc.ncli_pos (holding_eq_true hb)
    simp only [setCpu, update_self] at hs hpos
    simp only [if_true] at hs
    split_ifs at hs
    cases hs
    exact ⟨c, hc, hpos, rfl⟩

variable [DecidableEq L]

theorem Nested.acquire (h : Nested s) (hs : acquire s k l = some (.ok t)) : Nested
    (if (s.cpu k).ncli = 0 then { t with before := update s.before (thread s k) (some (s.cpu k).flIf) } else t) := by
  obtain ⟨hl, rfl⟩ := acquire_cases hs
  have hset := held_acquire hl (k := k)
  have hmem : l ∉ held s k := by
    intro hm
    have hlocked : (s.lock l).locked = true := hm.1
    rw [hl] at hlocked
    cases hlocked
  have hstep (before : P ⊕ K → Option Bool) (hkeep : ∀ x, x ≠ thread s k → before x = s.before x)
      (hmine : ∀ b, before (thread s k) = some b → (pushcli (s.cpu k)).intena = b) : Nested
        { s with cpu := update s.cpu k (pushcli (s.cpu k)), lock := update s.lock l ⟨true, some k⟩,
                 before := before } := by
    refine h.onCpu (fun k' hne x => ?_) ?_ ?_ (fun _ => rfl) hkeep hmine fun h0 => ?_
    · have := Set.ext_iff.mp (hset k') x
      rwa [if_neg hne] at this
    · rw [hset, if_pos rfl]
      exact (h.finite k).insert l
    · rw [hset, if_pos rfl, Set.ncard_insert_of_notMem hmem (h.finite k)]
      show (s.cpu k).ncli + 1 = _
      rw [h.count k]
      push_cast
      rfl
    · have hpos : (s.cpu k).ncli + 1 = 0 := h0
      have := h.count k
      omega
  split_ifs with h0
  · refine hstep _ (fun x hx => update_of_ne hx _ _) fun b hb => ?_
    rw [update_self] at hb
    cases hb
    exact if_pos h0
  · refine hstep s.before (fun _ _ => rfl) fun b hb => ?_
    exact (if_neg h0).trans (h.intena k b hb)

theorem Nested.release (h : Nested s) (hs : release s k l = .ok t) : Nested
    (if (t.cpu k).ncli = 0 then { t with before := update s.before (thread s k) none } else t) := by
  obtain ⟨hl, c, hc, rfl⟩ := release_cases hs
  obtain ⟨-, -, rfl⟩ := popcli_cases hc
  have hset := held_release hl
  have hcount : (s.cpu k).ncli - 1 = ((held s k \ {l}).ncard : ℤ) := by
    have := Set.ncard_sdiff_singleton_add_one (show l ∈ held s k from hl) (h.finite k)
    rw [h.count k]
    omega
  have hstep (before : P ⊕ K → Option Bool) (hkeep : ∀ x, x ≠ thread s k → before x = s.before x)
      (hmine : ∀ b, before (thread s k) = some b → (s.cpu k).intena = b)
      (hidle : (s.cpu k).ncli - 1 = 0 → before (thread s k) = none) : Nested
        { s with cpu := update s.cpu k { s.cpu k with
                   ncli := (s.cpu k).ncli - 1, flIf := decide ((s.cpu k).ncli - 1 = 0) && (s.cpu k).intena }
                 lock := update s.lock l ⟨false, none⟩, before := before } := by
    refine h.onCpu (fun k' hne x => ?_) ?_ ?_ (fun hpos => ?_) hkeep hmine hidle
    · have := Set.ext_iff.mp (hset k') x
      rwa [if_neg hne] at this
    · rw [hset, if_pos rfl]
      exact (h.finite k).sdiff
    · rw [hset, if_pos rfl]
      exact hcount
    · have hne : ¬(s.cpu k).ncli - 1 = 0 := hpos.ne'
      simp [hne]
  have hncli (h0 : ¬(update s.cpu k { s.cpu k with
      ncli := (s.cpu k).ncli - 1, flIf := decide ((s.cpu k).ncli - 1 = 0) && (s.cpu k).intena } k).ncli = 0) :
      (s.cpu k).ncli - 1 ≠ 0 := by
    rwa [update_self] at h0
  split_ifs with h0
  · refine hstep _ (fun x hx => update_of_ne hx _ _) (fun b hb => ?_) fun _ => update_self ..
    rw [update_self] at hb
    cases hb
  · exact hstep s.before (fun _ _ => rfl) (fun b hb => h.intena k b hb) fun h1 => absurd h1 (hncli h0)

theorem Nested.step {ptable : L} (h : Nested s) {e : Event K P L} (hs : Steps (step ptable) s e t) : Nested t := by
  simp only [Steps] at hs
  cases e with
  | acquire k l =>
    simp only [Spinlock.step] at hs
    obtain ⟨y, hy, hs⟩ := Option.map_eq_some_iff.mp hs
    cases y with
    | error e => cases hs
    | ok u =>
      cases hs
      exact h.acquire hy
  | release k l =>
    simp only [Spinlock.step] at hs
    cases hy : Spinlock.release s k l with
    | error e =>
      rw [hy] at hs
      cases hs
    | ok u =>
      rw [hy] at hs
      cases hs
      exact h.release hy
  | myproc k =>
    simp only [Spinlock.step] at hs
    obtain ⟨c, -, -, he, hc⟩ := h.myproc k
    rw [he] at hs
    cases hs
    exact hc
  | setIf k on =>
    simp only [Spinlock.step] at hs
    split_ifs at hs with h0
    cases hs
    exact h.onCpu (fun _ _ _ => Iff.rfl) (h.finite k) (h.count k) (fun hpos => absurd h0 hpos.ne') (fun _ _ => rfl)
      (h.intena k) (h.idle k)
  | setState k =>
    simp only [Spinlock.step] at hs
    obtain ⟨p, -, hs⟩ := Option.map_eq_some_iff.mp hs
    cases hs
    exact ⟨h.finite, h.count, h.off, h.running, h.one, h.intena, h.idle, h.away, h.fresh, h.left⟩
  | sched k =>
    simp only [Spinlock.step] at hs
    obtain ⟨p, hp, hs⟩ := Option.map_eq_some_iff.mp hs
    obtain ⟨c, hc, hpos, rfl⟩ := sched_cases h hs
    have hleave := hc.leave (p := p) hp (by simpa only [setCpu, update_self] using hpos)
    simpa only [setCpu, update_self] using hleave
  | switchTo k p =>
    simp only [Spinlock.step] at hs
    split_ifs at hs with hg
    cases hs
    exact (h.switchTo hg.1 (h.ncli_pos hg.2.1) hg.2.2).1
  | fork p =>
    simp only [Spinlock.step] at hs
    split_ifs at hs with hp
    cases hs
    exact h.fork hp

theorem Nested.no_panic {ptable : L} (h : Nested s) {e : Event K P L} {m : String}
    (hs : Spinlock.step ptable s e = some (.error m)) : ¬PopcliPanic m := by
  cases e with
  | acquire k l =>
    simp only [Spinlock.step] at hs
    obtain ⟨y, hy, hs⟩ := Option.map_eq_some_iff.mp hs
    cases y with
    | ok u => cases hs
    | error e =>
      cases hs
      simp only [Spinlock.acquire] at hy
      split at hy
      · cases hy
        exact holding_error ‹_›
      · cases hy
        simp [PopcliPanic]
      · split_ifs at hy
        cases hy
  | release k l =>
    simp only [Spinlock.step] at hs
    cases hb : holding s k l with
    | error e =>
      rw [Spinlock.release, hb] at hs
      cases hs
      exact holding_error hb
    | ok b =>
      rw [Spinlock.release, hb, Outcome.ok_bind] at hs
      cases b with
      | false =>
        cases hs
        simp [PopcliPanic]
      | true =>
        obtain ⟨c, hc⟩ := h.popcli_ok (holding_eq_true hb)
        rw [hc] at hs
        cases hs
  | myproc k =>
    simp only [Spinlock.step] at hs
    obtain ⟨c, -, -, he, -⟩ := h.myproc k
    rw [he] at hs
    cases hs
  | setIf k on =>
    simp only [Spinlock.step] at hs
    split_ifs at hs
    cases hs
  | setState k =>
    simp only [Spinlock.step] at hs
    obtain ⟨p, -, hs⟩ := Option.map_eq_some_iff.mp hs
    cases hs
  | sched k =>
    simp only [Spinlock.step] at hs
    obtain ⟨p, -, hs⟩ := Option.map_eq_some_iff.mp hs
    obtain ⟨c, -, -, he, -⟩ := h.myproc k
    rw [Spinlock.sched, he, Outcome.ok_bind] at hs
    cases hb : holding (setCpu s k c) k ptable with
    | error e =>
      rw [hb] at hs
      cases hs
      exact holding_error hb
    | ok b =>
      rw [hb, Outcome.ok_bind] at hs
      cases b with
      | false =>
        cases hs
        simp [PopcliPanic]
      | true =>
        simp only [if_true] at hs
        split_ifs at hs <;> cases hs <;> simp [PopcliPanic]
  | switchTo k p =>
    simp only [Spinlock.step] at hs
    split_ifs at hs
    cases hs
  | fork p =>
    simp only [Spinlock.step] at hs
    split_ifs at hs
    cases hs

theorem Nested.last_release {ptable : L} (h : Nested s) {b : Bool} (hs : Steps (Spinlock.step ptable) s
    (.release k l) t) (h0 : (t.cpu k).ncli = 0) (hb : s.before (thread s k) = some b) : (t.cpu k).flIf = b := by
  simp only [Steps, Spinlock.step] at hs
  cases hy : Spinlock.release s k l with
  | error e =>
    rw [hy] at hs
    cases hs
  | ok u =>
    rw [hy] at hs
    have hcpu : t.cpu = u.cpu := by
      cases hs
      dsimp only
      split_ifs <;> rfl
    obtain ⟨-, c, hc, rfl⟩ := release_cases hy
    obtain ⟨-, -, rfl⟩ := popcli_cases hc
    simp only [hcpu, setCpu, update_self] at h0 ⊢
    rw [decide_eq_true h0, Bool.true_and]
    exact h.intena k b hb

/-- After any calls on any CPUs, with other threads in between. -/
theorem interrupts_nest {ptable : L} {s0 : Machine K P L} {es : List (Event K P L)} (h : Start s0)
    (hrun : Run (Steps (step ptable)) s0 es s) :
    (∀ k, (held s k).Finite ∧ (s.cpu k).ncli = (held s k).ncard ∧ (0 < (s.cpu k).ncli → (s.cpu k).flIf = false)) ∧
    (∀ e m, step ptable s e = some (.error m) → ¬PopcliPanic m) ∧
    (∀ k l t b, Steps (step ptable) s (.release k l) t → (t.cpu k).ncli = 0 → s.before (thread s k) = some b →
      (t.cpu k).flIf = b) ∧
    ∀ k p t i, s.context p = .sched i → Steps (step ptable) s (.switchTo k p) t →
      (t.cpu k).intena = i ∧ ∀ b, s.before (.inl p) = some b → i = b := by
  have hn : Nested s := hrun.always (fun _ _ _ hs ht => hs.step ht) h.nested
  refine ⟨fun k => ⟨hn.finite k, hn.count k, hn.off k⟩, fun e m he => hn.no_panic he,
    fun k l t b hs h0 hb => hn.last_release hs h0 hb, fun k p t i hp hs => ⟨?_, fun b hb => hn.away p i b hp hb⟩⟩
  simp only [Steps, step] at hs
  split_ifs at hs with hg
  cases hs
  exact (hn.switchTo hg.1 (hn.ncli_pos hg.2.1) hg.2.2).2 i hp

def twoThreads : Machine Unit Bool Bool where
  cpu _ := ⟨0, false, true⟩
  lock _ := ⟨false, none⟩
  proc _ := some false
  context p := if p then .sched false else .running
  isRunning p := !p
  before _ := none

def twoTurns : List (Event Unit Bool Bool) :=
  [.acquire () true, .acquire () false, .release () true, .setState (), .sched (), .switchTo () true,
    .setState (), .sched (), .switchTo () false]

theorem interrupts_nest_two : ∃ s t : Machine Unit Bool Bool, Run (Steps (step false)) twoThreads twoTurns s ∧
    (s.cpu ()).ncli = 1 ∧ Steps (step false) s (.release () false) t ∧ (t.cpu ()).flIf = true := by
  have hstart : Start twoThreads := by
    refine ⟨fun _ => rfl, fun _ => rfl, ?_, fun _ _ _ _ _ => rfl, fun _ => rfl⟩
    rintro - p ⟨⟩
    rfl
  have h : (exec (step false) twoThreads twoTurns).map (fun s => decide ((s.cpu ()).ncli = 1 ∧
      s.before (thread s ()) = some true ∧ (exec (step false) s [.release () false]).map (fun t => (t.cpu ()).ncli) =
          some 0)) =
      some true := by
    decide +kernel
  obtain ⟨s, he, hd⟩ := Option.map_eq_some_iff.mp h
  obtain ⟨h1, hb, hr⟩ := of_decide_eq_true hd
  obtain ⟨t, ht, h0⟩ := Option.map_eq_some_iff.mp hr
  have hrun := run_of_exec he
  have hstep : Steps (step false) s (.release () false) t := by
    cases run_of_exec ht with
    | cons hs hnil =>
      cases hnil
      exact hs
  exact ⟨s, t, hrun, h1, hstep, (interrupts_nest hstart hrun).2.2.1 () false t true hstep h0 hb⟩

end Xv6.Spinlock
