import Xv6.Pipe

namespace Xv6.PipeCalls

open Transition

def Pc.stores : Pc → Bool
  | .write _ (_ + 1) => true
  | _ => false

def Pc.stuck : Pc → Bool
  | .write (_ :: _) (_ + 1) => true
  | _ => false

def Pc.copies : Pc → Bool
  | .copy _ => true
  | _ => false

def Pc.armed : Pc → Bool
  | .sleepWrite _ => true
  | _ => false

theorem Pc.holding_of_stores {x : Pc} (h : x.stores = true) : x.holding = true := by
  cases x <;> first | rfl | cases h

theorem Pc.holding_of_copies {x : Pc} (h : x.copies = true) : x.holding = true := by
  cases x <;> first | rfl | cases h

theorem Pc.holding_of_armed {x : Pc} (h : x.armed = true) : x.holding = true := by
  cases x <;> first | rfl | cases h

theorem Pc.chan_resume (x : Pc) : x.resume.chan = none := by
  cases x <;> rfl

theorem Pc.holding_resume (x : Pc) : x.resume.holding = x.holding := by
  cases x <;> rfl

structure Attended {P : Type} (s : Sys P) : Prop where
  holder : ∀ p, (s.pc p).holding = true → s.lock = some p
  reader : ∀ q, (s.pc q).chan = some .nread → (s.pipe.isEmpty ∧ s.pipe.writeopen = true) ∨ ∃ p, (s.pc p).stores = true
  writer : ∀ q, (s.pc q).chan = some .nwrite → (s.pipe.isFull ∧ s.pipe.readopen = true) ∨ ∃ p, (s.pc p).copies = true
  armed : ∀ p, (s.pc p).armed = true → s.pipe.isFull ∧ s.pipe.readopen = true

variable {P : Type} {s t : Sys P} {e : Event P} {p : P}

theorem Attended.stores_iff (h : Attended s) (hl : s.lock = some p) : (∃ q, (s.pc q).stores = true) ↔
    (s.pc p).stores = true := by
  constructor
  · rintro ⟨q, hq⟩
    have := h.holder q (Pc.holding_of_stores hq)
    rw [hl, Option.some.injEq] at this
    rwa [this]
  · exact fun hp => ⟨p, hp⟩

theorem Attended.copies_iff (h : Attended s) (hl : s.lock = some p) : (∃ q, (s.pc q).copies = true) ↔
    (s.pc p).copies = true := by
  constructor
  · rintro ⟨q, hq⟩
    have := h.holder q (Pc.holding_of_copies hq)
    rw [hl, Option.some.injEq] at this
    rwa [this]
  · exact fun hp => ⟨p, hp⟩

theorem Attended.reader_of (h : Attended s) (hl : s.lock = some p) {q : P} (hp : (s.pc p).stores = false)
    (hq : (s.pc q).chan = some .nread) :
    s.pipe.isEmpty ∧ s.pipe.writeopen = true := by
  rcases h.reader q hq with he | hs
  · exact he
  · rw [h.stores_iff hl, hp] at hs
    cases hs

theorem Attended.writer_of (h : Attended s) (hl : s.lock = some p) {q : P} (hp : (s.pc p).copies = false)
    (hq : (s.pc q).chan = some .nwrite) :
    s.pipe.isFull ∧ s.pipe.readopen = true := by
  rcases h.writer q hq with he | hs
  · exact he
  · rw [h.copies_iff hl, hp] at hs
    cases hs

theorem Attended.advance (h : Attended s) (hl : s.lock = some p)
    (hother : ∀ q, q ≠ p → (t.pc q).holding = (s.pc q).holding)
    (hp : (t.pc p).holding = true → t.lock = some p)
    (hr : ∀ q, (t.pc q).chan = some .nread →
      (t.pipe.isEmpty ∧ t.pipe.writeopen = true) ∨ (t.pc p).stores = true)
    (hw : ∀ q, (t.pc q).chan = some .nwrite →
      (t.pipe.isFull ∧ t.pipe.readopen = true) ∨ (t.pc p).copies = true)
    (ha : (t.pc p).armed = true → t.pipe.isFull ∧ t.pipe.readopen = true) : Attended t := by
  have hidle : ∀ q, (t.pc q).holding = true → q = p := by
    intro q hq
    by_contra hne
    rw [hother q hne] at hq
    have := h.holder q hq
    rw [hl, Option.some.injEq] at this
    exact hne this.symm
  refine ⟨fun q hq => ?_, fun q hq => (hr q hq).imp_right fun hs => ⟨p, hs⟩,
    fun q hq => (hw q hq).imp_right fun hs => ⟨p, hs⟩, fun q hq => ?_⟩
  · obtain rfl := hidle q hq
    exact hp hq
  · obtain rfl := hidle q (Pc.holding_of_armed hq)
    exact ha hq

variable [DecidableEq P]

theorem goto_self (s : Sys P) (p : P) (x : Pc) : (goto s p x).pc p = x := Function.update_self ..

theorem goto_of_ne (s : Sys P) {p q : P} (x : Pc) (h : q ≠ p) : (goto s p x).pc q = s.pc q := Function.update_of_ne h ..

omit [DecidableEq P] in
theorem wakeup_holding (s : Sys P) (c : Chan) (q : P) : ((wakeup s c).pc q).holding = (s.pc q).holding := by
  simp only [wakeup]
  split_ifs
  · exact Pc.holding_resume _
  · rfl

omit [DecidableEq P] in
theorem wakeup_chan (s : Sys P) (c d : Chan) (q : P) :
    ((wakeup s c).pc q).chan = some d ↔ (s.pc q).chan = some d ∧ d ≠ c := by
  simp only [wakeup]
  split_ifs with hc
  · rw [Pc.chan_resume]
    constructor
    · intro h
      cases h
    · rintro ⟨h, hne⟩
      rw [hc, Option.some.injEq] at h
      exact absurd h.symm hne
  · constructor
    · intro h
      refine ⟨h, ?_⟩
      rintro rfl
      exact hc h
    · exact fun h => h.1

theorem goto_chan {u : Sys P} {x : Pc} {c : Chan} {q : P} (h : ((goto u p x).pc q).chan = some c) :
    x.chan = some c ∨ (u.pc q).chan = some c := by
  by_cases hq : q = p
  · subst hq
    rw [goto_self] at h
    exact Or.inl h
  · rw [goto_of_ne u x hq] at h
    exact Or.inr h

theorem Attended.goto {u : Sys P} {x : Pc} (h : Attended s) (hl : s.lock = some p)
    (hu : ∀ q, (u.pc q).holding = (s.pc q).holding) (hx : x.holding = true → u.lock = some p)
    (hr : ∀ q, x.chan = some .nread ∨ (u.pc q).chan = some .nread →
      (u.pipe.isEmpty ∧ u.pipe.writeopen = true) ∨ x.stores = true)
    (hw : ∀ q, x.chan = some .nwrite ∨ (u.pc q).chan = some .nwrite →
      (u.pipe.isFull ∧ u.pipe.readopen = true) ∨ x.copies = true)
    (ha : x.armed = true → u.pipe.isFull ∧ u.pipe.readopen = true) : Attended (PipeCalls.goto u p x) := by
  apply h.advance hl
  · intro q hq
    rw [goto_of_ne u x hq, hu q]
  all_goals rw [goto_self]
  · exact hx
  · exact fun q hq => hr q (goto_chan hq)
  · exact fun q hq => hw q (goto_chan hq)
  · exact ha

def Signalled (s : Sys P) : Event P → Prop
  | .advance p => ¬ ((s.pc p).stuck = true ∧ s.pipe.isFull ∧ (s.pipe.readopen = false ∨ s.killed p = true) ∧
      ∃ q, (s.pc q).chan = some .nread)
  | _ => True

section Holder

variable (h : Attended s) (hl : s.lock = some p)

include h hl

theorem Attended.leave {x : Pc} (hx : x.holding = false) (hs : (s.pc p).stores = false) (hc : (s.pc p).copies = false)
    (hr : x.chan = some .nread → s.pipe.isEmpty ∧ s.pipe.writeopen = true)
    (hw : x.chan = some .nwrite → s.pipe.isFull ∧ s.pipe.readopen = true) :
    Attended (release (PipeCalls.goto s p x)) := by
  apply h.goto hl (u := release s) (fun _ => rfl)
  · intro he
    rw [hx] at he
    cases he
  · exact fun q hq => Or.inl (hq.elim hr (h.reader_of hl hs))
  · exact fun q hq => Or.inl (hq.elim hw (h.writer_of hl hc))
  · intro ha
    have := Pc.holding_of_armed ha
    rw [hx] at this
    cases this

theorem writeByte_attended {b : UInt8} {src : List UInt8} {k : ℕ} (hp : s.pc p = .write (b :: src) k)
    (hsig : Signalled s (.advance p)) : Attended (writeByte s p b src k) := by
  have hcopies : (s.pc p).copies = false := by rw [hp]; rfl
  rw [Signalled, hp] at hsig
  rw [writeByte]
  split_ifs with hfull hfail
  · cases k with
    | zero =>
      apply h.leave hl rfl (by rw [hp]; rfl) hcopies
      all_goals intro he; cases he
    | succ k =>
      -- nobody sleeps who would have to be woken
      have hnone : ∀ q, (s.pc q).chan ≠ some .nread := fun q hq => hsig ⟨rfl, hfull, hfail, q, hq⟩
      apply h.goto hl (u := release s) (fun _ => rfl)
      · intro he
        cases he
      · rintro q (he | he)
        · cases he
        · exact absurd he (hnone q)
      · rintro q (he | he)
        · cases he
        · exact Or.inl (h.writer_of hl hcopies he)
      · intro ha
        cases ha
  · have hopen : s.pipe.readopen = true := by
      cases ho : s.pipe.readopen with
      | true => rfl
      | false => exact absurd (Or.inl ho) hfail
    apply h.goto hl (wakeup_holding s .nread)
    · exact fun _ => hl
    · rintro q (he | he)
      · cases he
      · exact absurd rfl ((wakeup_chan s ..).mp he).2
    · exact fun _ _ => Or.inl ⟨hfull, hopen⟩
    · exact fun _ => ⟨hfull, hopen⟩
  · apply h.goto hl
    · exact fun _ => rfl
    · exact fun _ => hl
    · exact fun _ _ => Or.inr rfl
    · rintro q (he | he)
      · cases he
      · exact absurd (h.writer_of hl hcopies he).1 hfull
    · intro ha
      cases ha

theorem readTest_attended {n : ℕ} (hp : s.pc p = .read n) : Attended (readTest s p n) := by
  have hstores : (s.pc p).stores = false := by rw [hp]; rfl
  have hcopies : (s.pc p).copies = false := by rw [hp]; rfl
  rw [readTest]
  split_ifs with hempty hkilled
  · apply h.leave hl rfl hstores hcopies
    all_goals intro he; cases he
  · apply h.leave hl rfl hstores hcopies
    · exact fun _ => hempty
    · intro he
      cases he
  · apply h.goto hl (fun _ => rfl)
    · exact fun _ => hl
    · rintro q (he | he)
      · cases he
      · exact absurd (h.reader_of hl hstores he) hempty
    · exact fun _ _ => Or.inr rfl
    · intro ha
      cases ha

theorem readByte_attended {n : ℕ} (hp : s.pc p = .copy n) : Attended (readByte s p n) := by
  have hstores : (s.pc p).stores = false := by rw [hp]; rfl
  rw [readByte]
  split_ifs with hstop
  · apply h.goto hl (wakeup_holding s .nwrite)
    · exact fun _ => hl
    · rintro q (he | he)
      · cases he
      · exact Or.inl (h.reader_of hl hstores ((wakeup_chan s ..).mp he).1)
    · rintro q (he | he)
      · cases he
      · exact absurd rfl ((wakeup_chan s ..).mp he).2
    · intro ha
      cases ha
  · apply h.goto hl
    · exact fun _ => rfl
    · exact fun _ => hl
    · rintro q (he | he)
      · cases he
      · exact absurd (Or.inr (h.reader_of hl hstores he).1) hstop
    · exact fun _ _ => Or.inr rfl
    · intro ha
      cases ha

theorem closeEnd_attended {writable : Bool} (hp : s.pc p = .close writable) : Attended (closeEnd s p writable) := by
  have hstores : (s.pc p).stores = false := by rw [hp]; rfl
  have hcopies : (s.pc p).copies = false := by rw [hp]; rfl
  apply h.goto hl
  · exact wakeup_holding _ _
  · exact fun _ => hl
  · rintro q (he | he)
    · cases he
    · obtain ⟨hq, hne⟩ := (wakeup_chan _ ..).mp he
      cases writable
      · exact Or.inl (h.reader_of hl hstores hq)
      · exact absurd rfl hne
  · rintro q (he | he)
    · cases he
    · obtain ⟨hq, hne⟩ := (wakeup_chan _ ..).mp he
      cases writable
      · exact absurd rfl hne
      · exact Or.inl (h.writer_of hl hcopies hq)
  · intro ha
    cases ha

theorem finishWrite_attended {k : ℕ} (hp : s.pc p = .write [] k) :
    Attended (PipeCalls.goto (wakeup s .nread) p .leave) := by
  apply h.goto hl (wakeup_holding s .nread)
  · exact fun _ => hl
  · rintro q (he | he)
    · cases he
    · exact absurd rfl ((wakeup_chan s ..).mp he).2
  · rintro q (he | he)
    · cases he
    · exact Or.inl (h.writer_of hl (by rw [hp]; rfl) ((wakeup_chan s ..).mp he).1)
  · intro ha
    cases ha

theorem holderStep_attended (hsig : Signalled s (.advance p)) (hs : holderStep s p = some t) : Attended t := by
  rw [holderStep] at hs
  split at hs <;> cases hs
  next hp => exact writeByte_attended h hl hp hsig
  next hp => exact finishWrite_attended h hl hp
  next hp =>
    apply h.leave hl rfl (by rw [hp]; rfl) (by rw [hp]; rfl)
    · intro he
      cases he
    · exact fun _ => h.armed p (by rw [hp]; rfl)
  next hp => exact readTest_attended h hl hp
  next hp => exact readByte_attended h hl hp
  next hp => exact closeEnd_attended h hl hp
  next hp =>
    apply h.leave hl rfl (by rw [hp]; rfl) (by rw [hp]; rfl)
    all_goals intro he; cases he

end Holder

theorem Attended.enter {u : Sys P} {x : Pc} (h : Attended s) (hpipe : u.pipe = s.pipe) (hpc : u.pc = s.pc)
    (hlock : ∀ q, q ≠ p → s.lock = some q → u.lock = some q) (hx : x.holding = true → u.lock = some p)
    (hchan : x.chan = none) (hs : x.stores = (s.pc p).stores) (hc : x.copies = (s.pc p).copies)
    (ha : x.armed = (s.pc p).armed) : Attended (PipeCalls.goto u p x) := by
  have hany : ∀ f : Pc → Bool, f x = f (s.pc p) → ∀ q, f ((PipeCalls.goto u p x).pc q) = f (s.pc q) := by
    intro f hf q
    by_cases hq : q = p
    · rw [hq, goto_self, hf]
    · rw [goto_of_ne u x hq, hpc]
  have hsleep : ∀ q c, ((PipeCalls.goto u p x).pc q).chan = some c → (s.pc q).chan = some c := by
    intro q c hq
    rcases goto_chan hq with he | he
    · rw [hchan] at he
      cases he
    · rwa [hpc] at he
  refine ⟨fun q hq => ?_, fun q hq => ?_, fun q hq => ?_, fun q hq => ?_⟩
  · by_cases he : q = p
    · subst he
      rw [goto_self] at hq
      exact hx hq
    · rw [goto_of_ne u x he, hpc] at hq
      exact hlock q he (h.holder q hq)
  · have hr := h.reader q (hsleep q _ hq)
    rw [← hpipe] at hr
    exact hr.imp_right fun ⟨r, hr⟩ => ⟨r, (hany _ hs r).trans hr⟩
  · have hw := h.writer q (hsleep q _ hq)
    rw [← hpipe] at hw
    exact hw.imp_right fun ⟨r, hr⟩ => ⟨r, (hany _ hc r).trans hr⟩
  · have hp := h.armed q ((hany _ ha q).symm.trans hq)
    rwa [← hpipe] at hp

theorem call_attended {x : Pc} (h : Attended s) (hx : x.holding = false) (hchan : x.chan = none)
    (hs : call s p x = some (.ok t)) : Attended t := by
  rw [call] at hs
  split_ifs at hs with hp
  cases hs
  have hnot : ∀ f : Pc → Bool, (∀ y, f y = true → y.holding = true) → f x = f (s.pc p) := by
    intro f hf
    rw [hp, Bool.eq_iff_iff]
    constructor
    · intro hfx
      rw [hf x hfx] at hx
      cases hx
    · intro hfi
      cases hf _ hfi
  apply h.enter rfl rfl
  · exact fun _ _ hq => hq
  · intro he
    rw [hx] at he
    cases he
  · exact hchan
  · exact hnot _ fun _ => Pc.holding_of_stores
  · exact hnot _ fun _ => Pc.holding_of_copies
  · exact hnot _ fun _ => Pc.holding_of_armed

theorem acquire_attended {x : Pc} (h : Attended s) (hchan : x.chan = none) (hst : x.stores = (s.pc p).stores)
    (hc : x.copies = (s.pc p).copies) (ha : x.armed = (s.pc p).armed) (hs : acquire s p x = some (.ok t)) :
    Attended t := by
  rw [acquire] at hs
  split_ifs at hs with hl
  cases hs
  apply h.enter
  · rfl
  · rfl
  · intro q _ hq
    rw [hl] at hq
    cases hq
  · exact fun _ => rfl
  · exact hchan
  · exact hst
  · exact hc
  · exact ha

theorem kill_attended (h : Attended s) (q : P) : Attended (kill s q) := by
  apply h.enter
  · rfl
  · rfl
  · exact fun _ _ hr => hr
  · intro hx
    rw [Pc.holding_resume] at hx
    exact h.holder q hx
  · exact Pc.chan_resume _
  all_goals cases s.pc q <;> rfl

theorem step_attended (h : Attended s) (hsig : Signalled s e) (hs : pipeStep s e = some (.ok t)) : Attended t := by
  cases e with
  | write p src => exact call_attended h rfl rfl hs
  | read p n => exact call_attended h rfl rfl hs
  | close p writable => exact call_attended h rfl rfl hs
  | acquire p =>
    simp only [pipeStep] at hs
    split at hs
    next hp => exact acquire_attended h rfl (by rw [hp]; rfl) (by rw [hp]; rfl) (by rw [hp]; rfl) hs
    next hp => exact acquire_attended h rfl (by rw [hp]; rfl) (by rw [hp]; rfl) (by rw [hp]; rfl) hs
    next hp => exact acquire_attended h rfl (by rw [hp]; rfl) (by rw [hp]; rfl) (by rw [hp]; rfl) hs
    next => cases hs
  | advance p =>
    simp only [pipeStep] at hs
    split_ifs at hs with hl
    obtain ⟨u, hu, he⟩ := Option.map_eq_some_iff.mp hs
    cases he
    exact holderStep_attended h hl hsig hu
  | kill p =>
    cases hs
    exact kill_attended h p

structure Awake (s : Sys P) : Prop where
  reader : ∀ q, (s.pc q).chan = some .nread → s.pipe.isEmpty ∧ s.pipe.writeopen = true
  writer : ∀ q, (s.pc q).chan = some .nwrite → s.pipe.isFull ∧ s.pipe.readopen = true

omit [DecidableEq P] in
theorem Attended.awake (h : Attended s) (hl : s.lock = none) : Awake s := by
  have hfree : ∀ p, (s.pc p).holding ≠ true := by
    intro p hp
    have := h.holder p hp
    rw [hl] at this
    cases this
  constructor
  · intro q hq
    rcases h.reader q hq with he | ⟨p, hp⟩
    · exact he
    · exact absurd (Pc.holding_of_stores hp) (hfree p)
  · intro q hq
    rcases h.writer q hq with he | ⟨p, hp⟩
    · exact he
    · exact absurd (Pc.holding_of_copies hp) (hfree p)

omit [DecidableEq P] in
theorem opened_attended (data : ℕ → UInt8) : Attended (opened data : Sys P) := by
  constructor
  all_goals intro q hq; cases hq

theorem pipe_wakeup (data : ℕ → UInt8) (es : List (Event P)) (s : Sys P)
    (hrun : Run (Steps pipeStep) (opened data) es s) (hsig : Along (Steps pipeStep) Signalled (opened data) es)
    (hl : s.lock = none) : Awake s :=
  (hrun.invariant (fun _ _ _ h hc hs => step_attended h hc hs) hsig (opened_attended data)).awake hl

instance [Fintype P] (s : Sys P) : ∀ e, Decidable (Signalled s e)
  | .advance p =>
    inferInstanceAs (Decidable (¬ ((s.pc p).stuck = true ∧ s.pipe.isFull ∧
      (s.pipe.readopen = false ∨ s.killed p = true) ∧ ∃ q, (s.pc q).chan = some .nread)))
  | .write .. | .read .. | .close .. | .acquire _ | .kill _ => .isTrue trivial

/-- A reader sleeps on the new pipe until a writer has filled it and sleeps in its turn. -/
def fillPipe : List (Event Bool) :=
  [.read false 1, .acquire false, .advance false, .write true (List.replicate 513 7), .acquire true] ++
    List.replicate 514 (.advance true)

theorem pipe_wakeup_reader : ∃ s : Sys Bool, Run (Steps pipeStep) (opened fun _ => 0) fillPipe s ∧ s.lock = none ∧
    s.pc true = .asleepWrite [7] ∧ s.pc false = .lockRead 1 ∧ Awake s ∧ s.pipe.isFull := by
  have h : (exec pipeStep (opened fun _ => 0 : Sys Bool) fillPipe).map (fun s => (s.lock, s.pc true, s.pc false)) =
      some (none, .asleepWrite [7], .lockRead 1) := by
    decide +kernel
  obtain ⟨s, he, hs⟩ := Option.map_eq_some_iff.mp h
  simp only [Prod.mk.injEq] at hs
  obtain ⟨hl, hw, hr⟩ := hs
  have hawake := pipe_wakeup _ _ s (run_of_exec he) (by decide +kernel) hl
  exact ⟨s, run_of_exec he, hl, hw, hr, hawake, (hawake.writer true (by rw [hw]; rfl)).1⟩

/-- The reader sleeps, then a writer that is killed on its way to the lock fills the pipe and returns early. -/
theorem killed_writer_leaves_reader : ∃ (es : List (Event Bool)) (s : Sys Bool),
    Run (Steps pipeStep) (opened fun _ => 0) es s ∧ s.lock = none ∧ ¬ Awake s := by
  let es : List (Event Bool) := [.read false 1, .acquire false, .advance false,
    .write true (List.replicate 513 7), .kill true, .acquire true] ++ List.replicate 513 (.advance true)
  have h : (exec pipeStep (opened fun _ => 0) es).map
      (fun s => (s.lock, s.pc false, decide s.pipe.isEmpty)) = some (none, .asleepRead 1, false) := by
    decide +kernel
  obtain ⟨s, he, hs⟩ := Option.map_eq_some_iff.mp h
  simp only [Prod.mk.injEq, decide_eq_false_iff_not] at hs
  obtain ⟨hl, hpc, hne⟩ := hs
  refine ⟨es, s, run_of_exec he, hl, fun ha => hne (ha.reader false ?_).1⟩
  rw [hpc]
  rfl

end Xv6.PipeCalls
