import Xv6.IdeRefinement

/-!
The driver with a disk that may complete a request with `IDE_DF` or `IDE_ERR` in its status.
-/

namespace Xv6.DiskErrors

open ByteMemory LinkedRing MemIde Transition IdeDriver
open Function (update update_self update_of_ne)

structure Drive (P B : Type) where
  ide : Ide P B
  error : Bool

inductive DriveEvent (P B : Type)
  | bget (p : P) (b : B)
  | recycle (p : P) (b : B) (blockno : ℕ)
  | brelse (p : P) (b : B)
  | write (p : P) (b : B) (data : Bytes)
  | iderw (p : P) (b : B)
  | advance (p : P)
  | kill (p : P)
  | serve
  | fail (left : Bytes)
  | interrupt

variable {P B : Type} [DecidableEq P] [DecidableEq B]

def Drive.touch (s : Drive P B) (b : B) (o : Option P) (x : Buf) : Drive P B :=
  { s with ide := { s.ide with lock := update s.ide.lock b o, buf := update s.ide.buf b x } }

def Drive.put (s : Drive P B) (x : Option (Outcome (Ide P B))) : Option (Outcome (Drive P B)) :=
  x.map fun y => y.map fun i => { s with ide := i }

def received (s : Drive P B) (data : Bytes) : Bytes :=
  match s.ide.next none with
  | none => data
  | some b => if s.error then (s.ide.buf b).data else data

def fail (s : Drive P B) (left : Bytes) : Option (Drive P B) :=
  match s.ide.device with
  | .busy n (some _) => some ⟨served s.ide (update s.ide.disk n left) left, true⟩
  | .busy _ none => some ⟨served s.ide s.ide.disk left, true⟩
  | _ => none

def driveStep [Fintype B] (havedisk1 : Bool) (s : Drive P B) : DriveEvent P B → Option (Outcome (Drive P B))
  | .bget p b =>
    if s.ide.pc p = .idle ∧ s.ide.lock b = none ∧ (s.ide.buf b).dev = 1 then
      some (.ok (s.touch b (some p) { s.ide.buf b with refcnt := (s.ide.buf b).refcnt + 1 }))
    else none
  | .recycle p b n =>
    if s.ide.pc p = .idle ∧ s.ide.lock b = none ∧ (s.ide.buf b).refcnt = 0 ∧ (s.ide.buf b).dirty = false ∧
        ∀ c, ¬((s.ide.buf c).dev = 1 ∧ (s.ide.buf c).blockno = n) then
      some (.ok (s.touch b (some p) ⟨false, false, 1, n, 1, (s.ide.buf b).data⟩))
    else none
  | .brelse p b =>
    if s.ide.pc p = .idle ∧ s.ide.lock b = some p then
      some (.ok (s.touch b none { s.ide.buf b with refcnt := (s.ide.buf b).refcnt - 1 }))
    else none
  | .write p b data =>
    if s.ide.pc p = .idle ∧ s.ide.lock b = some p then
      some (.ok (s.touch b (some p) { s.ide.buf b with data := data, dirty := true }))
    else none
  | .iderw p b => s.put (ideStep havedisk1 s.ide (.iderw p b))
  | .advance p => s.put (ideStep havedisk1 s.ide (.advance p))
  | .kill p => s.put (ideStep havedisk1 s.ide (.kill p))
  | .serve => (serve s.ide).map fun i => .ok ⟨i, false⟩
  | .fail left => (fail s left).map .ok
  | .interrupt =>
    match s.ide.device with
    | .done data => some ((ideintr s.ide (received s data)).map fun i => ⟨i, false⟩)
    | _ => none

def boot (disk : Disk) : Drive P B := ⟨IdeDriver.boot disk fun _ => ⟨false, false, 0, 0, 0, zero⟩, false⟩

def Coherent (s : Drive P B) : Prop :=
  ∀ b, Finished (s.ide.buf b) → (s.ide.buf b).data = s.ide.disk (s.ide.buf b).blockno

def Harmless (s : Drive P B) : DriveEvent P B → Prop
  | .interrupt => s.error = true → ∀ b, s.ide.next none = some b →
      (s.ide.buf b).data = s.ide.disk (s.ide.buf b).blockno
  | _ => True

structure Sound (s : Drive P B) (l : List B) : Prop where
  queue : Queue s.ide l
  named : ∀ b, (s.ide.buf b).dev = 1 ∨
    (s.ide.buf b).valid = false ∧ (s.ide.buf b).dirty = false ∧ s.ide.lock b = none
  unique : ∀ b c, (s.ide.buf b).dev = 1 → (s.ide.buf c).dev = 1 → (s.ide.buf b).blockno = (s.ide.buf c).blockno → b = c
  fresh : ∀ data b, s.ide.device = .done data → s.ide.next none = some b → s.error = false →
    (finish data (s.ide.buf b)).data = s.ide.disk (s.ide.buf b).blockno

variable {s t : Drive P B} {l : List B} {b : B} {p : P}

omit [DecidableEq P] [DecidableEq B] in
theorem Sound.named_of_lock (h : Sound s l) (hb : s.ide.lock b = some p) : (s.ide.buf b).dev = 1 := by
  rcases h.named b with hd | ⟨-, -, hl⟩
  · exact hd
  · rw [hb] at hl
    cases hl

omit [DecidableEq P] [DecidableEq B] in
theorem Sound.named_of_finished (h : Sound s l) (hb : Finished (s.ide.buf b)) : (s.ide.buf b).dev = 1 := by
  rcases h.named b with hd | ⟨hv, -, -⟩
  · exact hd
  · rw [hb.1] at hv
    cases hv

omit [DecidableEq P] in
theorem queue_touch (h : Queue s.ide l) (hcall : ∀ q, (s.ide.pc q).call ≠ some b) (o : Option P) (x : Buf) :
    Queue (s.touch b o x).ide l := by
  have hbl : ∀ c ∈ l, c ≠ b := by
    rintro c hc rfl
    obtain ⟨q, hq⟩ := h.caller c hc
    exact hcall q hq
  refine h.frame rfl rfl ⟨rfl, rfl, rfl, rfl⟩ ?_ (fun _ _ _ hq => hq) ?_
  · intro c hc
    exact update_of_ne (hbl c hc) _ _
  · intro q c hq
    have hcb : c ≠ b := by
      rintro rfl
      exact hcall q hq
    exact ⟨hq, by simpa [Drive.touch, update_of_ne hcb] using h.locked q c hq, update_of_ne hcb _ _⟩

omit [DecidableEq P] in
theorem Sound.touch (h : Sound s l) (hcall : ∀ q, (s.ide.pc q).call ≠ some b) {o : Option P} {x : Buf}
    (hdev : x.dev = 1) (hname : (s.ide.buf b).dev = 1 ∧ x.blockno = (s.ide.buf b).blockno ∨
      ∀ c, ¬((s.ide.buf c).dev = 1 ∧ (s.ide.buf c).blockno = x.blockno)) :
    Sound (s.touch b o x) l := by
  have hother : ∀ c, c ≠ b → (s.touch b o x).ide.buf c = s.ide.buf c := fun c hc => update_of_ne hc _ _
  have hself : (s.touch b o x).ide.buf b = x := update_self _ _ _
  have hsep : ∀ c, c ≠ b → (s.ide.buf c).dev = 1 → (s.ide.buf c).blockno ≠ x.blockno := by
    intro c hc hd he
    rcases hname with ⟨hb, hx⟩ | hno
    · exact hc (h.unique c b hd hb (he.trans hx))
    · exact hno c ⟨hd, he⟩
  refine ⟨queue_touch h.queue hcall o x, fun c => ?_, fun c c' hc hc' he => ?_, fun data c hd hn he => ?_⟩
  · by_cases hcb : c = b
    · rw [hcb, hself]
      exact Or.inl hdev
    · rw [hother c hcb, show (s.touch b o x).ide.lock c = s.ide.lock c from update_of_ne hcb _ _]
      exact h.named c
  · by_cases hcb : c = b <;> by_cases hcb' : c' = b
    · rw [hcb, hcb']
    · rw [hcb, hself, hother c' hcb'] at he
      rw [hother c' hcb'] at hc'
      exact absurd he.symm (hsep c' hcb' hc')
    · rw [hcb', hself, hother c hcb] at he
      rw [hother c hcb] at hc
      exact absurd he (hsep c hcb hc)
    · rw [hother c hcb, hother c' hcb'] at he
      rw [hother c hcb] at hc
      rw [hother c' hcb'] at hc'
      exact h.unique c c' hc hc' he
  · have hmem : c ∈ l := by
      cases l with
      | nil =>
        have hidle : s.ide.device = .idle := h.queue.serves
        cases hidle.symm.trans hd
      | cons c' l =>
        have : s.ide.next none = some c' := h.queue.linked.1
        cases this.symm.trans hn
        exact List.mem_cons_self
    have hcb : c ≠ b := by
      rintro rfl
      obtain ⟨q, hq⟩ := h.queue.caller c hmem
      exact hcall q hq
    rw [hother c hcb]
    exact h.fresh data c hd hn he

omit [DecidableEq P] in
theorem Coherent.touch (h : Coherent s) {o : Option P} {x : Buf}
    (hx : Finished x → x.data = s.ide.disk x.blockno) : Coherent (s.touch b o x) := by
  intro c hc
  by_cases hcb : c = b
  · rw [hcb, show (s.touch b o x).ide.buf b = x from update_self _ _ _] at hc ⊢
    exact hx hc
  · rw [show (s.touch b o x).ide.buf c = s.ide.buf c from update_of_ne hcb _ _] at hc ⊢
    exact h c hc

structure Quiet (s t : Ide P B) : Prop where
  buf : t.buf = s.buf
  lock : t.lock = s.lock
  disk : t.disk = s.disk
  device : ∀ data, t.device = .done data → s.device = .done data ∧ t.next none = s.next none

omit [DecidableEq P] [DecidableEq B] in
theorem Sound.quiet {i : Ide P B} (h : Sound s l) (hq : ∃ l', Queue i l') (hi : Quiet s.ide i) :
    (∃ l', Sound { s with ide := i } l') ∧ (Coherent { s with ide := i } ↔ Coherent s) := by
  obtain ⟨l', hq⟩ := hq
  refine ⟨⟨l', hq, ?_, ?_, fun data b hd hn he => ?_⟩, ?_⟩
  · simp only [hi.buf, hi.lock]
    exact h.named
  · simp only [hi.buf]
    exact h.unique
  · obtain ⟨hd', hn'⟩ := hi.device data hd
    simp only [hi.buf, hi.disk]
    exact h.fresh data b hd' (hn'.symm.trans hn) he
  · simp only [Coherent, hi.buf, hi.disk]

variable {havedisk1 : Bool}

theorem iderw_quiet [Fintype B] {s t : Ide P B} (h : Queue s l) (hp : s.pc p = .idle)
    (hlock : s.lock b = some p) (hs : iderw havedisk1 s p b = .ok t) : Quiet s t := by
  obtain ⟨hbl, -⟩ := h.not_mem hp hlock
  obtain ⟨-, u, hu, rfl⟩ := iderw_cases hs
  have hlinked : Linked (enqueue s b).next none (l ++ [b]) := h.linked.push h.nodup hbl h.nodup.length_le_card
  cases l with
  | nil =>
    rw [startFirst, if_pos hlinked.1] at hu
    obtain ⟨-, rfl⟩ := idestart_cases hu
    exact ⟨rfl, rfl, rfl, fun data hd => by cases hd⟩
  | cons c l =>
    have hfirst : (enqueue s b).next none = some c := hlinked.1
    have hcb : c ≠ b := fun e => hbl (by simp [e])
    rw [startFirst, hfirst, if_neg (by simpa using hcb)] at hu
    cases hu
    exact ⟨rfl, rfl, rfl, fun data hd => ⟨hd, hfirst.trans h.linked.1.symm⟩⟩

omit [DecidableEq P] [DecidableEq B] in
theorem Sound.served (h : Sound s (b :: l)) (hd : s.ide.device = command (s.ide.buf b)) (disk : Disk) (data : Bytes)
    (error : Bool) (hdisk : ∀ n, n ≠ (s.ide.buf b).blockno → disk n = s.ide.disk n)
    (hfresh : error = false → (finish data (s.ide.buf b)).data = disk (s.ide.buf b).blockno) :
    Sound ⟨served s.ide disk data, error⟩ (b :: l) ∧ (Coherent s → Coherent
      ⟨IdeDriver.served s.ide disk data, error⟩) := by
  have hnext : s.ide.next none = some b := h.queue.linked.1
  have hdone : s.ide.device.isDone = false := by rw [hd]; rfl
  obtain ⟨hpend, hdev⟩ := h.queue.pending b List.mem_cons_self
  refine ⟨⟨h.queue.served hdone disk data, h.named, h.unique, fun data' c hd' hn he => ?_⟩, fun hc c hf => ?_⟩
  · cases hd'
    cases hnext.symm.trans hn
    exact hfresh he
  · have hcb : c ≠ b := by
      rintro rfl
      exact hpend hf
    have hne : (s.ide.buf c).blockno ≠ (s.ide.buf b).blockno :=
      fun he => hcb (h.unique c b (h.named_of_finished hf) hdev he)
    show (s.ide.buf c).data = disk (s.ide.buf c).blockno
    rw [hdisk _ hne]
    exact hc c hf

omit [DecidableEq P] in
theorem ideintr_cases {s t : Ide P B} {data : Bytes} (hn : s.next none = some b) (hs : ideintr s data = .ok t) :
    t.buf = update s.buf b (finish data (s.buf b)) ∧ t.lock = s.lock ∧ t.disk = s.disk ∧
      t.device.isDone = false := by
  simp only [ideintr, hn] at hs
  split at hs
  · cases hs
    exact ⟨rfl, rfl, rfl, rfl⟩
  · obtain ⟨-, rfl⟩ := idestart_cases hs
    exact ⟨rfl, rfl, rfl, rfl⟩

omit [DecidableEq P] in
theorem ideintr_queue {s t : Ide P B} {data data' : Bytes} (h : Queue s (b :: l)) (hd : s.device = .done data')
    (hs : ideintr s data = .ok t) : ∃ l', Queue t l' := by
  have hq : Queue { s with device := .done data } (b :: l) := by
    refine ⟨h.linked, h.nodup, h.queued, h.started, ?_, ⟨h.serves.1, Or.inr rfl⟩, h.pending, h.caller, h.locked,
        h.waits⟩
    have hc := h.completed
    rw [hd] at hc
    exact hc
  have hn : s.next none = some b := h.linked.1
  have hsame : ideintr { s with device := .done data } data = ideintr s data := by
    simp only [ideintr, hn]
    rfl
  exact (ideintr_spec hq rfl (hsame.trans hs)).1

theorem Sound.interrupt [Fintype B] (h : Sound s l) (hs : Steps (driveStep havedisk1) s .interrupt t) :
    (∃ l', Sound t l') ∧ (Coherent s → (Coherent t ↔ Harmless s .interrupt)) := by
  simp only [Steps, driveStep] at hs
  split at hs
  · next data hd =>
    obtain ⟨b, l, rfl⟩ : ∃ b l', l = b :: l' := by
      cases l with
      | nil =>
        have hidle : s.ide.device = .idle := h.queue.serves
        cases hidle.symm.trans hd
      | cons b l => exact ⟨b, l, rfl⟩
    have hn : s.ide.next none = some b := h.queue.linked.1
    have hdev := (h.queue.pending b List.mem_cons_self).2
    replace hs := Option.some.inj hs
    cases hi : ideintr s.ide (received s data) with
    | error e =>
      rw [hi] at hs
      cases hs
    | ok i =>
      rw [hi] at hs
      cases hs
      obtain ⟨hbuf, hlock, hdisk, hdone⟩ := ideintr_cases hn hi
      obtain ⟨l', hq⟩ := ideintr_queue h.queue hd hi
      have hself : i.buf b = finish (received s data) (s.ide.buf b) := by rw [hbuf, update_self]
      have hother : ∀ c, c ≠ b → i.buf c = s.ide.buf c := fun c hc => by rw [hbuf, update_of_ne hc]
      have hname : ∀ c, (i.buf c).dev = (s.ide.buf c).dev ∧ (i.buf c).blockno = (s.ide.buf c).blockno := by
        intro c
        by_cases hcb : c = b
        · rw [hcb, hself]
          exact ⟨rfl, rfl⟩
        · rw [hother c hcb]
          exact ⟨rfl, rfl⟩
      refine ⟨⟨l', hq, fun c => ?_, fun c c' => ?_, fun data' c hd' => ?_⟩, fun hc => ?_⟩
      · by_cases hcb : c = b
        · left
          rw [hcb, (hname b).1]
          exact hdev
        · simp only [hother c hcb, hlock]
          exact h.named c
      · simp only [(hname c).1, (hname c').1, (hname c).2, (hname c').2]
        exact h.unique c c'
      · rw [show i.device = .done data' from hd'] at hdone
        cases hdone
      · have hone : Coherent ⟨i, false⟩ ↔ (i.buf b).data = s.ide.disk (s.ide.buf b).blockno := by
          constructor
          · intro hall
            have := hall b (by rw [hself]; exact ⟨rfl, rfl⟩)
            rwa [hdisk, (hname b).2] at this
          · intro hb c hf
            by_cases hcb : c = b
            · rw [hcb, hdisk, (hname b).2]
              exact hb
            · simp only [hother c hcb] at hf ⊢
              rw [hdisk]
              exact hc c hf
        rw [hone, hself, Harmless]
        cases he : s.error with
        | false =>
          have hr : received s data = data := by simp [received, hn, he]
          rw [hr]
          constructor
          · intro _ hf
            cases hf
          · exact fun _ => h.fresh data b hd hn he
        | true =>
          have hr : (finish (received s data) (s.ide.buf b)).data = (s.ide.buf b).data := by
            simp [received, hn, he, finish]
          rw [hr]
          constructor
          · intro hb _ c hcn
            cases hn.symm.trans hcn
            exact hb
          · exact fun hall => hall rfl b hn
  · cases hs

theorem Sound.completed [Fintype B] {e : DriveEvent P B} (h : Sound s l)
    (he : e = .serve ∨ ∃ left, e = .fail left) (hs : Steps (driveStep havedisk1) s e t) :
    (∃ l', Sound t l') ∧ (Coherent s → Coherent t) := by
  have hbusy : s.ide.device ≠ .idle ∧ s.ide.device.isDone = false := by
    cases hd : s.ide.device with
    | busy n w => exact ⟨by simp, rfl⟩
    | idle => rcases he with rfl | ⟨left, rfl⟩ <;> simp [Steps, driveStep, serve, fail, hd] at hs
    | done data => rcases he with rfl | ⟨left, rfl⟩ <;> simp [Steps, driveStep, serve, fail, hd] at hs
  obtain ⟨b, l, rfl⟩ : ∃ b l', l = b :: l' := by
    cases l with
    | nil => exact absurd h.queue.serves hbusy.1
    | cons b l => exact ⟨b, l, rfl⟩
  have hd : s.ide.device = command (s.ide.buf b) := by
    rcases h.queue.serves.2 with hd | hd
    · exact hd
    · rw [hbusy.2] at hd
      cases hd
  have hother : ∀ (left : Bytes) n, n ≠ (s.ide.buf b).blockno →
      update s.ide.disk (s.ide.buf b).blockno left n = s.ide.disk n :=
    fun left n hn => update_of_ne hn _ _
  cases hdirty : (s.ide.buf b).dirty with
  | true =>
    have hd' : s.ide.device = .busy (s.ide.buf b).blockno (some (s.ide.buf b).data) := by simp [hd, command, hdirty]
    rcases he with rfl | ⟨left, rfl⟩
    · simp only [Steps, driveStep, serve, hd', Option.map_some] at hs
      cases hs
      obtain ⟨h', hc⟩ := h.served hd _ (s.ide.buf b).data false (hother (s.ide.buf b).data) fun _ => by
        rw [update_self, finish, if_pos hdirty]
      exact ⟨⟨_, h'⟩, hc⟩
    · simp only [Steps, driveStep, fail, hd', Option.map_some] at hs
      cases hs
      obtain ⟨h', hc⟩ := h.served hd _ left true (hother left) fun he => by cases he
      exact ⟨⟨_, h'⟩, hc⟩
  | false =>
    have hd' : s.ide.device = .busy (s.ide.buf b).blockno none := by simp [hd, command, hdirty]
    rcases he with rfl | ⟨left, rfl⟩
    · simp only [Steps, driveStep, serve, hd', Option.map_some] at hs
      cases hs
      obtain ⟨h', hc⟩ := h.served hd s.ide.disk (s.ide.disk (s.ide.buf b).blockno) false (fun _ _ => rfl) fun _ => by
        simp [finish, hdirty]
      exact ⟨⟨_, h'⟩, hc⟩
    · simp only [Steps, driveStep, fail, hd', Option.map_some] at hs
      cases hs
      obtain ⟨h', hc⟩ := h.served hd s.ide.disk left true (fun _ _ => rfl) fun he => by cases he
      exact ⟨⟨_, h'⟩, hc⟩

omit [DecidableEq P] [DecidableEq B] in
theorem put_eq {x : Option (Outcome (Ide P B))} (h : s.put x = some (.ok t)) :
    ∃ i, x = some (.ok i) ∧ t = { s with ide := i } := by
  obtain ⟨y, hy, h⟩ := Option.map_eq_some_iff.mp h
  cases y with
  | error e => cases h
  | ok i =>
    cases h
    exact ⟨i, hy, rfl⟩

theorem step_spec [Fintype B] {e : DriveEvent P B} (h : Sound s l) (hs : Steps (driveStep havedisk1) s e t) :
    (∃ l', Sound t l') ∧ (Coherent s → (Coherent t ↔ Harmless s e)) := by
  have hfree : ∀ {b : B}, s.ide.lock b = none → ∀ q, (s.ide.pc q).call ≠ some b := by
    intro b hb q hq
    rw [h.queue.locked q b hq] at hb
    cases hb
  have hown : ∀ {p : P} {b : B}, s.ide.pc p = .idle → s.ide.lock b = some p → ∀ q, (s.ide.pc q).call ≠ some b :=
    fun hp hb => (h.queue.not_mem hp hb).2
  have hkeep : ∀ {u : Drive P B}, (Coherent s → Coherent u) → Coherent s → (Coherent u ↔ True) :=
    fun hu hc => iff_true_intro (hu hc)
  cases e with
  | bget p b =>
    simp only [Steps, driveStep] at hs
    split_ifs at hs with hp
    cases hs
    refine ⟨⟨l, h.touch (hfree hp.2.1) hp.2.2 (Or.inl ⟨hp.2.2, rfl⟩)⟩, hkeep fun hc => hc.touch ?_⟩
    exact hc b
  | recycle p b n =>
    simp only [Steps, driveStep] at hs
    split_ifs at hs with hp
    cases hs
    refine ⟨⟨l, h.touch (hfree hp.2.1) rfl (Or.inr hp.2.2.2.2)⟩, hkeep fun hc => hc.touch ?_⟩
    rintro ⟨hv, -⟩
    cases hv
  | brelse p b =>
    simp only [Steps, driveStep] at hs
    split_ifs at hs with hp
    cases hs
    have hd := h.named_of_lock hp.2
    refine ⟨⟨l, h.touch (hown hp.1 hp.2) hd (Or.inl ⟨hd, rfl⟩)⟩, hkeep fun hc => hc.touch ?_⟩
    exact hc b
  | write p b data =>
    simp only [Steps, driveStep] at hs
    split_ifs at hs with hp
    cases hs
    have hd := h.named_of_lock hp.2
    refine ⟨⟨l, h.touch (hown hp.1 hp.2) hd (Or.inl ⟨hd, rfl⟩)⟩, hkeep fun hc => hc.touch ?_⟩
    rintro ⟨-, hdirty⟩
    cases hdirty
  | iderw p b =>
    obtain ⟨i, hi, rfl⟩ := put_eq hs
    obtain ⟨hq, -⟩ := IdeDriver.step_spec h.queue hi
    simp only [ideStep] at hi
    split_ifs at hi with hp
    obtain ⟨hs', hc⟩ := h.quiet hq (iderw_quiet h.queue hp.1 hp.2.1 (Option.some.inj hi))
    exact ⟨hs', hkeep hc.mpr⟩
  | advance p | kill p =>
    obtain ⟨i, hi, rfl⟩ := put_eq hs
    obtain ⟨hq, -⟩ := IdeDriver.step_spec h.queue hi
    simp only [ideStep] at hi
    split at hi
    · cases hi
      obtain ⟨hs', hc⟩ := h.quiet hq ⟨rfl, rfl, rfl, fun _ hd => ⟨hd, rfl⟩⟩
      exact ⟨hs', hkeep hc.mpr⟩
    · cases hi
  | serve =>
    obtain ⟨hs', hc⟩ := h.completed (Or.inl rfl) hs
    exact ⟨hs', hkeep hc⟩
  | fail left =>
    obtain ⟨hs', hc⟩ := h.completed (Or.inr ⟨left, rfl⟩) hs
    exact ⟨hs', hkeep hc⟩
  | interrupt => exact h.interrupt hs

omit [DecidableEq P] [DecidableEq B] in
theorem boot_sound (disk : Disk) : Sound (boot disk : Drive P B) [] where
  queue := boot_queue _ _
  named _ := Or.inr ⟨rfl, rfl, rfl⟩
  unique _ _ hb := by cases hb
  fresh _ _ hd := by cases hd

omit [DecidableEq P] [DecidableEq B] in
theorem boot_coherent (disk : Disk) : Coherent (boot disk : Drive P B) := by
  rintro b ⟨hv, -⟩
  cases hv

/-- Clean buffers hold what is on the disk all along a run exactly if every failure that `ideintr` passed over was
harmless. -/
theorem coherent_iff_harmless [Fintype B] {havedisk1 : Bool} {disk : Disk} {es : List (DriveEvent P B)}
    (hrun : Run (Steps (driveStep havedisk1)) (boot disk) es t) :
    Along (Steps (driveStep havedisk1)) (fun s e => ∀ u, Steps (driveStep havedisk1) s e u → Coherent u)
    (boot disk) es ↔
      Along (Steps (driveStep havedisk1)) Harmless (boot disk) es := by
  refine hrun.along_iff (I := fun s => ∃ l, Sound s l) ?_ ?_ ⟨[], boot_sound disk⟩ (boot_coherent disk)
  · rintro s e t ⟨l, h⟩ hs
    exact (step_spec h hs).1
  · rintro s e t ⟨l, h⟩ hc hs
    exact (step_spec h hs).2 hc

theorem NBUF_pos : 0 < NBUF := by decide

def first : Fin NBUF := ⟨0, NBUF_pos⟩

def failedRead : List (DriveEvent Unit (Fin NBUF)) :=
  [.recycle () first 3, .iderw () first, .fail zero, .interrupt, .advance ()]

def failedWrite : List (DriveEvent Unit (Fin NBUF)) :=
  [.recycle () first 3, .iderw () first, .serve, .interrupt, .advance (), .write () first (fill 9), .iderw () first,
      .fail (fill 7),
    .interrupt, .advance ()]

theorem exec_stale (es : List (DriveEvent Unit (Fin NBUF))) (disk : Disk) (x y : UInt8) (hxy : x ≠ y)
    (h : (exec (driveStep true) (boot disk) es).map (fun s => (s.ide.pc (), decide (Finished (s.ide.buf first)),
      (s.ide.buf first).data 0, s.ide.disk (s.ide.buf first).blockno 0)) = some (.idle, true, x, y)) :
    ∃ t, Run (Steps (driveStep true)) (boot disk) es t ∧ t.ide.pc () = .idle ∧ ¬Coherent t := by
  obtain ⟨t, he, ht⟩ := Option.map_eq_some_iff.mp h
  simp only [Prod.mk.injEq, decide_eq_true_eq] at ht
  obtain ⟨hpc, hf, hx, hy⟩ := ht
  refine ⟨t, run_of_exec he, hpc, fun hc => hxy ?_⟩
  rw [← hx, ← hy, hc first hf]

theorem failed_read_not_harmless : ∃ t : Drive Unit (Fin NBUF),
    Run (Steps (driveStep true)) (boot fun _ => fill 7) failedRead t ∧
      ¬Along (Steps (driveStep true)) Harmless (boot fun _ => fill 7) failedRead := by
  obtain ⟨t, hrun, -, hno⟩ := exec_stale failedRead (fun _ => fill 7) 0 7 (by decide) (by decide +kernel)
  refine ⟨t, hrun, fun hh => hno ?_⟩
  exact hrun.invariant (fun s e u _ hc hs => hc u hs) ((coherent_iff_harmless hrun).mpr hh) (boot_coherent _)

/-- `bread` and `bwrite` return although the disk has reported an error. -/
theorem disk_error_passes : (∃ t : Drive Unit (Fin NBUF), Run (Steps (driveStep true))
    (boot fun _ => fill 7) failedRead t ∧
      t.ide.pc () = .idle ∧ ¬Coherent t) ∧
    ∃ t : Drive Unit (Fin NBUF), Run (Steps (driveStep true)) (boot fun _ => fill 7) failedWrite t ∧
      t.ide.pc () = .idle ∧ ¬Coherent t := by
  constructor
  · exact exec_stale failedRead _ 0 7 (by decide) (by decide +kernel)
  · exact exec_stale failedWrite _ 9 7 (by decide) (by decide +kernel)

end Xv6.DiskErrors
