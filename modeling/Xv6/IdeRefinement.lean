import Xv6.IdeDriver

namespace Xv6.IdeDriver

open ByteMemory LinkedRing MemIde Transition
open Function (update update_self update_of_ne update_comm)

variable {P B : Type}

def Pc.call : Pc B → Option B
  | .idle => none
  | .waiting b | .asleep b => some b

def Device.isDone : Device → Bool
  | .done _ => true
  | _ => false

def Serves (s : Ide P B) : List B → Prop
  | [] => s.device = .idle
  | b :: _ => (s.buf b).blockno < FSSIZE ∧ (s.device = command (s.buf b) ∨ s.device.isDone = true)

structure Queue (s : Ide P B) (l : List B) : Prop where
  linked : Linked s.next none l
  nodup : l.Nodup
  queued : s.queued = s.handled ++ l
  started : s.started = s.handled ++ l.take 1
  completed : s.completed = s.handled ++ if s.device.isDone then l.take 1 else []
  serves : Serves s l
  pending : ∀ b ∈ l, ¬ Finished (s.buf b) ∧ (s.buf b).dev = 1
  caller : ∀ b ∈ l, ∃ p, (s.pc p).call = some b
  locked : ∀ p b, (s.pc p).call = some b → s.lock b = some p
  waits : ∀ p b, (s.pc p).call = some b → b ∈ l ∨ Finished (s.buf b)

variable {s t : Ide P B} {l : List B} {b : B} {p : P} {havedisk1 : Bool}

theorem Queue.not_mem (h : Queue s l) (hp : s.pc p = .idle)
    (hb : s.lock b = some p) : b ∉ l ∧ ∀ q, (s.pc q).call ≠ some b := by
  have hcall : ∀ q, (s.pc q).call ≠ some b := by
    intro q hq
    have hl := h.locked q b hq
    rw [hb] at hl
    rw [← Option.some.inj hl, hp] at hq
    cases hq
  refine ⟨fun hm => ?_, hcall⟩
  obtain ⟨q, hq⟩ := h.caller b hm
  exact hcall q hq

theorem Serves.frame (h : Serves s l) (hbuf : ∀ b ∈ l, t.buf b = s.buf b)
    (hdev : t.device = s.device) : Serves t l := by
  cases l with
  | nil => exact hdev.trans h
  | cons b l =>
    rw [Serves, hbuf b (by simp), hdev]
    exact h

theorem Queue.frame (h : Queue s l) (hnext : t.next = s.next) (hdev : t.device = s.device)
    (hlogs : t.queued = s.queued ∧ t.started = s.started ∧ t.completed = s.completed ∧ t.handled = s.handled)
    (hbuf : ∀ b ∈ l, t.buf b = s.buf b)
    (hcall : ∀ b ∈ l, ∀ p, (s.pc p).call = some b → (t.pc p).call = some b)
    (hback : ∀ p b, (t.pc p).call = some b → (s.pc p).call = some b ∧ t.lock b = some p ∧ t.buf b = s.buf b) :
    Queue t l where
  linked := hnext ▸ h.linked
  nodup := h.nodup
  queued := by rw [hlogs.1, hlogs.2.2.2, h.queued]
  started := by rw [hlogs.2.1, hlogs.2.2.2, h.started]
  completed := by rw [hlogs.2.2.1, hlogs.2.2.2, hdev, h.completed]
  serves := h.serves.frame hbuf hdev
  pending b hb := by
    rw [hbuf b hb]
    exact h.pending b hb
  caller b hb := by
    obtain ⟨p, hp⟩ := h.caller b hb
    exact ⟨p, hcall b hb p hp⟩
  locked p b hp := (hback p b hp).2.1
  waits p b hp := by
    obtain ⟨hp, -, he⟩ := hback p b hp
    rw [he]
    exact h.waits p b hp

theorem idestart_cases (h : idestart s (some b) = .ok t) :
    (s.buf b).blockno < FSSIZE ∧ t = { s with device := command (s.buf b), started := s.started ++ [b] } := by
  simp only [idestart] at h
  split_ifs at h with hn
  cases h
  exact ⟨not_le.mp hn, rfl⟩

theorem Queue.served (h : Queue s (b :: l)) (hd : s.device.isDone = false)
    (disk : Disk) (data : Bytes) : Queue (served s disk data) (b :: l) := by
  have hnext : s.next none = some b := h.linked.1
  have hcompleted : s.completed = s.handled := by simpa [hd] using h.completed
  refine ⟨h.linked, h.nodup, h.queued, h.started, ?_, ⟨h.serves.1, Or.inr rfl⟩, h.pending, h.caller, h.locked, h.waits⟩
  simp [IdeDriver.served, Device.isDone, hcompleted, hnext]

variable [DecidableEq B]

theorem view_of_done {data : Bytes} (hd : s.device = .done data) (hn : s.next none = some b) :
    view s = { buf := update s.buf b (finish data (s.buf b)), disk := s.disk } := by
  simp only [view, hd, hn]

theorem view_served (hn : s.next none = some b) (disk : Disk) (data : Bytes) :
    view (served s disk data) = { buf := update s.buf b (finish data (s.buf b)), disk := disk } :=
  view_of_done rfl hn

theorem view_of_not_done (hd : s.device.isDone = false) : view s = { buf := s.buf, disk := s.disk } := by
  cases h : s.device with
  | idle => simp only [view, h]
  | busy n w => simp only [view, h]
  | done data => simp [h, Device.isDone] at hd

theorem view_congr (hdev : t.device = s.device) (hnext : t.next none = s.next none)
    (hbuf : t.buf = s.buf) (hdisk : t.disk = s.disk) : view t = view s := by
  simp only [view, hdev, hnext, hbuf, hdisk]

theorem serve_spec (h : Queue s l) (hs : serve s = some t) :
    Queue t l ∧ Run (Steps memStep) (view s) ((s.next none).toList.map .iderw) (view t) := by
  obtain ⟨b, l, rfl⟩ : ∃ b l', l = b :: l' := by
    cases l with
    | nil =>
      have hi : s.device = .idle := h.serves
      simp [serve, hi] at hs
    | cons b l => exact ⟨b, l, rfl⟩
  have hnext : s.next none = some b := h.linked.1
  obtain ⟨hlt, hdev⟩ := h.serves
  replace hdev : s.device = command (s.buf b) := by
    rcases hdev with hdev | hdev
    · exact hdev
    · cases hd : s.device with
      | idle => simp [serve, hd] at hs
      | busy n w => simp [hd, Device.isDone] at hdev
      | done data => simp [serve, hd] at hs
  obtain ⟨hpend, hdev1⟩ := h.pending b (by simp)
  have hdone : s.device.isDone = false := by rw [hdev]; rfl
  -- the synchronous call passes all its tests
  have hmem : memStep (view s) (.iderw b) = some (.ok
      { buf := update s.buf b (sync s.disk (s.buf b)).2, disk := (sync s.disk (s.buf b)).1 }) := by
    have hr : MemIde.iderw FSSIZE true s.disk (s.buf b) = .ok (sync s.disk (s.buf b)) := by
      rw [Finished] at hpend
      simp only [MemIde.iderw]
      simp [hpend, hdev1, not_le.mpr hlt]
    simp only [memStep, view_of_not_done hdone, hr, Outcome.ok_bind]
  rw [hnext]
  have hqueue := h.served hdone
  cases hd : (s.buf b).dirty with
  | true =>
    have hdev' : s.device = .busy (s.buf b).blockno (some (s.buf b).data) := by simp [hdev, command, hd]
    simp only [serve, hdev'] at hs
    cases hs
    refine ⟨hqueue _ _, .cons (t := view _) ?_ (.nil _)⟩
    rw [Steps, hmem, view_served hnext]
    simp [sync, finish, hd]
  | false =>
    have hdev' : s.device = .busy (s.buf b).blockno none := by simp [hdev, command, hd]
    simp only [serve, hdev'] at hs
    cases hs
    refine ⟨hqueue _ _, .cons (t := view _) ?_ (.nil _)⟩
    rw [Steps, hmem, view_served hnext]
    simp [sync, finish, hd]

theorem wakeup_call (s : Ide P B) (b : B) (p : P) : ((wakeup s b).pc p).call = (s.pc p).call := by
  simp only [wakeup]
  split_ifs with h
  · rw [h]
    rfl
  · rfl

theorem ideintr_spec {data : Bytes} (h : Queue s l) (hd : s.device = .done data)
    (hs : ideintr s data = .ok t) : (∃ l', Queue t l') ∧ view t = view s := by
  obtain ⟨b, l, rfl⟩ : ∃ b l', l = b :: l' := by
    cases l with
    | nil =>
      have hi : s.device = .idle := h.serves
      rw [hd] at hi
      cases hi
    | cons b l => exact ⟨b, l, rfl⟩
  have hnext : s.next none = some b := h.linked.1
  have hcompleted : s.completed = s.handled ++ [b] := by simpa [hd, Device.isDone] using h.completed
  obtain ⟨hbl, hnodup⟩ := List.nodup_cons.mp h.nodup
  have hne : ∀ c ∈ l, c ≠ b := fun c hc e => hbl (e ▸ hc)
  have hlinked : Linked (complete s data b).next none l := Linked.pop h.linked
  have hother : ∀ c, c ≠ b → (complete s data b).buf c = s.buf c := fun c hc => by
    simp [complete, wakeup, update_of_ne hc]
  have hself : (complete s data b).buf b = finish data (s.buf b) := by simp [complete, wakeup]
  have hview : view s = { buf := (complete s data b).buf, disk := s.disk } := view_of_done hd hnext
  -- everything but the device, which the next request may occupy
  have hqueue : ∀ u : Ide P B, u.next = (complete s data b).next → u.buf = (complete s data b).buf →
      u.pc = (complete s data b).pc → u.lock = s.lock → u.queued = s.queued → u.handled = s.handled ++ [b] →
      u.completed = s.completed → u.started = s.handled ++ [b] ++ l.take 1 → u.device.isDone = false → Serves u l →
      Queue u l := by
    intro u hn hb hpc hlock hq hh hc hst hdone hsv
    refine ⟨hn ▸ hlinked, hnodup, ?_, ?_, ?_, hsv, ?_, ?_, ?_, ?_⟩
    · rw [hq, hh, h.queued]
      simp
    · rw [hst, hh]
    · rw [hc, hh, hcompleted, hdone]
      simp
    · intro c hc
      rw [hb, hother c (hne c hc)]
      exact h.pending c (List.mem_cons_of_mem b hc)
    · intro c hc
      obtain ⟨p, hp⟩ := h.caller c (List.mem_cons_of_mem b hc)
      refine ⟨p, ?_⟩
      rw [hpc, complete, wakeup_call]
      exact hp
    · intro p c hp
      rw [hpc, complete, wakeup_call] at hp
      rw [hlock]
      exact h.locked p c hp
    · intro p c hp
      rw [hpc, complete, wakeup_call] at hp
      rw [hb]
      by_cases hcb : c = b
      · right
        rw [hcb, hself]
        exact ⟨rfl, rfl⟩
      · rw [hother c hcb]
        rcases h.waits p c hp with hm | hf
        · exact Or.inl ((List.mem_cons.mp hm).resolve_left hcb)
        · exact Or.inr hf
  have hstarted : s.started = s.handled ++ [b] := by simpa using h.started
  simp only [ideintr, hnext] at hs
  cases l with
  | nil =>
    have hempty : (complete s data b).next none = none := hlinked
    rw [hempty] at hs
    cases hs
    refine ⟨⟨[], hqueue _ rfl rfl rfl rfl rfl rfl rfl ?_ rfl rfl⟩, ?_⟩
    · show s.started = _
      simpa using hstarted
    · rw [hview, view_of_not_done (by rfl)]
      rfl
  | cons c l =>
    have hfirst : (complete s data b).next none = some c := hlinked.1
    rw [hfirst] at hs
    obtain ⟨hlt, rfl⟩ := idestart_cases hs
    refine ⟨⟨c :: l, hqueue _ rfl rfl rfl rfl rfl rfl rfl ?_ rfl ⟨hlt, Or.inl rfl⟩⟩, ?_⟩
    · show s.started ++ [c] = _
      rw [hstarted]
      rfl
    · rw [hview, view_of_not_done (by rfl)]
      rfl

variable [DecidableEq P]

omit [DecidableEq B] in
theorem await_call {p q : P} {b c : B} (hp : ((await s p b).pc q).call = some c) :
    q = p ∧ c = b ∧ ¬ Finished (s.buf b) ∨ q ≠ p ∧ (s.pc q).call = some c := by
  by_cases hq : q = p
  · subst hq
    left
    simp only [await, update_self] at hp
    split_ifs at hp with hf
    · cases hp
    · cases hp
      exact ⟨rfl, rfl, hf⟩
  · right
    simp only [await, update_of_ne hq] at hp
    exact ⟨hq, hp⟩

theorem iderw_cases [Fintype B] (h : iderw havedisk1 s p b = .ok t) :
    ¬ Finished (s.buf b) ∧ ∃ u, startFirst (enqueue s b) b = .ok u ∧ t = await u p b := by
  simp only [iderw] at h
  split_ifs at h with _ hf
  cases hu : startFirst (enqueue s b) b with
  | error e => simp [hu] at h
  | ok u =>
    rw [hu, Outcome.ok_bind] at h
    cases h
    exact ⟨hf, u, rfl, rfl⟩

theorem iderw_spec [Fintype B] (h : Queue s l)
    (hp : s.pc p = .idle) (hlock : s.lock b = some p) (hdev : (s.buf b).dev = 1)
    (hs : iderw havedisk1 s p b = .ok t) : (∃ l', Queue t l') ∧ view t = view s := by
  obtain ⟨hbl, hcall⟩ := h.not_mem hp hlock
  obtain ⟨hf, u, hu, rfl⟩ := iderw_cases hs
  have hlinked : Linked (enqueue s b).next none (l ++ [b]) := h.linked.push h.nodup hbl h.nodup.length_le_card
  have hqueue : ∀ u : Ide P B, u.next = (enqueue s b).next → u.buf = s.buf → u.lock = s.lock → u.pc = s.pc →
      u.queued = s.queued ++ [b] → u.handled = s.handled → u.started = s.handled ++ (l ++ [b]).take 1 →
      (u.completed = s.handled ++ if u.device.isDone then (l ++ [b]).take 1 else []) → Serves u (l ++ [b]) →
      Queue (await u p b) (l ++ [b]) := by
    intro u hn hb hl hpc hq hh hst hc hsv
    refine ⟨hn ▸ hlinked, ?_, ?_, ?_, ?_, hsv.frame (fun _ _ => rfl) rfl, ?_, ?_, ?_, ?_⟩
    · exact h.nodup.append (List.nodup_singleton b) (by simpa using hbl)
    · show u.queued = u.handled ++ _
      rw [hq, hh, h.queued, List.append_assoc]
    · show u.started = u.handled ++ _
      rw [hst, hh]
    · show u.completed = u.handled ++ _
      rw [hc, hh]
      rfl
    · intro c hc
      show ¬ Finished (u.buf c) ∧ (u.buf c).dev = 1
      rw [hb]
      rcases List.mem_append.mp hc with hc | hc
      · exact h.pending c hc
      · rw [List.mem_singleton.mp hc]
        exact ⟨hf, hdev⟩
    · intro c hc
      rcases List.mem_append.mp hc with hc | hc
      · obtain ⟨q, hq⟩ := h.caller c hc
        have hqp : q ≠ p := by
          rintro rfl
          rw [hp] at hq
          cases hq
        exact ⟨q, by simpa [await, update_of_ne hqp, hpc] using hq⟩
      · refine ⟨p, ?_⟩
        simp [await, hb, hf, Pc.call, List.mem_singleton.mp hc]
    · intro q c hq
      show u.lock c = some q
      rw [hl]
      rcases await_call hq with ⟨rfl, rfl, -⟩ | ⟨-, hq⟩
      · exact hlock
      · exact h.locked q c (hpc ▸ hq)
    · intro q c hq
      show c ∈ l ++ [b] ∨ Finished (u.buf c)
      rw [hb]
      rcases await_call hq with ⟨-, rfl, -⟩ | ⟨-, hq⟩
      · exact Or.inl (by simp)
      · rcases h.waits q c (hpc ▸ hq) with hm | hfin
        · exact Or.inl (List.mem_append_left _ hm)
        · exact Or.inr hfin
  cases l with
  | nil =>
    have hidle : s.device = .idle := h.serves
    have hfirst : (enqueue s b).next none = some b := hlinked.1
    rw [startFirst, if_pos hfirst] at hu
    obtain ⟨hlt, rfl⟩ := idestart_cases hu
    refine ⟨⟨[b], hqueue _ rfl rfl rfl rfl rfl rfl ?_ ?_ ⟨hlt, Or.inl rfl⟩⟩, ?_⟩
    · show s.started ++ [b] = _
      rw [h.started]
      simp
    · show s.completed = _
      rw [h.completed, hidle]
      rfl
    · rw [view_of_not_done (by rfl), view_of_not_done (s := s) (by rw [hidle]; rfl)]
      rfl
  | cons c l =>
    have hfirst : (enqueue s b).next none = some c := hlinked.1
    have hcb : c ≠ b := fun e => hbl (by simp [e])
    rw [startFirst, hfirst, if_neg (by simpa using hcb)] at hu
    cases hu
    refine ⟨⟨c :: l ++ [b], hqueue _ rfl rfl rfl rfl rfl rfl ?_ ?_ ?_⟩, ?_⟩
    · show s.started = _
      rw [h.started]
      rfl
    · show s.completed = _
      rw [h.completed]
      rfl
    · exact h.serves
    · exact view_congr rfl (hfirst.trans h.linked.1.symm) rfl rfl

omit [DecidableEq B] in
theorem await_queue (h : Queue s l) (hp : s.pc p = .waiting b) : Queue (await s p b) l := by
  refine h.frame rfl rfl ⟨rfl, rfl, rfl, rfl⟩ (fun _ _ => rfl) ?_ ?_
  · intro c hc q hq
    by_cases hqp : q = p
    · subst hqp
      rw [hp] at hq
      cases hq
      simp [await, (h.pending b hc).1, Pc.call]
    · simpa [await, update_of_ne hqp] using hq
  · intro q c hq
    have hs : (s.pc q).call = some c := by
      rcases await_call hq with ⟨rfl, rfl, -⟩ | ⟨-, hq⟩
      · rw [hp]
        rfl
      · exact hq
    exact ⟨hs, h.locked q c hs, rfl⟩

theorem step_spec [Fintype B] {e : Event P B} (h : Queue s l) (hs : Steps (ideStep havedisk1) s e t) :
    (∃ l', Queue t l') ∧ Run (Steps memStep) (view s) (synchronous s e) (view t) := by
  have hsilent : ∀ {u : Ide P B}, (∃ l', Queue u l') ∧ view u = view s →
      (∃ l', Queue u l') ∧ Run (Steps memStep) (view s) [] (view u) := fun hu => ⟨hu.1, hu.2 ▸ .nil _⟩
  simp only [Steps] at hs
  cases e with
  | acquiresleep p b =>
    simp only [ideStep] at hs
    split_ifs at hs with hp
    cases hs
    refine hsilent ⟨⟨l, h.frame rfl rfl ⟨rfl, rfl, rfl, rfl⟩ (fun _ _ => rfl) (fun _ _ _ hq => hq) ?_⟩, rfl⟩
    intro q c hq
    have hl := h.locked q c hq
    have hcb : c ≠ b := by
      rintro rfl
      rw [hp.2] at hl
      cases hl
    exact ⟨hq, by simpa [update_of_ne hcb] using hl, rfl⟩
  | releasesleep p b =>
    simp only [ideStep] at hs
    split_ifs at hs with hp
    cases hs
    refine hsilent ⟨⟨l, h.frame rfl rfl ⟨rfl, rfl, rfl, rfl⟩ (fun _ _ => rfl) (fun _ _ _ hq => hq) ?_⟩, rfl⟩
    intro q c hq
    have hcb : c ≠ b := by
      rintro rfl
      exact (h.not_mem hp.1 hp.2).2 q hq
    exact ⟨hq, by simpa [update_of_ne hcb] using h.locked q c hq, rfl⟩
  | change p b x =>
    simp only [ideStep] at hs
    split_ifs at hs with hp
    cases hs
    obtain ⟨hbl, hcall⟩ := h.not_mem hp.1 hp.2
    have hne : ∀ c ∈ l, c ≠ b := fun c hc e => hbl (e ▸ hc)
    refine ⟨⟨l, h.frame rfl rfl ⟨rfl, rfl, rfl, rfl⟩ ?_ (fun _ _ _ hq => hq) ?_⟩, .cons (t := view _) ?_ (.nil _)⟩
    · intro c hc
      exact update_of_ne (hne c hc) _ _
    · intro q c hq
      have hcb : c ≠ b := by
        rintro rfl
        exact hcall q hq
      exact ⟨hq, h.locked q c hq, update_of_ne hcb _ _⟩
    · cases hd : s.device.isDone with
      | false =>
        rw [view_of_not_done hd, view_of_not_done (by simpa using hd)]
        rfl
      | true =>
        obtain ⟨data, hdata⟩ : ∃ data, s.device = .done data := by
          cases hdev : s.device with
          | done data => exact ⟨data, rfl⟩
          | idle => simp [hdev, Device.isDone] at hd
          | busy n w => simp [hdev, Device.isDone] at hd
        cases l with
        | nil =>
          have hi : s.device = .idle := h.serves
          rw [hdata] at hi
          cases hi
        | cons c l =>
          have hcb : c ≠ b := hne c (by simp)
          rw [view_of_done hdata h.linked.1, view_of_done (by simpa using hdata) (by simpa using h.linked.1)]
          simp only [Steps, memStep, update_of_ne hcb]
          rw [update_comm hcb]
  | iderw p b =>
    simp only [ideStep] at hs
    split_ifs at hs with hp
    exact hsilent (iderw_spec h hp.1 hp.2.1 hp.2.2 (Option.some.inj hs))
  | advance p =>
    simp only [ideStep] at hs
    split at hs
    · next b hp =>
      cases hs
      exact hsilent ⟨⟨l, await_queue h hp⟩, rfl⟩
    · cases hs
  | kill p =>
    simp only [ideStep] at hs
    split at hs
    · next b hp =>
      cases hs
      have hsame : ∀ q, (update s.pc p (.waiting b) q).call = (s.pc q).call := by
        intro q
        by_cases hq : q = p
        · subst hq
          rw [update_self, hp]
          rfl
        · rw [update_of_ne hq]
      refine hsilent ⟨⟨l, h.frame rfl rfl ⟨rfl, rfl, rfl, rfl⟩ (fun _ _ => rfl) ?_ ?_⟩, rfl⟩
      · intro c _ q hq
        exact (hsame q).trans hq
      · intro q c hq
        have hq' := (hsame q).symm.trans hq
        exact ⟨hq', h.locked q c hq', rfl⟩
    · cases hs
  | serve =>
    simp only [ideStep] at hs
    obtain ⟨u, hu, he⟩ := Option.map_eq_some_iff.mp hs
    cases he
    obtain ⟨hq, hr⟩ := serve_spec h hu
    exact ⟨⟨l, hq⟩, hr⟩
  | interrupt =>
    simp only [ideStep] at hs
    split at hs
    · next data hd => exact hsilent (ideintr_spec h hd (Option.some.inj hs))
    · cases hs

def MemEvent.request : MemEvent B → Option B
  | .iderw b => some b
  | .change .. => none

theorem step_completed [Fintype B] {e : Event P B} (hs : Steps (ideStep havedisk1) s e t) :
    t.completed = s.completed ++ (synchronous s e).filterMap MemEvent.request := by
  simp only [Steps] at hs
  cases e with
  | acquiresleep p b | releasesleep p b =>
    simp only [ideStep] at hs
    split_ifs at hs
    cases hs
    simp [synchronous]
  | change p b x =>
    simp only [ideStep] at hs
    split_ifs at hs
    cases hs
    simp [synchronous, MemEvent.request]
  | iderw p b =>
    simp only [ideStep] at hs
    split_ifs at hs
    obtain ⟨-, u, hu, rfl⟩ := iderw_cases (Option.some.inj hs)
    simp only [startFirst] at hu
    split_ifs at hu
    · obtain ⟨-, rfl⟩ := idestart_cases hu
      simp [await, enqueue, synchronous]
    · cases hu
      simp [await, enqueue, synchronous]
  | advance p | kill p =>
    simp only [ideStep] at hs
    split at hs
    · cases hs
      simp [await, synchronous]
    · cases hs
  | serve =>
    simp only [ideStep] at hs
    obtain ⟨u, hu, he⟩ := Option.map_eq_some_iff.mp hs
    cases he
    have hlog : t.completed = s.completed ++ (s.next none).toList := by
      simp only [serve] at hu
      split at hu
      · cases hu
        rfl
      · cases hu
        rfl
      · cases hu
    rw [hlog, synchronous]
    cases s.next none <;> rfl
  | interrupt =>
    simp only [ideStep] at hs
    split at hs
    · next data hd =>
      replace hs := Option.some.inj hs
      simp only [ideintr] at hs
      split at hs
      · cases hs
        simp [synchronous]
      · split at hs
        · cases hs
          simp [complete, wakeup, synchronous]
        · obtain ⟨-, rfl⟩ := idestart_cases hs
          simp [complete, wakeup, synchronous]
    · cases hs

theorem run_spec [Fintype B] {es : List (Event P B)} (h : Queue s l) (hrun : Run (Steps (ideStep havedisk1)) s es t) :
    (∃ l', Queue t l') ∧ Run (Steps memStep) (view s) (trace havedisk1 s es) (view t) ∧
      t.completed = s.completed ++ (trace havedisk1 s es).filterMap MemEvent.request := by
  induction hrun generalizing l with
  | nil s => exact ⟨⟨l, h⟩, .nil _, by simp [trace]⟩
  | @cons s u t e es hs hrun ih =>
    obtain ⟨⟨l', hu⟩, hr⟩ := step_spec h hs
    obtain ⟨hq, hr', hc⟩ := ih hu
    have htrace : trace havedisk1 s (e :: es) = synchronous s e ++ trace havedisk1 u es := by
      rw [trace, show ideStep havedisk1 s e = some (.ok u) from hs]
    refine ⟨hq, htrace ▸ hr.append hr', ?_⟩
    rw [hc, step_completed hs, htrace, List.filterMap_append, List.append_assoc]

omit [DecidableEq P] [DecidableEq B] in
theorem boot_queue (disk : Disk) (buf : B → Buf) : Queue (boot disk buf : Ide P B) [] where
  linked := rfl
  nodup := List.nodup_nil
  queued := rfl
  started := rfl
  completed := rfl
  serves := rfl
  pending := by simp
  caller := by simp
  locked p b hp := by cases hp
  waits p b hp := by cases hp

theorem iderw_returns [Fintype B] (h : Queue s l)
    (hp : s.pc p = .waiting b) (hs : Steps (ideStep havedisk1) s (.advance p) t) (ht : t.pc p = .idle) :
    b ∉ l ∧ Finished (t.buf b) ∧ (view t).buf b = t.buf b := by
  simp only [Steps, ideStep, hp] at hs
  cases hs
  have hf : Finished (s.buf b) := by
    by_contra hf
    simp [await, hf] at ht
  have hbl : b ∉ l := fun hm => (h.pending b hm).1 hf
  refine ⟨hbl, hf, ?_⟩
  cases hd : s.device.isDone with
  | false => rw [view_of_not_done (by simpa [await] using hd)]
  | true =>
    cases l with
    | nil =>
      have hi : s.device = .idle := h.serves
      simp [hi, Device.isDone] at hd
    | cons c l =>
      cases hdev : s.device with
      | idle => simp [hdev, Device.isDone] at hd
      | busy n w => simp [hdev, Device.isDone] at hd
      | done data =>
        have hbc : b ≠ c := fun e => hbl (by simp [e])
        have hdone : (await s p b).device = .done data := by simpa [await] using hdev
        rw [view_of_done hdone (by simpa [await] using h.linked.1)]
        exact update_of_ne hbc _ _

theorem ide_refines_memide [Fintype B] {havedisk1 : Bool} {disk : Disk} {buf : B → Buf} {s : Ide P B}
    {es : List (Event P B)} (hrun : Run (Steps (ideStep havedisk1)) (boot disk buf) es s) :
    (∃ l, Linked s.next none l ∧ l.Nodup ∧ Serves s l ∧ s.queued = s.handled ++ l ∧
      s.started = s.handled ++ l.take 1 ∧ (s.completed = s.handled ++ if s.device.isDone then l.take 1 else []) ∧
      ∀ p b t, s.pc p = .waiting b → Steps (ideStep havedisk1) s (.advance p) t → t.pc p = .idle →
        b ∉ l ∧ Finished (t.buf b) ∧ (view t).buf b = t.buf b) ∧
      Run (Steps memStep) { buf := buf, disk := disk } (trace havedisk1 (boot disk buf : Ide P B) es) (view s) ∧
      s.completed = (trace havedisk1 (boot disk buf : Ide P B) es).filterMap MemEvent.request := by
  obtain ⟨⟨l, h⟩, hr, hc⟩ := run_spec (boot_queue disk buf) hrun
  refine ⟨⟨l, h.linked, h.nodup, h.serves, h.queued, h.started, h.completed, ?_⟩, hr, hc⟩
  intro p b t hp hs ht
  exact iderw_returns h hp hs ht

def twoRequests : List (Event Bool Bool) :=
  [.acquiresleep true true, .acquiresleep false false, .iderw true true, .iderw false false, .serve, .interrupt, .serve]

def twoBuffers (b : Bool) : Buf where
  valid := !b
  dirty := !b
  dev := 1
  blockno := if b then 3 else 4
  refcnt := 1
  data := fill 7

theorem ide_refines_memide_two : ∃ s t : Ide Bool Bool,
    Run (Steps (ideStep true)) (boot (fun _ => zero) twoBuffers) twoRequests s ∧
      s.handled = [true] ∧ s.started = [true, false] ∧ s.completed = [true, false] ∧
      Steps (ideStep true) s (.advance true) t ∧ Finished (t.buf true) ∧ (view t).buf true = t.buf true ∧
      Run (Steps memStep) { buf := twoBuffers, disk := fun _ => zero }
        (trace true (boot (fun _ => zero) twoBuffers : Ide Bool Bool) twoRequests) (view s) := by
  have h : (exec (ideStep true) (boot (fun _ => zero) twoBuffers) twoRequests).map
      (fun s => (s.pc true, decide (Finished (s.buf true)), s.handled, s.started, s.completed)) =
      some (.waiting true, true, [true], [true, false], [true, false]) := by decide +kernel
  obtain ⟨s, he, hs⟩ := Option.map_eq_some_iff.mp h
  simp only [Prod.mk.injEq, decide_eq_true_eq] at hs
  obtain ⟨hp, hf, hh, hst, hc⟩ := hs
  have hrun := run_of_exec he
  obtain ⟨⟨l, -, -, -, -, -, -, hret⟩, hmem, -⟩ := ide_refines_memide hrun
  have hstep : Steps (ideStep true) s (.advance true) (await s true true) := by simp [Steps, ideStep, hp]
  obtain ⟨-, hfin, hview⟩ := hret true true _ hp hstep (by simp [await, hf])
  exact ⟨s, _, hrun, hh, hst, hc, hstep, hfin, hview, hmem⟩

end Xv6.IdeDriver
