import Xv6.Console

namespace Xv6.Console

open RingBuffer Transition

structure Represents (i : Input) (k : Editor) : Prop where
  ring : Holds INPUT_BUF (2 ^ 32) i.buf i.r.toNat i.e.toNat (k.queue ++ k.line)
  commit : i.w.toNat = (i.r.toNat + k.queue.length) % 2 ^ 32
  open_line : newline ∉ k.line
  full : k.queue.length + k.line.length = INPUT_BUF → k.line = []

variable {i : Input} {k : Editor}

theorem buf_dvd : INPUT_BUF ∣ 2 ^ 32 := by decide

theorem buf_lt : INPUT_BUF < 2 ^ 32 := by decide

theorem toNat_sub_eq (a b : UInt32) : (a - b).toNat = (a.toNat + 2 ^ 32 - b.toNat) % 2 ^ 32 := by
  have := b.toNat_lt
  rw [UInt32.toNat_sub]
  congr 1
  omega

theorem Represents.queue (h : Represents i k) : Holds INPUT_BUF (2 ^ 32) i.buf i.r.toNat i.w.toNat k.queue := by
  rw [h.commit]
  exact h.ring.front

theorem Represents.empty_iff (h : Represents i k) : i.r = i.w ↔ k.queue = [] := by
  rw [← UInt32.toNat_inj]
  exact h.queue.eq_nil_iff buf_lt

theorem Represents.edited_iff (h : Represents i k) : i.e = i.w ↔ k.line = [] := by
  rw [← UInt32.toNat_inj]
  exact h.queue.eq_iff buf_lt h.ring

theorem Represents.length (h : Represents i k) : (i.e - i.r).toNat = k.queue.length + k.line.length := by
  rw [toNat_sub_eq, ← h.ring.length_eq buf_lt, List.length_append]

theorem Represents.committed (h : Represents i k) : (i.w - i.r).toNat = k.queue.length := by
  rw [toNat_sub_eq, ← h.queue.length_eq buf_lt]

theorem Represents.edited (h : Represents i k) : (i.e - i.w).toNat = k.line.length := by
  have he := h.length
  have hw := h.committed
  have hroom := h.ring.room
  rw [List.length_append] at hroom
  have hb := buf_lt
  rw [show i.e - i.w = (i.e - i.r) - (i.w - i.r) by simp, toNat_sub_eq, he, hw]
  rw [show k.queue.length + k.line.length + 2 ^ 32 - k.queue.length =
      k.line.length + 2 ^ 32 by omega, Nat.add_mod_right,
    Nat.mod_eq_of_lt (by omega)]

theorem Represents.erase {line : List UInt8} {a : UInt8} (h : Represents i k) (hl : k.line = line ++ [a]) :
    i.buf ((i.e - 1).toNat % INPUT_BUF) = a ∧ Represents { i with e := i.e - 1 } { k with line := line } := by
  have hring := h.ring
  rw [hl, ← List.append_assoc] at hring
  obtain ⟨ha, hrest⟩ := hring.dropLast buf_dvd
  have he : (i.e - 1).toNat = (i.e.toNat + 2 ^ 32 - 1) % 2 ^ 32 := toNat_sub_eq _ _
  have hline : newline ∉ line := fun hm => h.open_line (by simp [hl, hm])
  have hroom := hring.room
  refine ⟨by rw [he]; exact ha, by rw [he]; exact hrest, h.commit, hline, fun hfull => ?_⟩
  simp only [List.length_append, List.length_singleton] at hroom
  simp only at hfull
  omega

theorem Represents.killLoop (h : Represents i k) : Represents (killLoop k.line.length i) { k with line := [] } := by
  obtain ⟨queue, line⟩ := k
  induction line using List.reverseRecOn generalizing i with
  | nil => exact h
  | append_singleton line a ih =>
    obtain ⟨ha, hr⟩ := h.erase rfl
    have hne : i.e ≠ i.w := by
      rw [Ne, h.edited_iff]
      simp
    have hnl : a ≠ newline := fun he => h.open_line (by simp [he])
    simp only [List.length_append, List.length_singleton, Console.killLoop]
    rw [if_pos ⟨hne, by rw [ha]; exact hnl⟩]
    exact ih hr

theorem Represents.append (h : Represents i k) (hroom : k.queue.length + k.line.length < INPUT_BUF) (c : UInt8) :
    Holds INPUT_BUF (2 ^ 32) (Function.update i.buf (i.e.toNat % INPUT_BUF) c) i.r.toNat (i.e + 1).toNat
      (k.queue ++ (k.line ++ [c])) := by
  have hpush := h.ring.push (a := c) buf_dvd (by rwa [List.length_append])
  rw [← List.append_assoc, UInt32.toNat_add]
  exact hpush

theorem Represents.backspace (h : Represents i k) :
    Represents (if i.e ≠ i.w then { i with e := i.e - 1 } else i) { k with line := k.line.dropLast } := by
  rcases k.line.eq_nil_or_concat' with hl | ⟨line, a, hl⟩
  · rw [if_neg (not_not.mpr (h.edited_iff.mpr hl)), hl, List.dropLast_nil, ← hl]
    exact h
  · have hne : i.e ≠ i.w := by
      rw [Ne, h.edited_iff, hl]
      simp
    rw [if_pos hne, hl, List.dropLast_concat]
    exact (h.erase hl).2

theorem Represents.insert (h : Represents i k) (hroom : k.queue.length + k.line.length < INPUT_BUF) (c : UInt8) :
    let i' : Input := { i with buf := Function.update i.buf (i.e.toNat % INPUT_BUF) c, e := i.e + 1 }
    (i'.e = i'.r + UInt32.ofNat INPUT_BUF ↔ k.queue.length + (k.line ++ [c]).length = INPUT_BUF) ∧
      Represents { i' with w := i'.e } ⟨k.queue ++ (k.line ++ [c]), []⟩ ∧
      (c ≠ newline → k.queue.length + (k.line ++ [c]).length ≠ INPUT_BUF → Represents i' ⟨k.queue, k.line ++ [c]⟩) := by
  have hring := h.append hroom c
  refine ⟨?_, ⟨by rwa [List.append_nil], hring.count, by simp, fun _ => rfl⟩, fun hc hfull => ?_⟩
  · rw [← List.length_append, ← hring.full_iff buf_lt, ← UInt32.toNat_inj, UInt32.toNat_add]
    rfl
  · refine ⟨hring, h.commit, ?_, fun hf => absurd hf hfull⟩
    rw [List.mem_append, List.mem_singleton, not_or]
    exact ⟨h.open_line, hc.symm⟩

theorem typed_represents (h : Represents i k) (c : UInt8) :
    Represents (i.typed c).1 (k.typed c).1 ∧ (i.typed c).2 = (k.typed c).2 := by
  simp only [Input.typed, Editor.typed]
  by_cases hP : c = ctrlP
  · simp [hP, h]
  by_cases h0 : c = 0
  · subst h0
    exact ⟨h, rfl⟩
  have hP0 : ¬(c = ctrlP ∨ c = 0) := not_or.mpr ⟨hP, h0⟩
  simp only [if_neg hP, if_neg hP0]
  by_cases hU : c = ctrlU
  · simp only [if_pos hU, h.edited]
    exact ⟨h.killLoop, trivial⟩
  simp only [if_neg hU]
  by_cases hH : c = ctrlH ∨ c = del
  · simp only [if_pos hH]
    exact ⟨h.backspace, trivial⟩
  simp only [if_neg hH, h.length, ne_eq, h0, not_false_eq_true, true_and]
  by_cases hroom : k.queue.length + k.line.length < INPUT_BUF
  · simp only [if_pos hroom]
    generalize (if c = carriageReturn then newline else c) = d
    obtain ⟨hfull, hcommit, hline⟩ := h.insert hroom d
    simp only [hfull]
    by_cases hd : d = newline ∨ d = ctrlD ∨ k.queue.length + (k.line ++ [d]).length = INPUT_BUF
    · simp only [if_pos hd]
      exact ⟨hcommit, trivial⟩
    · simp only [if_neg hd]
      rw [not_or, not_or] at hd
      exact ⟨hline hd.1 hd.2.2, trivial⟩
  · simp only [if_neg hroom]
    exact ⟨h, trivial⟩

theorem Represents.pop {c : UInt8} {queue : List UInt8} (h : Represents i k) (hq : k.queue = c :: queue) :
    i.buf (i.r.toNat % INPUT_BUF) = c ∧ Represents { i with r := i.r + 1 } { k with queue := queue } := by
  have hring := h.ring
  have hcommit := h.commit
  rw [hq] at hring hcommit
  obtain ⟨hc, hrest⟩ := hring.pop buf_dvd
  have hr : (i.r + 1).toNat = (i.r.toNat + 1) % 2 ^ 32 := UInt32.toNat_add _ _
  have hroom := hring.room
  refine ⟨hc, by rw [hr]; exact hrest, ?_, h.open_line, fun hfull => ?_⟩
  · change i.w.toNat = ((i.r + 1).toNat + queue.length) % 2 ^ 32
    rw [hcommit, hr, List.length_cons, Nat.mod_add_mod, Nat.add_comm queue.length 1, Nat.add_assoc]
  · simp only [List.cons_append, List.length_cons, List.length_append] at hroom
    simp only at hfull
    omega

theorem read_represents (killed : Bool) {target n : ℕ} {dst : List UInt8} (h : Represents i k)
    (hn : n + dst.length = target) :
    Represents (Input.read killed target n i dst).1 (Editor.read killed n k dst).1 ∧
      (Input.read killed target n i dst).2 = (Editor.read killed n k dst).2 := by
  induction n generalizing i k dst with
  | zero =>
    rw [Input.read, Editor.read]
    exact ⟨h, by rw [← hn, Nat.zero_add]⟩
  | succ n ih =>
    rw [Input.read, Editor.read]
    cases hq : k.queue with
    | nil =>
      rw [if_pos (h.empty_iff.mpr hq)]
      exact ⟨h, rfl⟩
    | cons c queue =>
      obtain ⟨hc, hpop⟩ := h.pop hq
      rw [if_neg fun he => by simp [h.empty_iff.mp he] at hq]
      simp only [hc]
      by_cases hD : c = ctrlD
      · -- the end of file stays in the buffer when bytes were read before it
        have hlt : n + 1 < target ↔ dst ≠ [] := by
          rw [← hn, ← List.length_pos_iff]
          omega
        simp only [if_pos hD, hlt, UInt32.add_sub_cancel]
        by_cases hdst : dst = []
        · simp only [hdst, ne_eq, not_true_eq_false, if_false, if_true]
          exact ⟨hpop, by simp [← hn, hdst]⟩
        · simp only [ne_eq, hdst, not_false_eq_true, if_true, if_false]
          refine ⟨h, ?_⟩
          rw [← hn, Nat.add_sub_cancel_left]
      · simp only [if_neg hD]
        by_cases hnl : c = newline
        · simp only [if_pos hnl]
          refine ⟨hpop, ?_⟩
          rw [← hn, show n + 1 + dst.length - n = dst.length + 1 by omega]
        · simp only [if_neg hnl]
          apply ih hpop
          rw [List.length_append, List.length_singleton]
          omega

def Pc.Counts : Pc → Prop
  | .idle => True
  | .asleep n target dst => n + dst.length = target
  | .woken n target dst => n + dst.length = target

theorem Pc.Counts.wake {x : Pc} (h : x.Counts) : x.wake.Counts := by
  cases x <;> exact h

variable {P : Type}

structure Matches (s : Sys P Input) (t : Sys P Editor) : Prop where
  input : Represents s.input t.input
  pc : t.pc = s.pc
  killed : t.killed = s.killed
  results : t.results = s.results
  counts : ∀ p, (s.pc p).Counts

variable {s : Sys P Input} {t : Sys P Editor}

theorem typeChar_matches (h : Matches s t) (c : UInt8) : Matches (typeChar Console.input s c)
    (typeChar editor t c) := by
  obtain ⟨hrep, hwake⟩ := typed_represents h.input c
  refine ⟨hrep, ?_, h.killed, h.results, fun p => ?_⟩
  · change (if (t.input.typed c).2 then fun p => (t.pc p).wake else t.pc) =
      if (s.input.typed c).2 then fun p => (s.pc p).wake else s.pc
    rw [hwake, h.pc]
  · change ((if (s.input.typed c).2 then fun p => (s.pc p).wake else s.pc) p).Counts
    split_ifs
    · exact (h.counts p).wake
    · exact h.counts p

theorem consoleintr_matches (h : Matches s t) (cs : List UInt8) :
    Matches (consoleintr Console.input s cs) (consoleintr editor t cs) := by
  induction cs generalizing s t with
  | nil => exact h
  | cons c cs ih => exact ih (typeChar_matches h c)

theorem read_asleep {killed : Bool} {n n' : ℕ} {k k' : Editor} {dst dst' : List UInt8}
    (h : Editor.read killed n k dst = (k', .asleep n' dst')) : n' + dst'.length = n + dst.length := by
  induction n generalizing k dst with
  | zero => cases h
  | succ n ih =>
    rw [Editor.read] at h
    split at h
    · split_ifs at h <;> cases h
      rfl
    · split_ifs at h
      · cases h
      · cases h
      · cases h
      · rw [ih h, List.length_append, List.length_singleton]
        omega

variable [DecidableEq P]

theorem consoleread_matches {p : P} {target n : ℕ} {dst : List UInt8} (h : Matches s t) (hn : n + dst.length = target) :
    Matches (consoleread Console.input s p target n dst) (consoleread editor t p target n dst) := by
  obtain ⟨hrep, hout⟩ := read_represents (s.killed p) h.input hn
  have hcounts : ∀ x : Pc, x.Counts → ∀ q, (Function.update s.pc p x q).Counts := by
    intro x hx q
    by_cases hq : q = p
    · rwa [hq, Function.update_self]
    · rw [Function.update_of_ne hq]
      exact h.counts q
  simp only [consoleread, Console.input, editor, h.killed, h.pc, h.results]
  cases hi : Input.read (s.killed p) target n s.input dst with
  | mk i x =>
    cases hk : Editor.read (s.killed p) n t.input dst with
    | mk k y =>
      rw [hi, hk] at hrep hout
      obtain rfl : x = y := hout
      cases x with
      | done ret dst => exact ⟨hrep, rfl, rfl, rfl, hcounts _ trivial⟩
      | failed => exact ⟨hrep, rfl, rfl, rfl, hcounts _ trivial⟩
      | asleep n' dst' => exact ⟨hrep, rfl, rfl, rfl, hcounts _ ((read_asleep hk).trans hn)⟩

theorem step_matches {e : Event P} {s' : Sys P Input} (h : Matches s t)
    (hs : Steps (consoleStep Console.input) s e s') : ∃ t', Steps (consoleStep editor) t e t' ∧ Matches s' t' := by
  cases e with
  | intr cs =>
    cases hs
    exact ⟨_, rfl, consoleintr_matches h cs⟩
  | read p n =>
    simp only [Steps, consoleStep, Option.ite_none_right_eq_some] at hs
    obtain ⟨hp, hs⟩ := hs
    cases hs
    refine ⟨_, if_pos (by rwa [h.pc]), consoleread_matches h rfl⟩
  | resume p =>
    simp only [Steps, consoleStep] at hs
    split at hs
    next n target dst hp =>
      cases hs
      have hn := h.counts p
      rw [hp] at hn
      refine ⟨consoleread editor t p target n dst, ?_, consoleread_matches h hn⟩
      simp only [Steps, consoleStep, h.pc, hp]
    next => cases hs
  | kill p =>
    cases hs
    refine ⟨_, rfl, h.input, by rw [h.pc], by rw [h.killed], h.results, fun q => ?_⟩
    by_cases hq : q = p
    · simpa [hq] using (h.counts p).wake
    · simpa [Function.update_of_ne hq] using h.counts q

omit [DecidableEq P] in
theorem boot_matches (buf : ℕ → UInt8) : Matches (boot ⟨buf, 0, 0, 0⟩ : Sys P Input) (boot ⟨[], []⟩) :=
  ⟨⟨Holds.nil (UInt32.toNat_lt _), rfl, List.not_mem_nil, fun _ => rfl⟩, rfl, rfl, rfl, fun _ => trivial⟩

theorem Editor.typed_erase {c : UInt8} (hc : c = ctrlU ∨ c = ctrlH ∨ c = del) (k : Editor) :
    (k.typed c).1.queue = k.queue ∧ (k.typed c).1.line <+: k.line := by
  rcases hc with rfl | rfl | rfl
  · exact ⟨rfl, List.nil_prefix⟩
  · exact ⟨rfl, List.dropLast_prefix _⟩
  · exact ⟨rfl, List.dropLast_prefix _⟩

theorem console_discipline {buf : ℕ → UInt8} {es : List (Event P)}
    (hrun : Run (Steps (consoleStep Console.input)) (boot ⟨buf, 0, 0, 0⟩) es s) :
    ((s.input.w - s.input.r).toNat ≤ (s.input.e - s.input.r).toNat ∧ (s.input.e - s.input.r).toNat ≤ INPUT_BUF ∧
      ((s.input.e - s.input.r).toNat = INPUT_BUF → s.input.r ≠ s.input.w)) ∧
    ∃ t, Run (Steps (consoleStep editor)) (boot ⟨[], []⟩) es t ∧ t.results = s.results ∧ t.pc = s.pc ∧
      Represents s.input t.input ∧ ∀ c, c = ctrlU ∨ c = ctrlH ∨ c = del →
        Represents (s.input.typed c).1 (t.input.typed c).1 ∧ (t.input.typed c).1.queue = t.input.queue ∧
          (t.input.typed c).1.line <+: t.input.line := by
  obtain ⟨t, ht, hm⟩ := hrun.simulates (boot_matches buf) fun _ _ _ _ h hs => step_matches h hs
  have hrep := hm.input
  have hroom := hrep.ring.room
  rw [List.length_append] at hroom
  refine ⟨⟨?_, ?_, fun hfull hempty => ?_⟩, t, ht, hm.results, hm.pc, hrep, fun c hc =>
    ⟨(typed_represents hrep c).1, Editor.typed_erase hc _⟩⟩
  · rw [hrep.committed, hrep.length]
    omega
  · rwa [hrep.length]
  · rw [hrep.length] at hfull
    have hqueue := hrep.empty_iff.mp hempty
    have hline := hrep.full hfull
    rw [hqueue, hline] at hfull
    cases hfull

def oneLine : List (Event Unit) :=
  [.read () 5, .intr [106, ctrlH, 107, carriageReturn, ctrlD], .resume (), .read () 5]

theorem console_discipline_line : ∃ s : Sys Unit Input, ∃ t,
    Run (Steps (consoleStep Console.input)) (boot ⟨fun _ => 0, 0, 0, 0⟩) oneLine s ∧
      Run (Steps (consoleStep editor)) (boot ⟨[], []⟩) oneLine t ∧
      t.results = [((), some (2, [107, newline])), ((), some (0, []))] := by
  have h : (Transition.exec (consoleStep Console.input) (boot ⟨fun _ => 0, 0, 0, 0⟩) oneLine).map
      (fun s : Sys Unit Input => s.results) = some [((), some (2, [107, newline])), ((), some (0, []))] := by
    decide +kernel
  obtain ⟨s, he, hs⟩ := Option.map_eq_some_iff.mp h
  obtain ⟨-, t, ht, hres, -⟩ := console_discipline (run_of_exec he)
  exact ⟨s, t, run_of_exec he, ht, hres.trans hs⟩

end Xv6.Console
