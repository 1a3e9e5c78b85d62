import Xv6.LineScan
import Xv6.Grep

/-!
What `grep` writes for the chunks in which its input comes. A turn of its loop scans the lines of what it has and of
what it reads, but keeps the unfinished line only if there was a newline.
-/

namespace Xv6.Grep

open ByteMemory LineScan
open Function (update_self update_of_ne update_idem)

def newline : UInt8 := '\n'.toUInt8

def At (buf : Bytes) : ℕ → Str → Prop
  | s, [] => buf s = 0
  | s, c :: l => c ≠ 0 ∧ buf s = c ∧ At buf (s + 1) l

theorem at_iff {buf : Bytes} {s : ℕ} {l : Str} :
    At buf s l ↔ (∀ i (h : i < l.length), buf (s + i) = l[i]) ∧ buf (s + l.length) = 0 ∧ 0 ∉ l := by
  induction l generalizing s with
  | nil => simp [At]
  | cons c l ih =>
    rw [At, ih]
    constructor
    · rintro ⟨hc, hs, hl, hn, h0⟩
      refine ⟨?_, ?_, ?_⟩
      · intro i hi
        cases i with
        | zero => exact hs
        | succ i =>
          rw [show s + (i + 1) = s + 1 + i by omega]
          exact hl i (by simpa using hi)
      · rw [List.length_cons, show s + (l.length + 1) = s + 1 + l.length by omega]
        exact hn
      · rw [List.mem_cons]
        rintro (h | h)
        · exact hc h.symm
        · exact h0 h
    · rintro ⟨hl, hn, h0⟩
      refine ⟨fun e => h0 (e ▸ List.mem_cons_self), hl 0 (by simp), ?_, ?_, fun h => h0 (List.mem_cons_of_mem c h)⟩
      · intro i hi
        rw [show s + 1 + i = s + (i + 1) by omega]
        exact hl (i + 1) (by simpa using hi)
      · rw [show s + 1 + l.length = s + (l.length + 1) by omega]
        exact hn

variable {buf : Bytes} {s n q : ℕ} {l u v : Str} {c : UInt8} {pattern : Str}

theorem At.string (h : At buf s l) (hn : l.length ≤ n) : string buf n s = l := by
  induction l generalizing s n with
  | nil =>
    have h : buf s = 0 := h
    cases n with
    | zero => rfl
    | succ n => rw [Grep.string, if_pos h]
  | cons c l ih =>
    obtain ⟨hc, hs, hl⟩ := h
    cases n with
    | zero => simp at hn
    | succ n => rw [Grep.string, if_neg (hs ▸ hc), hs, ih hl (by simpa using hn)]

theorem At.strchr_none (h : At buf s l) (hc : c ∉ l) : strchr buf c n s = none := by
  induction n generalizing s l with
  | zero => rfl
  | succ n ih =>
    rw [strchr]
    cases l with
    | nil => rw [if_pos (show buf s = 0 from h)]
    | cons d l =>
      obtain ⟨hd, hs, hl⟩ := h
      rw [if_neg (hs ▸ hd), if_neg (hs ▸ fun e => hc (e ▸ List.mem_cons_self))]
      exact ih hl fun h => hc (List.mem_cons_of_mem d h)

theorem At.strchr_some (h : At buf s (u ++ c :: v)) (hc : c ∉ u) (hn : u.length < n) :
    strchr buf c n s = some (s + u.length) := by
  induction u generalizing s n with
  | nil =>
    obtain ⟨hd, hs, hl⟩ := h
    cases n with
    | zero => simp at hn
    | succ n => rw [strchr, if_neg (hs ▸ hd), if_pos hs]; rfl
  | cons d u ih =>
    obtain ⟨hd, hs, hl⟩ := h
    cases n with
    | zero => simp at hn
    | succ n =>
      rw [strchr, if_neg (hs ▸ hd), if_neg (hs ▸ fun e => hc (e ▸ List.mem_cons_self)),
        ih hl (fun h => hc (List.mem_cons_of_mem d h)) (by simpa using hn), List.length_cons]
      congr 1
      omega

theorem At.drop (h : At buf s (u ++ v)) : At buf (s + u.length) v := by
  induction u generalizing s with
  | nil => exact h
  | cons c u ih =>
    rw [List.length_cons, show s + (u.length + 1) = s + 1 + u.length by omega]
    exact ih h.2.2

theorem At.update (h : At buf s l) (hq : q < s) (x : UInt8) : At (Function.update buf q x) s l := by
  rw [at_iff] at h ⊢
  refine ⟨fun i hi => ?_, ?_, h.2.2⟩
  · rw [update_of_ne (by omega), h.1 i hi]
  · rw [update_of_ne (by omega), h.2.1]

theorem At.cut (h : At buf s (u ++ v)) : At (Function.update buf (s + u.length) 0) s u := by
  rw [at_iff] at h ⊢
  refine ⟨fun i hi => ?_, update_self .., fun h0 => h.2.2 (List.mem_append_left v h0)⟩
  rw [update_of_ne (by omega), h.1 i (by rw [List.length_append]; omega), List.getElem_append_left hi]

theorem At.slice (h : At buf s (u ++ v)) (hn : n = u.length) : slice buf s n = u := by
  subst hn
  rw [at_iff] at h
  apply List.ext_getElem
  · simp [Grep.slice]
  · intro i hi hu
    simp only [Grep.slice, List.getElem_map, List.getElem_range]
    rw [h.1 i (by rw [List.length_append]; omega), List.getElem_append_left hu]

theorem line_spec (pattern : Str) {s : Lines} (h : At s.buf s.p (u ++ newline :: v)) (hs : s.p + u.length < sizeofBuf) :
    At (line pattern s (s.p + u.length)).buf (s.p + u.length + 1) v ∧
      (line pattern s (s.p + u.length)).p = s.p + u.length + 1 ∧
      (line pattern s (s.p + u.length)).out = s.out ++ (if matchRe pattern u then u ++ [newline] else []) := by
  have hu : Grep.string (Function.update s.buf (s.p + u.length) 0) (sizeofBuf - s.p) s.p = u :=
    h.cut.string (by omega)
  have hv : At s.buf (s.p + u.length + 1) v := h.drop.2.2
  have hq : s.buf (s.p + u.length) = newline := h.drop.2.1
  simp only [line, hu]
  split
  · -- The newline is put back before the line is written.
    have e : Function.update (Function.update s.buf (s.p + u.length) 0) (s.p + u.length) '\n'.toUInt8 = s.buf := by
      rw [update_idem]
      exact Function.update_eq_self_iff.mpr hq.symm
    have h : At s.buf s.p ((u ++ [newline]) ++ v) := by rwa [List.append_assoc]
    simp only [e]
    refine ⟨hv, trivial, ?_⟩
    rw [h.slice (by rw [List.length_append, List.length_singleton]; omega)]
  · exact ⟨hv.update (by omega) 0, rfl, (List.append_nil _).symm⟩

theorem lineLoop_spec (pattern : Str) {s : Lines} (h : At s.buf s.p l) (hs : s.p + l.length < sizeofBuf)
    (hn : l.length < n) :
    At (lineLoop pattern n s).buf (lineLoop pattern n s).p (scan (matchRe pattern) newline [] l).2 ∧
      (lineLoop pattern n s).p + (scan (matchRe pattern) newline [] l).2.length = s.p + l.length ∧
      (lineLoop pattern n s).out = s.out ++ (scan (matchRe pattern) newline [] l).1 ∧
      s.p ≤ (lineLoop pattern n s).p ∧ (newline ∈ l → s.p < (lineLoop pattern n s).p) := by
  induction n generalizing s l with
  | zero => omega
  | succ n ih =>
    rw [lineLoop]
    by_cases hl : newline ∈ l
    · obtain ⟨u, v, rfl, hu⟩ := List.eq_append_cons_of_mem hl
      have hlen : (u ++ newline :: v).length = u.length + 1 + v.length := by
        rw [List.length_append, List.length_cons]
        omega
      have hq := h.strchr_some hu (n := sizeofBuf - s.p) (by omega)
      obtain ⟨hb, hp, ho⟩ := line_spec pattern h (by omega)
      obtain ⟨ia, ip, io, ile, -⟩ := ih (s := line pattern s (s.p + u.length)) (l := v) (by rwa [hp]) (by omega)
          (by omega)
      simp only [newline] at hq
      simp only [hq, scan_line hu]
      refine ⟨ia, by omega, ?_, by omega, fun _ => by omega⟩
      rw [io, ho, List.append_assoc]
    · have hq := h.strchr_none hl (n := sizeofBuf - s.p)
      simp only [newline] at hq
      simp only [hq, scan_rest hl, List.nil_append, List.append_nil]
      exact ⟨h, trivial, trivial, le_rfl, fun h => absurd h hl⟩

theorem memmove_of_lt (buf : Bytes) {dst k : ℕ} (src n : ℕ) (h : k < dst) : memmove buf dst src n k = buf k := by
  induction n generalizing buf dst src with
  | zero => rfl
  | succ n ih => rw [memmove, ih _ _ (by omega), update_of_ne (by omega)]

theorem memmove_apply (buf : Bytes) (dst src n i : ℕ) (h : dst ≤ src) (hi : i < n) :
    memmove buf dst src n (dst + i) = buf (src + i) := by
  induction n generalizing buf dst src i with
  | zero => omega
  | succ n ih =>
    rw [memmove]
    cases i with
    | zero => rw [memmove_of_lt _ _ _ (by omega), Nat.add_zero, Nat.add_zero, update_self]
    | succ i =>
      rw [show dst + (i + 1) = dst + 1 + i by omega, ih _ _ _ _ (by omega) (by omega), update_of_ne (by omega)]
      congr 1
      omega

structure Carries (s : State) (r : Str) : Prop where
  m : s.m = r.length
  buf : ∀ i (h : i < r.length), s.buf i = r[i]
  nul : 0 ∉ r
  line : newline ∉ r
  fits : r.length < sizeofBuf

theorem Carries.start : Carries start [] := ⟨rfl, by simp, by simp, by simp, by decide⟩

def kept (r chunk : Str) : Str := if newline ∈ chunk then (scan (fun _ => true) newline r chunk).2 else []

variable {t : State} {r chunk : Str}

theorem Carries.request (h : Carries t r) : t.request = sizeofBuf - r.length - 1 := by
  rw [State.request, h.m]

theorem Carries.loaded (h : Carries t r) (hc : 0 ∉ chunk) :
    At (Function.update (store t.buf t.m chunk) (t.m + chunk.length) 0) 0 (r ++ chunk) := by
  rw [at_iff]
  simp only [Nat.zero_add, List.length_append, h.m]
  refine ⟨fun i hi => ?_, update_self .., fun h0 => (List.mem_append.mp h0).elim h.nul hc⟩
  rw [update_of_ne (by omega), store]
  split
  · rw [List.getElem_append_right (by omega), List.getD_eq_getElem _ _ (by omega)]
  · rw [h.buf i (by omega), List.getElem_append_left (by omega)]

theorem kept_spec (hr : newline ∉ r) (h0 : 0 ∉ r) (hc : 0 ∉ chunk) : 0 ∉ kept r chunk ∧ newline ∉ kept r chunk := by
  rw [kept]
  split
  · exact ⟨fun h => (mem_scan_snd h).elim h0 hc, notMem_scan_snd hr chunk⟩
  · exact ⟨List.not_mem_nil, List.not_mem_nil⟩

theorem length_kept_le (r chunk : Str) : (kept r chunk).length ≤ r.length + chunk.length := by
  rw [kept]
  split
  · have : (scan (fun _ => true) newline r chunk).1.length + (scan (fun _ => true) newline r chunk).2.length =
        r.length + chunk.length := length_scan_all (fun _ => rfl) newline r chunk
    omega
  · simp

theorem turn_spec (pattern : Str) (h : Carries t r) (hc : 0 ∉ chunk) (hn : chunk.length ≤ t.request) :
    Carries (turn pattern t chunk) (kept r chunk) ∧
      (turn pattern t chunk).out = t.out ++ (scan (matchRe pattern) newline r chunk).1 := by
  obtain ⟨hk0, hkl⟩ := kept_spec h.line h.nul hc
  have hle := length_kept_le r chunk
  have hfit := h.fits
  rw [h.request] at hn
  have hlen : (r ++ chunk).length = t.m + chunk.length := by rw [List.length_append, h.m]
  have hm := h.m
  obtain ⟨ha, hp, ho, -, hlp⟩ := lineLoop_spec pattern (n := sizeofBuf)
    (s := ⟨Function.update (store t.buf t.m chunk) (t.m + chunk.length) 0, 0, t.out⟩) (h.loaded hc)
    (by simp only; omega) (by omega)
  rw [scan_carried h.line] at ha hp ho
  simp only [turn]
  generalize lineLoop pattern sizeofBuf _ = w at *
  by_cases hnl : newline ∈ chunk
  · have hkeep : kept r chunk = (scan (matchRe pattern) newline r chunk).2 := by
      rw [kept, if_pos hnl]
      exact scan_snd_eq _ _ chunk
    rw [← hkeep] at ha hp
    have hpos : 0 < w.p := hlp (List.mem_append_right r hnl)
    have hmpos : 0 < t.m + chunk.length := by simp only at hp; omega
    simp only [if_neg (by omega : ¬ w.p = 0), if_pos hmpos]
    have hmk : t.m + chunk.length - w.p = (kept r chunk).length := by simp only at hp; omega
    refine ⟨⟨hmk, fun i hi => ?_, hk0, hkl, by omega⟩, ho⟩
    have := memmove_apply w.buf 0 w.p (t.m + chunk.length - w.p) i (by omega) (by omega)
    rw [Nat.zero_add] at this
    exact this.trans ((at_iff.mp ha).1 i hi)
  · -- No newline: the buffer is taken for full and what it holds is dropped.
    have hkeep : kept r chunk = [] := if_neg hnl
    rw [scan_rest hnl, hlen] at hp
    have hw : w.p = 0 := by simp only at hp; omega
    simp only [hw, if_true, lt_irrefl, if_false, hkeep]
    exact ⟨⟨rfl, by simp, by simp, by simp, by decide⟩, ho⟩

variable {chunks : List (List UInt8)}

theorem out_of_newlines (h : Carries t r) (h0 : ∀ c ∈ chunks, 0 ∉ c) (hr : Reads pattern t chunks)
    (hnl : ∀ c ∈ chunks, newline ∈ c) :
    (chunks.foldl (turn pattern) t).out = t.out ++ (scan (matchRe pattern) newline r chunks.flatten).1 := by
  induction chunks generalizing t r with
  | nil => simp [scan]
  | cons c chunks ih =>
    obtain ⟨-, hn, hr⟩ := hr
    obtain ⟨hk, ho⟩ := turn_spec pattern h (h0 c List.mem_cons_self) hn
    have hkeep : kept r c = (scan (matchRe pattern) newline r c).2 := by
      rw [kept, if_pos (hnl c List.mem_cons_self)]
      exact scan_snd_eq _ _ c
    rw [List.foldl_cons, ih hk (fun d hd => h0 d (List.mem_cons_of_mem c hd)) hr
      fun d hd => hnl d (List.mem_cons_of_mem c hd), ho, hkeep, List.flatten_cons, scan_append, List.append_assoc]

theorem matchRe_nil (text : Str) : matchRe [] text = true := by
  cases text <;> simp [matchRe, matchFrom, matchhere]

theorem length_out_all (h : Carries t r) (h0 : ∀ c ∈ chunks, 0 ∉ c) (hr : Reads [] t chunks) :
    (chunks.foldl (turn []) t).out.length + chunks.countP (newline ∉ ·) ≤
      t.out.length + r.length + chunks.flatten.length := by
  induction chunks generalizing t r with
  | nil => simp
  | cons c chunks ih =>
    obtain ⟨hne, hn, hr⟩ := hr
    obtain ⟨hk, ho⟩ := turn_spec [] h (h0 c List.mem_cons_self) hn
    have ih := ih hk (fun d hd => h0 d (List.mem_cons_of_mem c hd)) hr
    have hall := length_scan_all matchRe_nil newline r c
    have hpos : 0 < c.length := List.length_pos_of_ne_nil hne
    rw [ho, List.length_append] at ih
    rw [List.foldl_cons, List.countP_cons, List.flatten_cons, List.length_append]
    by_cases hnl : newline ∈ c
    · rw [kept, if_pos hnl, scan_snd_eq _ (matchRe [])] at ih
      simp only [hnl, not_true_eq_false, decide_false, Bool.false_eq_true, if_false]
      omega
    · rw [kept, if_neg hnl, scan_rest hnl, List.length_nil] at ih
      simp only [hnl, not_false_eq_true, decide_true, if_true]
      omega

theorem reads_congr {t' : State} {p p' : Str} (h : Carries t r) (h' : Carries t' r) (h0 : ∀ c ∈ chunks, 0 ∉ c)
    (hr : Reads p t chunks) : Reads p' t' chunks := by
  induction chunks generalizing t t' r with
  | nil => trivial
  | cons c chunks ih =>
    obtain ⟨hne, hn, hr⟩ := hr
    have hn' : c.length ≤ t'.request := by rwa [h'.request, ← h.request]
    exact ⟨hne, hn', ih (turn_spec p h (h0 c List.mem_cons_self) hn).1 (turn_spec p' h' (h0 c List.mem_cons_self) hn').1
      (fun d hd => h0 d (List.mem_cons_of_mem c hd)) hr⟩

theorem notMem_of_flatten {lines : List Str} (hl : ∀ l ∈ lines, 0 ∉ l) (hc : chunks.flatten = unlines newline lines) :
    ∀ c ∈ chunks, 0 ∉ c := by
  intro c hc' h
  have hm : (0 : UInt8) ∈ unlines newline lines := hc ▸ List.mem_flatten.mpr ⟨c, hc', h⟩
  obtain ⟨l, hl', hm⟩ := List.mem_flatMap.mp hm
  rcases List.mem_append.mp hm with hm | hm
  · exact hl l hl' hm
  · exact absurd (List.mem_singleton.mp hm) (by decide)

/-- `grep` writes the matching lines for every pattern exactly when each `read` brings a newline: a chunk without one
is dropped with the unfinished line before it. -/
theorem grep_eq_iff {lines : List Str} (hl : ∀ l ∈ lines, 0 ∉ l ∧ newline ∉ l)
    (hc : chunks.flatten = unlines newline lines) (hr : ∀ pattern, Reads pattern start chunks) :
    (∀ pattern, 0 ∉ pattern → grep pattern chunks = unlines newline (lines.filter (matchRe pattern))) ↔
      ∀ chunk ∈ chunks, newline ∈ chunk := by
  have h0 := notMem_of_flatten (fun l h => (hl l h).1) hc
  constructor
  · intro h
    have hout := length_out_all Carries.start h0 (hr [])
    have hall : unlines newline (lines.filter (matchRe [])) = chunks.flatten := by
      rw [hc, List.filter_eq_self.mpr fun l _ => matchRe_nil l]
    have hg := h [] List.not_mem_nil
    rw [hall, grep] at hg
    rw [hg] at hout
    have hz : chunks.countP (newline ∉ ·) = 0 := by
      simp only [start, List.length_nil] at hout
      omega
    intro chunk hm
    by_contra hn
    exact List.countP_eq_zero.mp hz chunk hm (decide_eq_true hn)
  · intro h pattern _
    rw [grep, out_of_newlines Carries.start h0 (hr pattern) h, hc, scan_unlines fun l h => (hl l h).2]
    rfl

theorem grep_eq_iff_two_lines :
    (∀ pattern, Reads pattern start [[97, 10, 98], [99, 10]]) ∧
      ((∀ pattern, 0 ∉ pattern → grep pattern [[97, 10, 98], [99, 10]] =
        unlines newline ([[97], [98, 99]].filter (matchRe pattern))) ↔
        ∀ chunk ∈ [[97, 10, 98], [99, 10]], newline ∈ chunk) := by
  have hr : ∀ pattern, Reads pattern start [[97, 10, 98], [99, 10]] := fun pattern =>
    reads_congr (p := []) Carries.start Carries.start (by decide) (by decide +kernel)
  exact ⟨hr, grep_eq_iff (by decide) (by decide) hr⟩

/-- The line `ab` read as `a` and `b\n` is not found by the pattern `a`. -/
theorem grep_loses_partial_line :
    ¬ ∀ (pattern : Str) (lines chunks : List Str), 0 ∉ pattern →
      (∀ l ∈ lines, 0 ∉ l ∧ newline ∉ l ∧ l.length ≤ 1022) → chunks.flatten = unlines newline lines →
      Reads pattern start chunks → grep pattern chunks = unlines newline (lines.filter (matchRe pattern)) := by
  intro h
  have := h [97] [[97, 98]] [[97], [98, 10]] (by decide) (by decide) (by decide) (by decide +kernel)
  exact absurd this (by decide +kernel)

end Xv6.Grep
