import Xv6.ShellCommand

/-!
The words of a command line are terminated in place, after the whole line was parsed. Where a terminator is written
there was no character of a word, so that the order in which they are written does not matter.
-/

namespace Xv6.Shell

open Fueled

def Exec.words (cmd : Exec) : ℕ → ℕ → List (Ptr × Ptr)
  | 0, _ => []
  | n + 1, i =>
    match load cmd.argv i, load cmd.eargv i with
    | .ok (some q), .ok (some e) => (q, e) :: cmd.words n (i + 1)
    | _, _ => []

def Cmd.words : Cmd → List (Ptr × Ptr)
  | .exec cmd => cmd.words MAXARGS 0
  | .redir cmd r => cmd.words ++ [(r.file, r.efile)]
  | .pipe left right => left.words ++ right.words
  | .list left right => left.words ++ right.words
  | .back cmd => cmd.words

def pokes (buf : List UInt8) (es : List Ptr) : List UInt8 := es.foldl poke buf

variable {s buf : List UInt8} {q e : Ptr} {w : List UInt8} {ws : List (List UInt8)} {ex : Exec} {cmd : Cmd} {tr : Tree}
  {n i : ℕ}

theorem pokes_append (buf : List UInt8) (es es' : List Ptr) : pokes buf (es ++ es') = pokes (pokes buf es) es' :=
  List.foldl_append

theorem poke_comm (buf : List UInt8) (e e' : Ptr) : poke (poke buf e) e' = poke (poke buf e') e := by
  by_cases h : buf.length - 1 - e.length = buf.length - 1 - e'.length
  · simp only [poke, List.length_set, h]
  · simp only [poke, List.length_set]
    exact List.set_comm 0 0 h

theorem pokes_perm {es es' : List Ptr} (h : es.Perm es') (buf : List UInt8) : pokes buf es = pokes buf es' :=
  h.foldl_eq' (fun e _ e' _ b => poke_comm b e e') buf

theorem Holds.words (buf : List UInt8) (h : Holds s ex ws) (hw : ws.length < MAXARGS) (hi : i ≤ ws.length)
    (hn : ws.length < n + i) :
    nulargs ex (n + 1) i buf = .ok (pokes buf ((ex.words n i).map Prod.snd)) ∧
      ∀ p ∈ ex.words n i, ∃ w, Span s p.1 p.2 w := by
  induction n generalizing i buf with
  | zero => omega
  | succ n ih =>
    have hmax : i < MAXARGS := by omega
    rcases Nat.lt_or_ge i ws.length with hlt | hge
    · obtain ⟨q, e, hq, he, hs⟩ := h.word hmax (List.getElem?_eq_getElem hlt)
      obtain ⟨ihb, ihw⟩ := ih (i := i + 1) (poke buf e) hlt (by omega)
      have hwords : ex.words (n + 1) i = (q, e) :: ex.words n (i + 1) := by
        simp only [Exec.words, load, dif_pos hmax, hq, he]
      rw [hwords]
      constructor
      · rw [nulargs]
        simp only [load, dif_pos hmax, ok_bind, hq, he, ihb]
        rfl
      · intro p hp
        rcases List.mem_cons.mp hp with rfl | hp
        · exact ⟨_, hs⟩
        · exact ihw p hp
    · have hq := h.end hmax hge
      have hwords : ex.words (n + 1) i = [] := by
        simp only [Exec.words, load, dif_pos hmax, hq]
      rw [hwords]
      constructor
      · rw [nulargs]
        simp only [load, dif_pos hmax, ok_bind, hq]
        rfl
      · exact fun p hp => absurd hp List.not_mem_nil

theorem Denotes.words (h : Denotes s cmd tr) :
    (∀ buf, nulterminate cmd buf = .ok (pokes buf (cmd.words.map Prod.snd))) ∧
      ∀ p ∈ cmd.words, ∃ w, Span s p.1 p.2 w := by
  induction h with
  | exec hw h =>
    exact ⟨fun buf => (h.words buf hw (Nat.zero_le _) (by omega)).1,
      (h.words [] hw (Nat.zero_le _) (by omega)).2⟩
  | redir h hs ih =>
    constructor
    · intro buf
      rw [nulterminate, ih.1 buf, Cmd.words, List.map_append, pokes_append]
      rfl
    · intro p hp
      rcases List.mem_append.mp hp with hp | hp
      · exact ih.2 p hp
      · rw [List.mem_singleton.mp hp]
        exact ⟨_, hs⟩
  | pipe _ _ ih ih' | list _ _ ih ih' =>
    constructor
    · intro buf
      rw [nulterminate, ih.1 buf, ok_bind, ih'.1, Cmd.words, List.map_append, pokes_append]
    · intro p hp
      exact (List.mem_append.mp hp).elim (ih.2 p) (ih'.2 p)
  | back _ ih => exact ih

theorem Span.gettoken (h : Span s q e w) :
    (gettoken q).ret = byte 'a' ∧ (gettoken q).q = q ∧ (gettoken q).eq = e := by
  obtain ⟨c, v, rfl⟩ := List.exists_cons_of_ne_nil h.nonempty
  have hq : q = c :: (v ++ e) := h.text
  have hc : inWord c = true := h.inside c List.mem_cons_self
  simp only [inWord, Bool.and_eq_true, Bool.not_eq_true'] at hc
  have hskip : skip q = q := by rw [skip, hq, List.dropWhile_cons_of_neg (by simp [hc.1])]
  have hscan : scan q = (byte 'a', q.dropWhile inWord) := by
    rw [hq]
    exact scan_word hc.2
  have hdrop : q.dropWhile inWord = e := by
    rw [h.text, List.dropWhile_append_of_pos h.inside]
    cases he : e with
    | nil => rfl
    | cons d r => rw [List.dropWhile_cons_of_neg (by rw [h.outside d (by rw [he]; rfl)]; decide)]
  simp only [Shell.gettoken, hskip, hscan, hdrop, and_self]

theorem Marked.pokes {es : List Ptr} (h : Marked s buf) (hes : ∀ e ∈ es, ∃ q w, Span s q e w) : Marked s
    (pokes buf es) := by
  induction es generalizing buf with
  | nil => exact h
  | cons e es ih =>
    obtain ⟨q, w, hs⟩ := hes e List.mem_cons_self
    exact ih (h.poke hs) fun e' he' => hes e' (List.mem_cons_of_mem e he')

theorem Nul.pokes {es : List Ptr} (h : Nul buf e) : Nul (pokes buf es) e := by
  induction es generalizing buf with
  | nil => exact h
  | cons e' es ih => exact ih h.poke

theorem Nul.of_pokes {es : List Ptr} (h : Marked s buf) (hes : ∀ e ∈ es, ∃ q w, Span s q e w) (he : e ∈ es) :
    Nul (Shell.pokes buf es) e := by
  induction es generalizing buf with
  | nil => cases he
  | cons e' es ih =>
    obtain ⟨q, w, hs⟩ := hes e' List.mem_cons_self
    rcases List.mem_cons.mp he with rfl | he
    · show Nul (Shell.pokes (Shell.poke buf e) es) e
      exact (Nul.of_poke h).pokes
    · exact ih (h.poke hs) (fun d hd => hes d (List.mem_cons_of_mem e' hd)) he

/-- Every argument and every file of an accepted line reads back as the token that `gettoken` delimited, in whatever
order the terminators are written. -/
theorem words_survive (h0 : 0 ∉ s) (hn : 4 * s.length + 4 ≤ n) (h : parsecmd n s = .ok (cmd, buf)) :
    (∀ p ∈ cmd.words, p.1 <:+ s ∧ (gettoken p.1).ret = byte 'a' ∧ (gettoken p.1).q = p.1 ∧ (gettoken p.1).eq = p.2 ∧
        cstr buf p.1 = p.1.take (p.1.length - p.2.length)) ∧
      ∀ es : List Ptr, es.Perm (cmd.words.map Prod.snd) → es.foldl poke (s ++ [0]) = buf := by
  obtain ⟨⟨cmd', ps⟩, hp, hrest⟩ := bind_eq_ok.mp h
  obtain ⟨-, ts, t, -, -, hden⟩ := ((parse_sound (s := s) n s List.suffix_rfl).1 hn).of_ok hp
  simp only at hden
  obtain ⟨hbuf, hspan⟩ := hden.words
  -- the parser is done, and `nulterminate` has run
  simp only at hrest
  split_ifs at hrest
  obtain ⟨buf', hnul, hpair⟩ := bind_eq_ok.mp hrest
  cases hpair
  obtain rfl : pokes (s ++ [0]) (cmd.words.map Prod.snd) = buf := by
    rw [hbuf] at hnul
    exact Res.ok.inj hnul
  have hends : ∀ e ∈ cmd.words.map Prod.snd, ∃ q w, Span s q e w := by
    intro e he
    obtain ⟨p, hp, rfl⟩ := List.mem_map.mp he
    obtain ⟨w, hs⟩ := hspan p hp
    exact ⟨p.1, w, hs⟩
  refine ⟨fun p hp => ?_, fun es hes => pokes_perm hes _⟩
  obtain ⟨w, hs⟩ := hspan p hp
  refine ⟨hs.suffix, hs.gettoken.1, hs.gettoken.2.1, hs.gettoken.2.2, ?_⟩
  rw [hs.cstr h0 ((Marked.init s).pokes hends) (Nul.of_pokes (Marked.init s) hends (List.mem_map_of_mem hp)), hs.text,
    List.length_append, Nat.add_sub_cancel, List.take_left]

theorem words_survive_list : ∃ cmd buf, parsecmd 100 (bytes "ls>x&;(a|b c)>>y") = .ok (cmd, buf) ∧
    cmd.words.map (fun p => cstr buf p.1) = ["ls", "x", "a", "b", "c", "y"].map bytes ∧
    (∀ p ∈ cmd.words, cstr buf p.1 = p.1.take (p.1.length - p.2.length)) := by
  have h : (parsecmd 100 (bytes "ls>x&;(a|b c)>>y") >>= fun r => .ok (r.1.words.map fun p => cstr r.2 p.1)) =
      .ok (["ls", "x", "a", "b", "c", "y"].map bytes) := by
    decide +kernel
  obtain ⟨⟨cmd, buf⟩, hp, hwords⟩ := bind_eq_ok.mp h
  exact ⟨cmd, buf, hp, Res.ok.inj hwords,
    fun p hm => ((words_survive (by decide) (by decide) hp).1 p hm).2.2.2.2⟩

end Xv6.Shell
