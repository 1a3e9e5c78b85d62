import Xv6.ShellParser

namespace Xv6.Shell

open Fueled

structure Marked (s buf : List UInt8) : Prop where
  length : buf.length = s.length + 1
  inside : ∀ (i : ℕ) (c : UInt8), s[i]? = some c → inWord c = true → buf[i]? = some c

def Nul (buf : List UInt8) (e : Ptr) : Prop := buf[buf.length - 1 - e.length]? = some 0

def Ended (buf : List UInt8) : Cmd → Prop
  | .exec cmd => ∀ i q e, cmd.argv i = some q → cmd.eargv i = some e → Nul buf e
  | .redir cmd r => Ended buf cmd ∧ Nul buf r.efile
  | .pipe left right | .list left right => Ended buf left ∧ Ended buf right
  | .back cmd => Ended buf cmd

variable {s buf buf' : List UInt8} {q e : Ptr} {w : List UInt8} {ws : List (List UInt8)} {ex : Exec} {cmd : Cmd}
  {tr : Tree} {n i : ℕ}

theorem Marked.init (s : List UInt8) : Marked s (s ++ [0]) := by
  refine ⟨by simp, fun i c hi _ => ?_⟩
  rw [List.getElem?_append_left (List.getElem?_eq_some_iff.mp hi).1]
  exact hi

theorem Span.split (h : Span s q e w) : ∃ p, s = p ++ (w ++ e) ∧ s.length - q.length = p.length ∧
    s.length - e.length = p.length + w.length := by
  obtain ⟨p, hp⟩ := h.suffix
  rw [h.text] at hp ⊢
  refine ⟨p, hp.symm, ?_, ?_⟩
  · rw [← hp]
    simp
  · rw [← hp]
    simp only [List.length_append]
    omega

theorem Marked.poke (h : Marked s buf) (hs : Span s q e w) : Marked s (poke buf e) := by
  refine ⟨by rw [Shell.poke, List.length_set, h.length], fun i c hi hc => ?_⟩
  obtain ⟨p, hp, -, he⟩ := hs.split
  rw [Shell.poke, h.length, Nat.add_sub_cancel, he, List.getElem?_set_ne ?_]
  · exact h.inside i c hi hc
  · -- the byte after a word is not inside one
    rintro rfl
    rw [hp, ← List.append_assoc, ← List.length_append, List.getElem?_append_right le_rfl, Nat.sub_self,
      ← List.head?_eq_getElem?] at hi
    exact Bool.false_ne_true ((hs.outside c hi).symm.trans hc)

theorem Nul.of_poke (h : Marked s buf) : Nul (poke buf e) e := by
  rw [Nul, poke, List.length_set, List.getElem?_set_self]
  rw [h.length]
  omega

theorem Nul.poke {e' : Ptr} (h : Nul buf e) : Nul (poke buf e') e := by
  rw [Nul, Shell.poke, List.length_set, List.getElem?_set]
  split_ifs with hi hlt
  · rfl
  · rw [Nul, List.getElem?_eq_none (by omega)] at h
    cases h
  · exact h

theorem takeWhile_of_getElem? {l : List UInt8} (hw : ∀ j, j < w.length → l[j]? = w[j]?) (h0 : l[w.length]? = some 0)
    (hne : 0 ∉ w) : l.takeWhile (· ≠ 0) = w := by
  induction w generalizing l with
  | nil =>
    cases l with
    | nil => rfl
    | cons c l =>
      cases h0
      rfl
  | cons a w ih =>
    cases l with
    | nil => cases h0
    | cons c l =>
      have hc : c = a := by simpa using hw 0 (by simp)
      subst hc
      rw [List.mem_cons, not_or] at hne
      rw [List.takeWhile_cons_of_pos (by simpa using Ne.symm hne.1), ih (fun j hj => ?_) h0 hne.2]
      simpa using hw (j + 1) (by simpa using hj)

theorem Span.cstr (h : Span s q e w) (h0 : 0 ∉ s) (hm : Marked s buf) (hn : Nul buf e) : cstr buf q = w := by
  obtain ⟨p, hp, hq, he⟩ := h.split
  have hlen := hm.length
  rw [Nul, hlen, Nat.add_sub_cancel, he] at hn
  rw [Shell.cstr, hlen, Nat.add_sub_cancel, hq]
  apply takeWhile_of_getElem?
  · intro j hj
    obtain ⟨c, hc⟩ : ∃ c, w[j]? = some c := ⟨_, List.getElem?_eq_getElem hj⟩
    rw [List.getElem?_drop, hc]
    apply hm.inside _ c
    · rw [hp, List.getElem?_append_right (by omega), Nat.add_sub_cancel_left, List.getElem?_append_left hj, hc]
    · exact h.inside c (List.mem_of_getElem? hc)
  · rw [List.getElem?_drop, hn]
  · intro hmem
    apply h0
    rw [hp]
    simp [hmem]

theorem Holds.word (h : Holds s ex ws) (hi : i < MAXARGS) (hw : ws[i]? = some w) :
    ∃ q e, ex.argv ⟨i, hi⟩ = some q ∧ ex.eargv ⟨i, hi⟩ = some e ∧ Span s q e w := by
  have := h ⟨i, hi⟩
  simpa only [hw] using this

theorem Holds.end (h : Holds s ex ws) (hi : i < MAXARGS) (hw : ws.length ≤ i) : ex.argv ⟨i, hi⟩ = none := by
  have := h ⟨i, hi⟩
  simpa only [List.getElem?_eq_none hw] using this

structure Ends (s buf buf' : List UInt8) : Prop where
  marked : Marked s buf'
  keeps : ∀ e, Nul buf e → Nul buf' e

theorem nulargs_total (h : Holds s ex ws) (hw : ws.length < MAXARGS) (hm : Marked s buf) (hi : i ≤ ws.length)
    (hn : ws.length < n + i) :
    Total (nulargs ex n i buf) (fun buf' => Ends s buf buf' ∧ ∀ j (hj : j < MAXARGS) q e, i ≤ j →
      ex.argv ⟨j, hj⟩ = some q → ex.eargv ⟨j, hj⟩ = some e → Nul buf' e) (fun _ => False) := by
  induction n generalizing i buf with
  | zero => omega
  | succ n ih =>
    rw [nulargs, load, dif_pos (by omega : i < MAXARGS)]
    rcases Nat.lt_or_ge i ws.length with hlt | hge
    · obtain ⟨q, e, hq, he, hs⟩ := h.word (by omega) (List.getElem?_eq_getElem hlt)
      simp only [ok_bind, hq, load, dif_pos (by omega : i < MAXARGS), he]
      apply (ih (hm.poke hs) hlt (by omega)).mono
      rintro buf' ⟨hends, hnul⟩
      refine ⟨⟨hends.marked, fun e' he' => hends.keeps e' he'.poke⟩, fun j hj q' e' hij hq' he' => ?_⟩
      rcases Nat.eq_or_lt_of_le hij with rfl | hlt'
      · cases he.symm.trans he'
        exact hends.keeps e (Nul.of_poke hm)
      · exact hnul j hj q' e' hlt' hq' he'
    · simp only [ok_bind, h.end (by omega) hge]
      refine Total.ok ⟨⟨hm, fun _ => id⟩, fun j hj q e hij hq _ => ?_⟩
      cases (h.end hj (by omega)).symm.trans hq

theorem Ended.of_ends (h : Ends s buf buf') (he : Ended buf cmd) : Ended buf' cmd := by
  induction cmd with
  | exec ex => exact fun i q e hq hq' => h.keeps e (he i q e hq hq')
  | redir cmd r ih => exact ⟨ih he.1, h.keeps _ he.2⟩
  | pipe left right ih ih' | list left right ih ih' => exact ⟨ih he.1, ih' he.2⟩
  | back cmd ih => exact ih he

theorem nulterminate_total (h : Denotes s cmd tr) (hm : Marked s buf) :
    Total (nulterminate cmd buf) (fun buf' => Ends s buf buf' ∧ Ended buf' cmd) (fun _ => False) := by
  have hpair : ∀ left right, (∀ {buf}, Marked s buf → Total (nulterminate left buf) (fun buf' => Ends s buf buf' ∧
      Ended buf' left) (fun _ => False)) → (∀ {buf}, Marked s buf → Total (nulterminate right buf) (fun buf' =>
      Ends s buf buf' ∧ Ended buf' right) (fun _ => False)) → ∀ {buf}, Marked s buf →
      Total (nulterminate left buf >>= nulterminate right) (fun buf' => Ends s buf buf' ∧ Ended buf' left ∧
        Ended buf' right) (fun _ => False) := by
    intro left right hleft hright buf hm
    apply (hleft hm).bind
    rintro buf1 ⟨hends, hended⟩
    apply (hright hends.marked).mono
    rintro buf2 ⟨hends', hended'⟩
    exact ⟨⟨hends'.marked, fun e he => hends'.keeps e (hends.keeps e he)⟩, hended.of_ends hends', hended'⟩
  induction h generalizing buf with
  | @exec ex ws hw h =>
    apply (nulargs_total h hw hm (Nat.zero_le _) (by omega)).mono
    rintro buf' ⟨hends, hnul⟩
    exact ⟨hends, fun i q e hq he => hnul i.val i.isLt q e (Nat.zero_le _) hq he⟩
  | redir h hs ih =>
    apply (ih hm).bind
    rintro buf' ⟨hends, hended⟩
    have hpoke : Ends s buf' (poke buf' _) := ⟨hends.marked.poke hs, fun e he => he.poke⟩
    exact Total.ok ⟨⟨hpoke.marked, fun e he => hpoke.keeps e (hends.keeps e he)⟩, hended.of_ends hpoke,
      Nul.of_poke hends.marked⟩
  | pipe _ _ ih ih' | list _ _ ih ih' => exact hpair _ _ ih ih' hm
  | back _ ih => exact ih hm

theorem args_eq (h : Holds s ex ws) (h0 : 0 ∉ s) (hw : ws.length < MAXARGS) (hm : Marked s buf)
    (hn : ∀ i q e, ex.argv i = some q → ex.eargv i = some e → Nul buf e) (hi : ws.length < n + i) :
    ex.args buf n i = ws.drop i := by
  induction n generalizing i with
  | zero => rw [Exec.args, List.drop_eq_nil_of_le (by omega)]
  | succ n ih =>
    rw [Exec.args]
    rcases Nat.lt_or_ge i ws.length with hlt | hge
    · obtain ⟨q, e, hq, he, hs⟩ := h.word (by omega) (List.getElem?_eq_getElem hlt)
      rw [load, dif_pos (by omega), hq, List.drop_eq_getElem_cons hlt, ← ih (by omega)]
      change cstr buf q :: _ = _
      rw [hs.cstr h0 hm (hn _ q e hq he)]
    · rw [List.drop_eq_nil_of_le hge, load]
      split_ifs with hmax
      · rw [h.end hmax hge]
      · rfl

theorem Denotes.tree_eq (h : Denotes s cmd tr) (h0 : 0 ∉ s) (hm : Marked s buf) (he : Ended buf cmd) :
    cmd.tree buf = tr := by
  induction h with
  | exec hw h => rw [Cmd.tree, args_eq h h0 hw hm he (by omega), List.drop_zero]
  | redir _ hs ih => rw [Cmd.tree, ih he.1, hs.cstr h0 hm he.2]
  | pipe _ _ ih ih' | list _ _ ih ih' => rw [Cmd.tree, ih he.1, ih' he.2]
  | back _ ih => rw [Cmd.tree, ih he]

theorem nulterminate_tree (h : Denotes s cmd tr) (h0 : 0 ∉ s) :
    ∃ buf, nulterminate cmd (s ++ [0]) = .ok buf ∧ cmd.tree buf = tr := by
  rcases (nulterminate_total h (Marked.init s)).cases with ⟨_, _, hfalse⟩ | ⟨buf, hbuf, hends, hended⟩
  · exact absurd hfalse id
  · exact ⟨buf, hbuf, h.tree_eq h0 hends.marked hended⟩

theorem parsecmd_of_parseline {ps : Ptr} (hp : parseline n s = .ok (cmd, ps)) (ht : tokens ps = [])
    (h : Denotes s cmd tr) (h0 : 0 ∉ s) : ∃ buf, parsecmd n s = .ok (cmd, buf) ∧ cmd.tree buf = tr := by
  obtain ⟨buf, hbuf, htree⟩ := nulterminate_tree h h0
  refine ⟨buf, ?_, htree⟩
  have hps : (peek ps "").2 = [] := (gettoken_end ht).2.2
  simp [parsecmd, hp, hps, hbuf]

/-- The parser terminates, stays inside its arrays, and returns a command exactly for the lines of the grammar: the
command that the grammar gives them. -/
theorem parsecmd_accepts_grammar (s : List UInt8) (h0 : 0 ∉ s) (n : ℕ) (hn : 4 * s.length + 4 ≤ n) :
    parsecmd n s ≠ .more ∧ parsecmd n s ≠ .stop .fault ∧
      ∀ t, Derives .line (tokens s) t ↔ ∃ cmd buf, parsecmd n s = .ok (cmd, buf) ∧ cmd.tree buf = t := by
  have hcomplete : ∀ t, Derives .line (tokens s) t → ∃ cmd buf, parsecmd n s = .ok (cmd, buf) ∧ cmd.tree buf = t := by
    intro t ht
    obtain ⟨cmd, ps, hp, -, htok, hd⟩ :=
      ht.parses List.suffix_rfl (List.append_nil _).symm (by simp [Follow]) hn
    obtain ⟨buf, hbuf, htree⟩ := parsecmd_of_parseline hp htok hd h0
    exact ⟨cmd, buf, hbuf, htree⟩
  have hsound := (parse_sound (s := s) n s List.suffix_rfl).1 hn
  rcases hsound.cases with ⟨e, he, hne⟩ | ⟨⟨cmd, ps⟩, hp, hsuffix, ts, t, hts, hd, hden⟩
  · have hstop : parsecmd n s = .stop e := by simp [parsecmd, he]
    refine ⟨by simp [hstop], by simpa [hstop] using hne, fun t => ⟨hcomplete t, ?_⟩⟩
    rintro ⟨cmd, buf, hok, -⟩
    cases hstop.symm.trans hok
  · by_cases htok : tokens ps = []
    · simp only [htok, List.append_nil] at hts
      obtain ⟨buf, hbuf, htree⟩ := parsecmd_of_parseline hp htok hden h0
      refine ⟨by simp [hbuf], by simp [hbuf], fun t' => ⟨hcomplete t', ?_⟩⟩
      rintro ⟨cmd', buf', hok, rfl⟩
      cases hbuf.symm.trans hok
      rw [htree, hts]
      exact hd
    · have hps : (peek ps "").2 ≠ [] := by
        intro he
        apply htok
        rw [← tokens_peek ps "", he]
        rfl
      have hstop : parsecmd n s = .stop (.panic "syntax") := by simp [parsecmd, hp, hps]
      refine ⟨by simp [hstop], by simp [hstop], fun t => ⟨hcomplete t, ?_⟩⟩
      rintro ⟨cmd, buf, hok, -⟩
      cases hstop.symm.trans hok

theorem parsecmd_accepts_grammar_list : Derives .line (tokens (bytes "ls>x & ; (a|b c) >>y"))
    (.list (.back (.redir (.exec [bytes "ls"]) (bytes "x") (O_WRONLY ||| O_CREATE) 1))
      (.redir (.pipe (.exec [bytes "a"]) (.exec [bytes "b", bytes "c"])) (bytes "y") (O_WRONLY ||| O_CREATE) 1)) := by
  apply ((parsecmd_accepts_grammar _ (by decide) 100 (by decide)).2.2 _).mpr
  have h : (parsecmd 100 (bytes "ls>x & ; (a|b c) >>y") >>= fun r => .ok (r.1.tree r.2)) =
      .ok (.list (.back (.redir (.exec [bytes "ls"]) (bytes "x") (O_WRONLY ||| O_CREATE) 1))
        (.redir (.pipe (.exec [bytes "a"]) (.exec [bytes "b", bytes "c"])) (bytes "y") (O_WRONLY ||| O_CREATE) 1)) := by
    decide +kernel
  obtain ⟨⟨cmd, buf⟩, hp, htree⟩ := bind_eq_ok.mp h
  exact ⟨cmd, buf, hp, Res.ok.inj htree⟩

end Xv6.Shell
