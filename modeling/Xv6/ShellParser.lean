import Xv6.ShellTokens

namespace Xv6.Shell

open Fueled
open Function (update update_self update_of_ne)

def Holds (s : Ptr) (cmd : Exec) (ws : List (List UInt8)) : Prop :=
  ∀ i : Fin MAXARGS, match ws[i.val]? with
    | some w => ∃ q e, cmd.argv i = some q ∧ cmd.eargv i = some e ∧ Span s q e w
    | none => cmd.argv i = none

def Marks (s : Ptr) : List Redir → List (Op × List UInt8) → Prop :=
  List.Forall₂ fun r x => Span s r.file r.efile x.2 ∧ r.mode = x.1.mode ∧ r.fd = x.1.fd

inductive Denotes (s : Ptr) : Cmd → Tree → Prop
  | exec {cmd : Exec} {ws : List (List UInt8)} (hw : ws.length < MAXARGS) (h : Holds s cmd ws) :
      Denotes s (.exec cmd) (.exec ws)
  | redir {cmd : Cmd} {t : Tree} {r : Redir} {w : List UInt8} (h : Denotes s cmd t) (hw : Span s r.file r.efile w) :
      Denotes s (.redir cmd r) (.redir t w r.mode r.fd)
  | pipe {left right : Cmd} {t u : Tree} (h : Denotes s left t) (h' : Denotes s right u) :
      Denotes s (.pipe left right) (.pipe t u)
  | list {left right : Cmd} {t u : Tree} (h : Denotes s left t) (h' : Denotes s right u) :
      Denotes s (.list left right) (.list t u)
  | back {cmd : Cmd} {t : Tree} (h : Denotes s cmd t) : Denotes s (.back cmd) (.back t)

variable {s ps : Ptr} {cmd : Cmd} {ex : Exec} {t : Token} {tr : Tree} {ts rest : List Token} {rs : List Redir}
    {n argc : ℕ}
  {ws : List (List UInt8)} {xs ys : List (Op × List UInt8)} {toks : String}

theorem Denotes.redirect (h : Denotes s cmd tr) (hm : Marks s rs xs) : Denotes s (cmd.redirect rs)
    (tr.redirect xs) := by
  induction hm generalizing cmd tr with
  | nil => exact h
  | @cons r x rs xs hr _ ih =>
    obtain ⟨hspan, hmode, hfd⟩ := hr
    apply ih
    simp only [← hmode, ← hfd]
    exact .redir h hspan

theorem peek_fst (h : bytes toks ⊆ symbols) : (peek s toks).1 = (tokens s).head?.any (Token.leads toks) := by
  cases ht : tokens s with
  | nil => exact peek_end ht
  | cons t ts => exact (Next.of_tokens ht).peek toks h

theorem Next.of_peek (h : tokens s = t :: ts) : Next (Shell.peek s toks).2 t ts :=
  .of_tokens ((tokens_peek s toks).trans h)

variable {w : List UInt8} {o : Op}

theorem Marks.snoc {r : Redir} (h : Marks s rs xs) (hs : Span s r.file r.efile w)
    (hm : r.mode = o.mode) (hf : r.fd = o.fd) : Marks s (rs ++ [r]) (xs ++ [(o, w)]) :=
  List.rel_append h (.cons ⟨hs, hm, hf⟩ .nil)

theorem redircmd_op (o : Op) (q e : Ptr) : redircmd (Token.op o).code q e = some ⟨q, e, o.mode, o.fd⟩ := by
  cases o with
  | less | greater | append => rfl

theorem leads_redir : t.leads "<>" = true ↔ ∃ o, t = .op o := by
  cases t with
  | op o => cases o <;> simp [Token.leads, Token.code, strchr, bytes, byte]
  | _ => simp [Token.leads, Token.code, strchr, bytes, byte]

theorem code_word : t.code = byte 'a' ↔ ∃ w, t = .word w := by
  cases t with
  | op o => cases o <;> simp [Token.code, byte]
  | _ => simp [Token.code, byte]

theorem code_ne_zero : t.code ≠ 0 := by
  cases t with
  | op o => cases o <;> simp [Token.code, byte]
  | _ => simp [Token.code, byte]

theorem peek_length_le (ps : Ptr) (toks : String) : (peek ps toks).2.length ≤ ps.length :=
    (peek_suffix ps toks).length_le

theorem parseredirs_done (h : (tokens ps).head?.any (Token.leads "<>") = false) :
    parseredirs (n + 1) rs ps = .ok (rs, (peek ps "<>").2) := by
  rw [← peek_fst (by decide)] at h
  simp [parseredirs, h]

theorem parseredirs_word (n : ℕ) (rs : List Redir) (h : tokens ps = .op o :: .word w :: ts) :
    ∃ r ps', parseredirs (n + 1) rs ps = parseredirs n (rs ++ [r]) ps' ∧ ps' <:+ ps ∧ ps'.length < ps.length ∧
      tokens ps' = ts ∧ Span ps r.file r.efile w ∧ r.mode = o.mode ∧ r.fd = o.fd := by
  have hop : Next (peek ps "<>").2 (.op o) (.word w :: ts) := .of_peek h
  have hw := Next.of_tokens hop.rest
  have hpeek : (peek ps "<>").1 = true := by
    rw [peek_fst (by decide), h]
    exact leads_redir.mpr ⟨o, rfl⟩
  have hsuffix := (gettoken_suffix _).trans (peek_suffix ps "<>")
  have hle := peek_length_le ps "<>"
  have hlt := hop.shorter
  have hlt' := hw.shorter
  refine ⟨⟨_, _, o.mode, o.fd⟩, _, ?_, (gettoken_suffix _).trans hsuffix, by omega, hw.rest,
    (hw.span w rfl).of_suffix hsuffix, rfl, rfl⟩
  simp only [parseredirs, hpeek, if_true, hw.ret, hop.ret, redircmd_op]
  rfl

theorem parseredirs_missing (h : tokens ps = .op o :: ts) (hw : ∀ w us, ts ≠ .word w :: us) :
    parseredirs (n + 1) rs ps = .stop (.panic "missing file for redirection") := by
  have hop : Next (peek ps "<>").2 (.op o) ts := .of_peek h
  have hpeek : (peek ps "<>").1 = true := by
    rw [peek_fst (by decide), h]
    exact leads_redir.mpr ⟨o, rfl⟩
  have hret : (gettoken (gettoken (peek ps "<>").2).ps).ret ≠ byte 'a' := by
    cases ts with
    | nil =>
      rw [(gettoken_end hop.rest).1]
      decide
    | cons t us =>
      rw [(Next.of_tokens hop.rest).ret, Ne, code_word]
      rintro ⟨w, rfl⟩
      exact hw w us rfl
  simp [parseredirs, hpeek, hret]

theorem redir_cases (ts : List Token) : ts.head?.any (Token.leads "<>") = false ∨
    (∃ o w us, ts = .op o :: .word w :: us) ∨ ∃ o us, ts = .op o :: us ∧ ∀ w vs, us ≠ .word w :: vs := by
  cases ts with
  | nil => exact Or.inl rfl
  | cons t us =>
    cases hl : t.leads "<>" with
    | false => exact Or.inl hl
    | true =>
      obtain ⟨o, rfl⟩ := leads_redir.mp hl
      by_cases hw : ∃ w vs, us = .word w :: vs
      · obtain ⟨w, vs, rfl⟩ := hw
        exact Or.inr (Or.inl ⟨o, w, vs, rfl⟩)
      · exact Or.inr (Or.inr ⟨o, us, rfl, fun w vs he => hw ⟨w, vs, he⟩⟩)

theorem parseredirs_sound (hn : ps.length < n) (hps : ps <:+ s) (hm : Marks s rs xs) :
    Total (parseredirs n rs ps) (fun r => r.2 <:+ ps ∧ ∃ ts ys, tokens ps = ts ++ tokens r.2 ∧ Redirs ts ys ∧
      Marks s r.1 (xs ++ ys)) (· ≠ .fault) := by
  induction n generalizing ps rs xs with
  | zero => omega
  | succ n ih =>
    rcases redir_cases (tokens ps) with hdone | ⟨o, w, us, htok⟩ | ⟨o, us, htok, hw⟩
    · rw [parseredirs_done hdone]
      refine Total.ok ⟨peek_suffix ps "<>", [], [], ?_, .nil, ?_⟩
      · rw [tokens_peek, List.nil_append]
      · rwa [List.append_nil]
    · obtain ⟨r, ps', hstep, hsuffix, hlt, hrest, hspan, hmode, hfd⟩ := parseredirs_word n rs htok
      rw [hstep]
      apply (ih (by omega) (hsuffix.trans hps) (hm.snoc (hspan.of_suffix hps) hmode hfd)).mono
      rintro r ⟨hr, ts, ys, hts, hredirs, hmarks⟩
      refine ⟨hr.trans hsuffix, .op o :: .word w :: ts, (o, w) :: ys, ?_, .cons o w hredirs, ?_⟩
      · rw [htok, ← hrest, hts]
        rfl
      · rwa [List.append_assoc] at hmarks
    · rw [parseredirs_missing htok hw]
      exact Total.stop (by simp)

theorem Redirs.parses (h : Redirs ts ys) (hn : ps.length < n) (hps : ps <:+ s) (hm : Marks s rs xs)
    (ht : tokens ps = ts ++ rest) (hrest : rest.head?.any (Token.leads "<>") = false) :
    ∃ rs' ps', parseredirs n rs ps = .ok (rs', ps') ∧ ps' <:+ ps ∧ tokens ps' = rest ∧ Marks s rs' (xs ++ ys) := by
  induction h generalizing n ps rs xs with
  | nil =>
    obtain ⟨n, rfl⟩ := Nat.exists_eq_succ_of_ne_zero (by omega : n ≠ 0)
    rw [List.nil_append] at ht
    refine ⟨rs, _, parseredirs_done (by rw [ht]; exact hrest), peek_suffix ps "<>", ?_, ?_⟩
    · rw [tokens_peek, ht]
    · rwa [List.append_nil]
  | @cons ts ys o w _ ih =>
    obtain ⟨n, rfl⟩ := Nat.exists_eq_succ_of_ne_zero (by omega : n ≠ 0)
    obtain ⟨r, ps', hstep, hsuffix, hlt, htok, hspan, hmode, hfd⟩ := parseredirs_word n rs ht
    obtain ⟨rs', ps'', hparse, hs, ht', hmarks⟩ :=
      ih (by omega : ps'.length < n) (hsuffix.trans hps) (hm.snoc (hspan.of_suffix hps) hmode hfd) htok
    refine ⟨rs', ps'', hstep.trans hparse, hs.trans hsuffix, ht', ?_⟩
    rwa [List.append_assoc] at hmarks

theorem Holds.nil (s : Ptr) : Holds s execcmd [] := fun _ => rfl

theorem setArg_ok {q e : Option Ptr} (h : argc < MAXARGS) :
    ex.setArg argc q e = .ok ⟨update ex.argv ⟨argc, h⟩ q, update ex.eargv ⟨argc, h⟩ e⟩ := by
  simp only [Exec.setArg, store, dif_pos h]
  rfl

theorem Holds.snoc {q e : Ptr} (h : Holds s ex ws) (hw : ws.length < MAXARGS) (hs : Span s q e w) :
    Holds s ⟨update ex.argv ⟨ws.length, hw⟩ (some q), update ex.eargv ⟨ws.length, hw⟩ (some e)⟩ (ws ++ [w]) := by
  intro i
  by_cases hi : i = ⟨ws.length, hw⟩
  · subst hi
    simp only [List.getElem?_concat_length, update_self]
    exact ⟨q, e, rfl, rfl, hs⟩
  · have hne : i.val ≠ ws.length := fun he => hi (Fin.ext he)
    have hold := h i
    have hget : (ws ++ [w])[i.val]? = ws[i.val]? := by
      rcases Nat.lt_or_gt_of_ne hne with hlt | hgt
      · rw [List.getElem?_append_left hlt]
      · rw [List.getElem?_eq_none (by simp; omega), List.getElem?_eq_none (by omega)]
    simp only [hget, update_of_ne hi]
    exact hold

theorem Holds.null (h : Holds s ex ws) (hw : ws.length < MAXARGS) :
    Holds s ⟨update ex.argv ⟨ws.length, hw⟩ none, update ex.eargv ⟨ws.length, hw⟩ none⟩ ws := by
  intro i
  by_cases hi : i = ⟨ws.length, hw⟩
  · subst hi
    simp
  · simp only [update_of_ne hi]
    exact h i

def Closed (ts : List Token) : Prop := ∀ t ∈ ts.head?, t.leads "|)&;" = true

theorem finish_denotes (h : Holds s ex ws) (hw : ws.length < MAXARGS) (hm : Marks s rs xs) (ps : Ptr) :
    ∃ cmd, ex.finish ws.length rs ps = .ok (cmd, ps) ∧ Denotes s cmd ((Tree.exec ws).redirect xs) := by
  refine ⟨_, ?_, (Denotes.exec hw (h.null hw)).redirect hm⟩
  rw [Exec.finish, setArg_ok hw]
  rfl

theorem parseargs_done (n : ℕ) (h : Holds s ex ws) (hw : ws.length < MAXARGS) (hm : Marks s rs xs)
    (hc : Closed (tokens ps)) : ∃ cmd ps', parseargs (n + 1) ex ws.length rs ps = .ok (cmd, ps') ∧ ps' <:+ ps ∧
      tokens ps' = tokens ps ∧ Denotes s cmd ((Tree.exec ws).redirect xs) := by
  cases htok : tokens ps with
  | nil =>
    have hend := gettoken_end ((tokens_peek ps "|)&;").trans htok)
    obtain ⟨cmd, hfinish, hd⟩ := finish_denotes h hw hm (gettoken (peek ps "|)&;").2).ps
    refine ⟨cmd, _, ?_, (gettoken_suffix _).trans (peek_suffix ps "|)&;"), ?_, hd⟩
    · rw [← hfinish]
      simp [parseargs, peek_end htok, hend.1]
    · rw [hend.2.1]
      rfl
  | cons t ts =>
    have hlead : t.leads "|)&;" = true := hc t (by rw [htok]; rfl)
    have hpeek : (peek ps "|)&;").1 = true := by
      rw [peek_fst (by decide), htok]
      exact hlead
    obtain ⟨cmd, hfinish, hd⟩ := finish_denotes h hw hm (peek ps "|)&;").2
    refine ⟨cmd, _, ?_, peek_suffix ps "|)&;", ?_, hd⟩
    · rw [← hfinish]
      simp [parseargs, hpeek]
    · rw [tokens_peek, htok]

theorem parseargs_word (n : ℕ) (rs : List Redir) (h : Holds s ex ws) (hw : ws.length < MAXARGS)
    (hps : ps <:+ s) (ht : tokens ps = .word w :: ts) : ∃ ex' ps', parseargs (n + 1) ex ws.length rs ps =
        (if MAXARGS ≤ ws.length + 1 then .stop (.panic "too many args")
          else parseredirs n rs ps' >>= fun r => parseargs n ex' (ws.length + 1) r.1 r.2) ∧
      Holds s ex' (ws ++ [w]) ∧ ps' <:+ ps ∧ ps'.length < ps.length ∧ tokens ps' = ts := by
  have hnext : Next (peek ps "|)&;").2 (.word w) ts := .of_peek ht
  have hpeek : (peek ps "|)&;").1 = false := by
    rw [peek_fst (by decide), ht]
    rfl
  have hlt := hnext.shorter
  have hle := peek_length_le ps "|)&;"
  have hspan := (hnext.span w rfl).of_suffix ((peek_suffix ps "|)&;").trans hps)
  refine ⟨_, _, ?_, h.snoc hw hspan, (gettoken_suffix _).trans (peek_suffix ps "|)&;"), by omega, hnext.rest⟩
  simp only [parseargs, hpeek, hnext.ret, setArg_ok hw, ok_bind]
  simp [Token.code, byte]

theorem parseargs_stray (n argc : ℕ) (ex : Exec) (rs : List Redir) (ht : tokens ps = t :: ts)
    (hc : t.leads "|)&;" = false) (hw : ∀ w, t ≠ .word w) :
    parseargs (n + 1) ex argc rs ps = .stop (.panic "syntax") := by
  have hnext : Next (peek ps "|)&;").2 t ts := .of_peek ht
  have hpeek : (peek ps "|)&;").1 = false := by
    rw [peek_fst (by decide), ht]
    exact hc
  have hcode : t.code ≠ byte 'a' := by
    rw [Ne, code_word]
    rintro ⟨w, rfl⟩
    exact hw w rfl
  simp [parseargs, hpeek, hnext.ret, code_ne_zero, hcode]

theorem args_cases (ts : List Token) : Closed ts ∨ (∃ w us, ts = .word w :: us) ∨
    ∃ t us, ts = t :: us ∧ t.leads "|)&;" = false ∧ ∀ w, t ≠ .word w := by
  cases ts with
  | nil => exact Or.inl (by simp [Closed])
  | cons t us =>
    cases hl : t.leads "|)&;" with
    | true => exact Or.inl (by simpa [Closed] using hl)
    | false =>
      by_cases hw : ∃ w, t = .word w
      · obtain ⟨w, rfl⟩ := hw
        exact Or.inr (Or.inl ⟨w, us, rfl⟩)
      · exact Or.inr (Or.inr ⟨t, us, rfl, hl, fun w he => hw ⟨w, he⟩⟩)

theorem parseargs_sound (hn : ps.length < n) (hps : ps <:+ s) (h : Holds s ex ws) (hw : ws.length < MAXARGS)
    (hm : Marks s rs xs) :
    Total (parseargs n ex ws.length rs ps) (fun r => r.2 <:+ ps ∧ ∃ ts vs ys, tokens ps = ts ++ tokens r.2 ∧
      Args ts vs ys ∧ (ws ++ vs).length < MAXARGS ∧ Denotes s r.1 ((Tree.exec (ws ++ vs)).redirect (xs ++ ys)))
      (· ≠ .fault) := by
  induction n generalizing ps ex ws rs xs with
  | zero => omega
  | succ n ih =>
    rcases args_cases (tokens ps) with hc | ⟨w, us, htok⟩ | ⟨t, us, htok, hl, ht⟩
    · obtain ⟨cmd, ps', hparse, hsuffix, htok, hd⟩ := parseargs_done n h hw hm hc
      rw [hparse]
      refine Total.ok ⟨hsuffix, [], [], [], ?_, .nil, ?_, ?_⟩
      · rw [htok, List.nil_append]
      · rwa [List.append_nil]
      · rwa [List.append_nil, List.append_nil]
    · obtain ⟨ex', ps', hparse, h', hsuffix, hlt, hrest⟩ := parseargs_word n rs h hw hps htok
      rw [hparse]
      split_ifs with hmax
      · exact Total.stop (by simp)
      · apply (parseredirs_sound (by omega : ps'.length < n) (hsuffix.trans hps) hm).bind
        rintro ⟨rs', ps''⟩ ⟨hs, ts, ys, hts, hredirs, hm'⟩
        have hlen : (ws ++ [w]).length = ws.length + 1 := by simp
        have hle : ps''.length ≤ ps'.length := hs.length_le
        rw [← hlen]
        apply (ih (by omega : ps''.length < n) (hs.trans (hsuffix.trans hps)) h' (by omega) hm').mono
        rintro r ⟨hr, ts', vs, zs, hts', hargs, hmax', hd⟩
        refine ⟨hr.trans (hs.trans hsuffix), .word w :: ts ++ ts', w :: vs, ys ++ zs, ?_, .cons w hredirs hargs, ?_, ?_⟩
        · rw [htok, ← hrest, hts, hts', List.cons_append, List.cons_append, List.append_assoc]
        · rwa [List.append_assoc] at hmax'
        · rwa [List.append_assoc, List.append_assoc] at hd
    · rw [parseargs_stray n ws.length ex rs htok hl ht]
      exact Total.stop (by simp)

theorem Args.head (h : Args ts ws xs) (hrest : Closed rest) : ∀ t ∈ (ts ++ rest).head?, (∃ w, t = .word w) ∨
    t.leads "|)&;" = true := by
  cases h with
  | nil => exact fun t ht => Or.inr (hrest t ht)
  | cons w _ _ =>
    rintro t ⟨⟩
    exact Or.inl ⟨w, rfl⟩

theorem not_redir (h : ∀ t ∈ ts.head?, (∃ w, t = .word w) ∨ t.leads "|)&;" = true) :
    ts.head?.any (Token.leads "<>") = false := by
  cases ts with
  | nil => rfl
  | cons t us =>
    rcases h t rfl with ⟨w, rfl⟩ | hl
    · rfl
    · cases t with
      | op o => cases o <;> exact absurd hl (by decide)
      | word w => rfl
      | _ => rfl

theorem Args.parses {vs : List (List UInt8)} (h : Args ts vs ys) (hn : ps.length < n) (hps : ps <:+ s)
    (hh : Holds s ex ws) (hm : Marks s rs xs) (hw : (ws ++ vs).length < MAXARGS) (ht : tokens ps = ts ++ rest)
    (hrest : Closed rest) : ∃ cmd ps', parseargs n ex ws.length rs ps = .ok (cmd, ps') ∧ ps' <:+ ps ∧
      tokens ps' = rest ∧
      Denotes s cmd ((Tree.exec (ws ++ vs)).redirect (xs ++ ys)) := by
  induction h generalizing n ps ex ws rs xs with
  | nil =>
    obtain ⟨n, rfl⟩ := Nat.exists_eq_succ_of_ne_zero (by omega : n ≠ 0)
    rw [List.nil_append] at ht
    rw [List.append_nil] at hw
    obtain ⟨cmd, ps', hparse, hsuffix, htok, hd⟩ := parseargs_done n hh hw hm (by rw [ht]; exact hrest)
    refine ⟨cmd, ps', hparse, hsuffix, htok.trans ht, ?_⟩
    rwa [List.append_nil, List.append_nil]
  | @cons ts us vs ys zs w hredirs hargs ih =>
    obtain ⟨n, rfl⟩ := Nat.exists_eq_succ_of_ne_zero (by omega : n ≠ 0)
    rw [List.length_append, List.length_cons] at hw
    rw [List.cons_append, List.cons_append, List.append_assoc] at ht
    obtain ⟨ex', ps', hparse, hh', hsuffix, hlt, htok⟩ := parseargs_word n rs hh (by omega) hps ht
    obtain ⟨rs', ps'', hparse', hsuffix', htok', hm'⟩ :=
      hredirs.parses (by omega : ps'.length < n) (hsuffix.trans hps) hm htok (not_redir (hargs.head hrest))
    have hlen : (ws ++ [w]).length = ws.length + 1 := by simp
    have hle : ps''.length ≤ ps'.length := hsuffix'.length_le
    obtain ⟨cmd, ps3, hparse3, hsuffix3, htok3, hd⟩ := ih (by omega : ps''.length < n)
      (hsuffix'.trans (hsuffix.trans hps)) hh' hm' (by rw [List.length_append, hlen]; omega) htok'
    refine ⟨cmd, ps3, ?_, hsuffix3.trans (hsuffix'.trans hsuffix), htok3, ?_⟩
    · rw [hparse, if_neg (by omega), hparse', ok_bind, ← hlen]
      exact hparse3
    · rwa [List.append_assoc, List.append_assoc] at hd

def Token.mark : Token → Option String
  | .bar => some "|"
  | .lparen => some "("
  | .rparen => some ")"
  | .semi => some ";"
  | .amp => some "&"
  | _ => none

theorem leads_mark {u : Token} (h : u.mark = some toks) : t.leads toks = true ↔ t = u := by
  cases u with
  | op o => cases h
  | word w => cases h
  | _ =>
    cases h
    cases t with
    | op o => cases o <;> simp [Token.leads, Token.code, strchr, bytes, byte]
    | _ => simp [Token.leads, Token.code, strchr, bytes, byte]

theorem peek_mark (u : Token) (h : u.mark = some toks) : (peek ps toks).1 = true ↔ ∃ ts, tokens ps = u :: ts := by
  have hsub : bytes toks ⊆ symbols := by
    cases u with
    | op o => cases h
    | word w => cases h
    | _ =>
      cases h
      decide
  rw [peek_fst hsub]
  cases htok : tokens ps with
  | nil => simp
  | cons t ts => simp [leads_mark h]

def Sound (s ps : Ptr) (x : Symbol) (r : Res Stop (Cmd × Ptr)) : Prop :=
  Total r (fun r => r.2 <:+ ps ∧ ∃ ts t, tokens ps = ts ++ tokens r.2 ∧ Derives x ts t ∧ Denotes s r.1 t) (· ≠ .fault)

theorem parsebacks_sound (hn : ps.length < n) :
    Total (parsebacks n cmd ps) (fun r => r.2 <:+ ps ∧ ∃ k, tokens ps = List.replicate k .amp ++ tokens r.2 ∧
      r.1 = Cmd.back^[k] cmd) (· ≠ .fault) := by
  induction n generalizing ps cmd with
  | zero => omega
  | succ n ih =>
    rw [parsebacks]
    cases hpeek : (peek ps "&").1 with
    | false =>
      refine Total.ok ⟨peek_suffix ps "&", 0, ?_, rfl⟩
      rw [tokens_peek]
      rfl
    | true =>
      obtain ⟨ts, htok⟩ := (peek_mark .amp rfl).mp hpeek
      have hnext : Next (peek ps "&").2 .amp ts := .of_peek htok
      have hlt := hnext.shorter
      have hle := peek_length_le ps "&"
      apply (ih (by omega : (gettoken (peek ps "&").2).ps.length < n)).mono
      rintro r ⟨hr, k, hk, hcmd⟩
      refine ⟨hr.trans ((gettoken_suffix _).trans (peek_suffix ps "&")), k + 1, ?_, hcmd⟩
      rw [htok, ← hnext.rest, hk]
      rfl

theorem Denotes.backs (h : Denotes s cmd tr) (k : ℕ) : Denotes s (Cmd.back^[k] cmd) (Tree.back^[k] tr) := by
  induction k generalizing cmd tr with
  | zero => exact h
  | succ k ih => exact ih (.back h)

theorem parseline_sound (hn : ps.length < n) (hpipe : Sound s ps .pipe (parsepipe n ps))
    (hline : ∀ ps', ps' <:+ ps → ps'.length < ps.length → Sound s ps' .line (parseline n ps')) :
    Sound s ps .line (parseline (n + 1) ps) := by
  rw [parseline]
  apply hpipe.bind
  rintro ⟨cmd, ps1⟩ ⟨hs1, ts, t, hts, hd, hden⟩
  have hle1 : ps1.length ≤ ps.length := hs1.length_le
  apply (parsebacks_sound (by omega : ps1.length < n)).bind
  rintro ⟨cmd', ps2⟩ ⟨hs2, k, hk, rfl⟩
  have hle2 : ps2.length ≤ ps1.length := hs2.length_le
  simp only at hts hk hden ⊢
  cases hpeek : (peek ps2 ";").1 with
  | false =>
    rw [if_neg Bool.false_ne_true]
    refine Total.ok ⟨(peek_suffix ps2 ";").trans (hs2.trans hs1), _, _, ?_, .line k hd, hden.backs k⟩
    rw [hts, hk, tokens_peek, List.append_assoc]
  | true =>
    obtain ⟨us, htok⟩ := (peek_mark .semi rfl).mp hpeek
    have hnext : Next (peek ps2 ";").2 .semi us := .of_peek htok
    have hlt := hnext.shorter
    have hle := peek_length_le ps2 ";"
    have hsuffix := (gettoken_suffix (peek ps2 ";").2).trans ((peek_suffix ps2 ";").trans (hs2.trans hs1))
    rw [if_pos rfl]
    apply (hline _ hsuffix (by omega)).bind
    rintro ⟨right, ps3⟩ ⟨hs3, vs, u, hvs, hd', hden'⟩
    refine Total.ok ⟨hs3.trans hsuffix, _, _, ?_, .seq k hd hd', .list (hden.backs k) hden'⟩
    rw [hts, hk, htok, ← hnext.rest, hvs]
    simp

theorem parsepipe_sound (hexec : Sound s ps .exec (parseexec n ps))
    (hpipe : ∀ ps', ps' <:+ ps → ps'.length < ps.length → Sound s ps' .pipe (parsepipe n ps')) :
    Sound s ps .pipe (parsepipe (n + 1) ps) := by
  rw [parsepipe]
  apply hexec.bind
  rintro ⟨cmd, ps1⟩ ⟨hs1, ts, t, hts, hd, hden⟩
  have hle1 : ps1.length ≤ ps.length := hs1.length_le
  simp only at hts hden ⊢
  cases hpeek : (peek ps1 "|").1 with
  | false =>
    rw [if_neg Bool.false_ne_true]
    refine Total.ok ⟨(peek_suffix ps1 "|").trans hs1, _, _, ?_, .pipe hd, hden⟩
    rw [hts, tokens_peek]
  | true =>
    obtain ⟨us, htok⟩ := (peek_mark .bar rfl).mp hpeek
    have hnext : Next (peek ps1 "|").2 .bar us := .of_peek htok
    have hlt := hnext.shorter
    have hle := peek_length_le ps1 "|"
    have hsuffix := (gettoken_suffix (peek ps1 "|").2).trans ((peek_suffix ps1 "|").trans hs1)
    rw [if_pos rfl]
    apply (hpipe _ hsuffix (by omega)).bind
    rintro ⟨right, ps2⟩ ⟨hs2, vs, u, hvs, hd', hden'⟩
    refine Total.ok ⟨hs2.trans hsuffix, _, _, ?_, .bar hd hd', .pipe hden hden'⟩
    rw [hts, htok, ← hnext.rest, hvs]
    simp

theorem parseblock_sound (hps : ps <:+ s) (hn : ps.length ≤ n)
    (hline : ∀ ps', ps' <:+ ps → ps'.length < ps.length → Sound s ps' .line (parseline n ps')) :
    Sound s ps .exec (parseblock (n + 1) ps) := by
  rw [parseblock]
  cases hpeek : (peek ps "(").1 with
  | false => exact Total.stop (by simp)
  | true =>
    obtain ⟨ts, htok⟩ := (peek_mark .lparen rfl).mp hpeek
    have hnext : Next (peek ps "(").2 .lparen ts := .of_peek htok
    have hlt := hnext.shorter
    have hle := peek_length_le ps "("
    have hsuffix := (gettoken_suffix (peek ps "(").2).trans (peek_suffix ps "(")
    apply (hline _ hsuffix (by omega)).bind
    rintro ⟨cmd, ps1⟩ ⟨hs1, us, t, hus, hd, hden⟩
    have hle1 : ps1.length ≤ (gettoken (peek ps "(").2).ps.length := hs1.length_le
    simp only at hus hden ⊢
    cases hpeek' : (peek ps1 ")").1 with
    | false => exact Total.stop (by simp)
    | true =>
      obtain ⟨vs, htok'⟩ := (peek_mark .rparen rfl).mp hpeek'
      have hnext' : Next (peek ps1 ")").2 .rparen vs := .of_peek htok'
      have hlt' := hnext'.shorter
      have hle' := peek_length_le ps1 ")"
      have hsuffix' := (gettoken_suffix (peek ps1 ")").2).trans ((peek_suffix ps1 ")").trans (hs1.trans hsuffix))
      apply (parseredirs_sound (by omega) (hsuffix'.trans hps) .nil).bind
      rintro ⟨rs, ps2⟩ ⟨hs2, ws, xs, hws, hredirs, hm⟩
      refine Total.ok ⟨hs2.trans hsuffix', _, _, ?_, .block hd hredirs, hden.redirect hm⟩
      rw [htok, ← hnext.rest, hus, htok', ← hnext'.rest, hws]
      simp

theorem parseexec_sound (hps : ps <:+ s) (hn : ps.length < n)
    (hblock : ∀ ps', ps' <:+ ps → Sound s ps' .exec (parseblock n ps')) : Sound s ps .exec (parseexec (n + 1) ps) := by
  rw [parseexec]
  cases hpeek : (peek ps "(").1 with
  | true =>
    apply (hblock (peek ps "(").2 (peek_suffix ps "(")).mono
    rintro r ⟨hr, ts, t, hts, hd⟩
    rw [tokens_peek] at hts
    exact ⟨hr.trans (peek_suffix ps "("), ts, t, hts, hd⟩
  | false =>
    have hle := peek_length_le ps "("
    have hsuffix := peek_suffix ps "("
    apply (parseredirs_sound (by omega) (hsuffix.trans hps) .nil).bind
    rintro ⟨rs, ps1⟩ ⟨hs1, ts, xs, hts, hredirs, hm⟩
    have hle1 : ps1.length ≤ (peek ps "(").2.length := hs1.length_le
    rw [tokens_peek] at hts
    apply (parseargs_sound (by omega : ps1.length < n) (hs1.trans (hsuffix.trans hps)) (Holds.nil s)
        (by decide) hm).mono
    rintro r ⟨hr, us, ws, ys, hus, hargs, hmax, hd⟩
    refine ⟨hr.trans (hs1.trans hsuffix), ts ++ us, _, ?_, .simple hredirs hargs ?_, hd⟩
    · rw [hts, hus, List.append_assoc]
    · simp only [List.nil_append] at hmax
      omega

theorem parse_sound (n : ℕ) : ∀ ps, ps <:+ s →
    (4 * ps.length + 4 ≤ n → Sound s ps .line (parseline n ps)) ∧
      (4 * ps.length + 3 ≤ n → Sound s ps .pipe (parsepipe n ps)) ∧
      (4 * ps.length + 1 ≤ n → Sound s ps .exec (parseblock n ps)) ∧
      (4 * ps.length + 2 ≤ n → Sound s ps .exec (parseexec n ps)) := by
  induction n with
  | zero => exact fun ps _ => ⟨by omega, by omega, by omega, by omega⟩
  | succ n ih =>
    intro ps hps
    have hline : 4 * ps.length ≤ n → ∀ ps', ps' <:+ ps → ps'.length < ps.length → Sound s ps' .line (parseline n ps') :=
      fun hn ps' hs hlt => (ih ps' (hs.trans hps)).1 (by omega)
    refine ⟨fun hn => ?_, fun hn => ?_, fun hn => ?_, fun hn => ?_⟩
    · exact parseline_sound (by omega) ((ih ps hps).2.1 (by omega)) (hline (by omega))
    · exact parsepipe_sound ((ih ps hps).2.2.2 (by omega)) fun ps' hs hlt => (ih ps' (hs.trans hps)).2.1 (by omega)
    · exact parseblock_sound hps (by omega) (hline (by omega))
    · refine parseexec_sound hps (by omega) fun ps' hs => (ih ps' (hs.trans hps)).2.2.1 ?_
      have := hs.length_le
      omega

def parse : Symbol → ℕ → Ptr → Res Stop (Cmd × Ptr)
  | .line => parseline
  | .pipe => parsepipe
  | .exec => parseexec

def fuel : Symbol → ℕ
  | .line => 4
  | .pipe => 3
  | .exec => 2

def Follows : Symbol → Token → Prop
  | .line, t => t = .rparen
  | .pipe, t => t = .rparen ∨ t = .semi ∨ t = .amp
  | .exec, t => t = .rparen ∨ t = .semi ∨ t = .amp ∨ t = .bar

def Follow (x : Symbol) (rest : List Token) : Prop := ∀ t ∈ rest.head?, Follows x t

theorem Follow.closed (h : Follow .exec rest) : Closed rest := by
  intro t ht
  rcases h t ht with rfl | rfl | rfl | rfl
  all_goals rfl

theorem Follow.peek {x : Symbol} {u : Token} (h : Follow x rest) (hu : u.mark = some toks) (hx : ¬ Follows x u)
    (hps : tokens ps = rest) : (peek ps toks).1 = false := by
  rw [← Bool.not_eq_true, peek_mark u hu, hps]
  rintro ⟨ts, rfl⟩
  exact hx (h u rfl)

theorem parsebacks_complete (cmd : Cmd) (k : ℕ) (hn : ps.length < n) (ht : tokens ps = List.replicate k .amp ++ rest)
    (hrest : Follow .line rest ∨ ∃ us, rest = .semi :: us) :
    ∃ ps', parsebacks n cmd ps = .ok (Cmd.back^[k] cmd, ps') ∧ ps' <:+ ps ∧ tokens ps' = rest := by
  induction k generalizing n ps cmd with
  | zero =>
    obtain ⟨n, rfl⟩ := Nat.exists_eq_succ_of_ne_zero (by omega : n ≠ 0)
    rw [List.replicate_zero, List.nil_append] at ht
    have hpeek : (peek ps "&").1 = false := by
      rw [← Bool.not_eq_true, peek_mark .amp rfl, ht]
      rintro ⟨us, rfl⟩
      rcases hrest with hf | ⟨vs, he⟩
      · cases hf .amp rfl
      · cases he
    refine ⟨_, ?_, peek_suffix ps "&", ?_⟩
    · simp [parsebacks, hpeek]
    · rw [tokens_peek, ht]
  | succ k ih =>
    obtain ⟨n, rfl⟩ := Nat.exists_eq_succ_of_ne_zero (by omega : n ≠ 0)
    rw [List.replicate_succ, List.cons_append] at ht
    have hnext : Next (peek ps "&").2 .amp _ := .of_peek ht
    have hlt := hnext.shorter
    have hle := peek_length_le ps "&"
    have hpeek : (peek ps "&").1 = true := (peek_mark .amp rfl).mpr ⟨_, ht⟩
    obtain ⟨ps', hparse, hs, ht'⟩ := ih (.back cmd) (by omega : (gettoken (peek ps "&").2).ps.length < n) hnext.rest
    refine ⟨ps', ?_, hs.trans ((gettoken_suffix _).trans (peek_suffix ps "&")), ht'⟩
    simpa [parsebacks, hpeek] using hparse

theorem parses_backs {us : List Token} (k : ℕ) (hps : ps <:+ s) (hn : 4 * ps.length + 3 ≤ n)
    (ht : tokens ps = ts ++ (List.replicate k .amp ++ us)) (hus : Follow .line us ∨ ∃ vs, us = .semi :: vs)
    (ih : ∀ {ps rest n}, ps <:+ s → tokens ps = ts ++ rest → Follow .pipe rest → 4 * ps.length + fuel .pipe ≤ n →
      ∃ cmd ps', parse .pipe n ps = .ok (cmd, ps') ∧ ps' <:+ ps ∧ tokens ps' = rest ∧ Denotes s cmd tr) :
    ∃ cmd ps1 ps2, parsepipe n ps = .ok (cmd, ps1) ∧ parsebacks n cmd ps1 = .ok (Cmd.back^[k] cmd, ps2) ∧ ps2 <:+ ps ∧
      tokens ps2 = us ∧ Denotes s cmd tr := by
  have hfollow : Follow .pipe (List.replicate k .amp ++ us) := by
    intro t htok
    cases k with
    | succ k =>
      cases htok
      exact Or.inr (Or.inr rfl)
    | zero =>
      rcases hus with hf | ⟨vs, rfl⟩
      · exact Or.inl (hf t htok)
      · cases htok
        exact Or.inr (Or.inl rfl)
  obtain ⟨cmd, ps1, hparse, hs1, htok1, hd⟩ := ih hps ht hfollow hn
  have hle : ps1.length ≤ ps.length := hs1.length_le
  obtain ⟨ps2, hbacks, hs2, htok2⟩ := parsebacks_complete cmd k (by omega : ps1.length < n) htok1 hus
  exact ⟨cmd, ps1, ps2, hparse, hbacks, hs2.trans hs1, htok2, hd⟩

theorem Derives.parses {x : Symbol} (h : Derives x ts tr) : ∀ {ps rest n}, ps <:+ s → tokens ps = ts ++ rest →
    Follow x rest → 4 * ps.length + fuel x ≤ n →
    ∃ cmd ps', parse x n ps = .ok (cmd, ps') ∧ ps' <:+ ps ∧ tokens ps' = rest ∧ Denotes s cmd tr := by
  induction h with
  | @line ts t k _ ih =>
    intro ps rest n hps ht hf hn
    obtain ⟨n, rfl⟩ := Nat.exists_eq_succ_of_ne_zero (by simp only [fuel] at hn; omega : n ≠ 0)
    simp only [fuel] at hn
    rw [List.append_assoc] at ht
    obtain ⟨cmd, ps1, ps2, hpipe, hbacks, hs, htok, hd⟩ := parses_backs k hps (by omega : _ ≤ n) ht (Or.inl hf) ih
    have hpeek : (peek ps2 ";").1 = false := hf.peek (u := .semi) rfl (by simp [Follows]) htok
    refine ⟨_, _, ?_, (peek_suffix ps2 ";").trans hs, ?_, hd.backs k⟩
    · simp [parse, parseline, hpipe, hbacks, hpeek]
    · rw [tokens_peek, htok]
  | @seq ts us t u k _ _ ih ih' =>
    intro ps rest n hps ht hf hn
    obtain ⟨n, rfl⟩ := Nat.exists_eq_succ_of_ne_zero (by simp only [fuel] at hn; omega : n ≠ 0)
    simp only [fuel] at hn
    rw [List.append_assoc, List.append_assoc, List.cons_append] at ht
    obtain ⟨cmd, ps1, ps2, hpipe, hbacks, hs, htok, hd⟩ := parses_backs k hps (by omega : _ ≤ n) ht (Or.inr ⟨_, rfl⟩) ih
    have hnext : Next (peek ps2 ";").2 .semi _ := .of_peek htok
    have hpeek : (peek ps2 ";").1 = true := (peek_mark .semi rfl).mpr ⟨_, htok⟩
    have hlt := hnext.shorter
    have hle := peek_length_le ps2 ";"
    have hle' : ps2.length ≤ ps.length := hs.length_le
    have hsuffix := (gettoken_suffix (peek ps2 ";").2).trans ((peek_suffix ps2 ";").trans hs)
    obtain ⟨right, ps3, hline, hs3, htok3, hd'⟩ :=
      ih' (hsuffix.trans hps) hnext.rest hf (by simp only [fuel]; omega : _ ≤ n)
    refine ⟨_, ps3, ?_, hs3.trans hsuffix, htok3, .list (hd.backs k) hd'⟩
    simp only [parse] at hline
    simp [parse, parseline, hpipe, hbacks, hpeek, hline]
  | @pipe ts t _ ih =>
    intro ps rest n hps ht hf hn
    obtain ⟨n, rfl⟩ := Nat.exists_eq_succ_of_ne_zero (by simp only [fuel] at hn; omega : n ≠ 0)
    simp only [fuel] at hn
    have hf' : Follow .exec rest := by
      intro t htok
      rcases hf t htok with he | he | he
      · exact Or.inl he
      · exact Or.inr (Or.inl he)
      · exact Or.inr (Or.inr (Or.inl he))
    obtain ⟨cmd, ps1, hexec, hs, htok, hd⟩ := ih hps ht hf' (by simp only [fuel]; omega : _ ≤ n)
    have hpeek : (peek ps1 "|").1 = false := hf.peek (u := .bar) rfl (by simp [Follows]) htok
    refine ⟨cmd, _, ?_, (peek_suffix ps1 "|").trans hs, ?_, hd⟩
    · simp only [parse] at hexec
      simp [parse, parsepipe, hexec, hpeek]
    · rw [tokens_peek, htok]
  | @bar ts us t u _ _ ih ih' =>
    intro ps rest n hps ht hf hn
    obtain ⟨n, rfl⟩ := Nat.exists_eq_succ_of_ne_zero (by simp only [fuel] at hn; omega : n ≠ 0)
    simp only [fuel] at hn
    rw [List.append_assoc, List.cons_append] at ht
    have hf' : Follow .exec (.bar :: (us ++ rest)) := by
      rintro t ⟨⟩
      exact Or.inr (Or.inr (Or.inr rfl))
    obtain ⟨cmd, ps1, hexec, hs, htok, hd⟩ := ih hps ht hf' (by simp only [fuel]; omega : _ ≤ n)
    have hnext : Next (peek ps1 "|").2 .bar _ := .of_peek htok
    have hpeek : (peek ps1 "|").1 = true := (peek_mark .bar rfl).mpr ⟨_, htok⟩
    have hlt := hnext.shorter
    have hle := peek_length_le ps1 "|"
    have hle' : ps1.length ≤ ps.length := hs.length_le
    have hsuffix := (gettoken_suffix (peek ps1 "|").2).trans ((peek_suffix ps1 "|").trans hs)
    obtain ⟨right, ps2, hpipe, hs2, htok2, hd'⟩ :=
      ih' (hsuffix.trans hps) hnext.rest hf (by simp only [fuel]; omega : _ ≤ n)
    refine ⟨_, ps2, ?_, hs2.trans hsuffix, htok2, .pipe hd hd'⟩
    simp only [parse] at hexec hpipe
    simp [parse, parsepipe, hexec, hpeek, hpipe]
  | @block ts us t rs _ hredirs ih =>
    intro ps rest n hps ht hf hn
    obtain ⟨n, rfl⟩ : ∃ m, n = m + 2 := ⟨n - 2, by simp only [fuel] at hn; omega⟩
    simp only [fuel] at hn
    rw [List.cons_append, List.cons_append, List.append_assoc, List.cons_append] at ht
    have hpeek : (peek ps "(").1 = true := (peek_mark .lparen rfl).mpr ⟨_, ht⟩
    -- `parseexec` has skipped the blanks before `parseblock` peeks again
    have ht' := (tokens_peek ps "(").trans ht
    have hpeek' : (peek (peek ps "(").2 "(").1 = true := (peek_mark .lparen rfl).mpr ⟨_, ht'⟩
    have hnext : Next (peek (peek ps "(").2 "(").2 .lparen _ := .of_peek ht'
    have hlt := hnext.shorter
    have hle := peek_length_le ps "("
    have hle' := peek_length_le (peek ps "(").2 "("
    have hsuffix := (gettoken_suffix (peek (peek ps "(").2 "(").2).trans
      ((peek_suffix (peek ps "(").2 "(").trans (peek_suffix ps "("))
    have hf' : Follow .line (.rparen :: (us ++ rest)) := by
      rintro t ⟨⟩
      rfl
    obtain ⟨cmd, ps1, hline, hs1, htok1, hd⟩ :=
      ih (hsuffix.trans hps) hnext.rest hf' (by simp only [fuel]; omega : _ ≤ n)
    have hpeek1 : (peek ps1 ")").1 = true := (peek_mark .rparen rfl).mpr ⟨_, htok1⟩
    have hnext1 : Next (peek ps1 ")").2 .rparen _ := .of_peek htok1
    have hlt1 := hnext1.shorter
    have hle1 := peek_length_le ps1 ")"
    have hle2 : ps1.length ≤ _ := hs1.length_le
    have hsuffix1 := (gettoken_suffix (peek ps1 ")").2).trans ((peek_suffix ps1 ")").trans (hs1.trans hsuffix))
    obtain ⟨rs', ps2, hparse, hs2, htok2, hm⟩ := hredirs.parses (by omega : _ < n) (hsuffix1.trans hps) .nil hnext1.rest
      (not_redir fun t htok => Or.inr (hf.closed t htok))
    refine ⟨_, ps2, ?_, hs2.trans hsuffix1, htok2, hd.redirect hm⟩
    simp only [parse] at hline
    simp [parse, parseexec, hpeek, parseblock, hpeek', hline, hpeek1, hparse]
  | @simple ts us ws rs rs' hredirs hargs hw =>
    intro ps rest n hps ht hf hn
    obtain ⟨n, rfl⟩ := Nat.exists_eq_succ_of_ne_zero (by simp only [fuel] at hn; omega : n ≠ 0)
    simp only [fuel] at hn
    rw [List.append_assoc] at ht
    have hhead := hargs.head hf.closed
    have hpeek : (peek ps "(").1 = false := by
      rw [← Bool.not_eq_true, peek_mark .lparen rfl, ht]
      rintro ⟨vs, he⟩
      cases hredirs with
      | cons o w _ => cases he
      | nil =>
        rw [List.nil_append] at he
        rcases hhead .lparen (by rw [he]; rfl) with ⟨w, hcontra⟩ | hcontra
        · cases hcontra
        · cases hcontra
    have hle := peek_length_le ps "("
    have hsuffix := peek_suffix ps "("
    obtain ⟨rs1, ps1, hparse, hs1, htok1, hm⟩ := hredirs.parses (by omega : (peek ps "(").2.length < n)
      (hsuffix.trans hps) .nil ((tokens_peek ps "(").trans ht) (not_redir hhead)
    have hle1 : ps1.length ≤ _ := hs1.length_le
    obtain ⟨cmd, ps2, hparse2, hs2, htok2, hd⟩ := hargs.parses (by omega : ps1.length < n)
      (hs1.trans (hsuffix.trans hps)) (Holds.nil s) hm
          (by simp only [MAXARGS] at hw ⊢; simpa using by omega) htok1 hf.closed
    refine ⟨cmd, ps2, ?_, hs2.trans (hs1.trans hsuffix), htok2, hd⟩
    simp only [List.length_nil] at hparse2
    simp [parse, parseexec, hpeek, hparse, hparse2]

end Xv6.Shell
