import Xv6.Shell

namespace Xv6.Shell

def Token.code : Token → UInt8
  | .bar => byte '|'
  | .lparen => byte '('
  | .rparen => byte ')'
  | .semi => byte ';'
  | .amp => byte '&'
  | .op .less => byte '<'
  | .op .greater => byte '>'
  | .op .append => byte '+'
  | .word _ => byte 'a'

def Token.leads (toks : String) : Token → Bool
  | .op .append => strchr (bytes toks) (byte '>')
  | .word _ => false
  | t => strchr (bytes toks) t.code

def tokenOf (ret : UInt8) (w : List UInt8) : Option Token :=
  if ret = byte '|' then some .bar
  else if ret = byte '(' then some .lparen
  else if ret = byte ')' then some .rparen
  else if ret = byte ';' then some .semi
  else if ret = byte '&' then some .amp
  else if ret = byte '<' then some (.op .less)
  else if ret = byte '>' then some (.op .greater)
  else if ret = byte '+' then some (.op .append)
  else if ret = byte 'a' then some (.word w)
  else none

def Gettoken.token (t : Gettoken) : Option Token := tokenOf t.ret (t.q.take (t.q.length - t.eq.length))

def tokensUpTo : ℕ → Ptr → List Token
  | 0, _ => []
  | n + 1, s =>
    match (gettoken s).token with
    | none => []
    | some t => t :: tokensUpTo n (gettoken s).ps

def tokens (s : Ptr) : List Token := tokensUpTo s.length s

structure Span (s q e : Ptr) (w : List UInt8) : Prop where
  suffix : q <:+ s
  text : q = w ++ e
  nonempty : w ≠ []
  inside : ∀ c ∈ w, inWord c = true
  outside : ∀ c ∈ e.head?, inWord c = false

variable {s ps : Ptr} {t : Token} {ts : List Token} {c : UInt8} {toks : String}

theorem Span.of_suffix {s' q e : Ptr} {w : List UInt8} (h : Span s' q e w) (hs : s' <:+ s) : Span s q e w :=
  ⟨h.suffix.trans hs, h.text, h.nonempty, h.inside, h.outside⟩

theorem skip_suffix (s : Ptr) : skip s <:+ s := List.dropWhile_suffix _

theorem skip_skip (s : Ptr) : skip (skip s) = skip s := List.dropWhile_idempotent _ _

theorem head_dropWhile {p : UInt8 → Bool} (h : s.dropWhile p = c :: ps) : p c = false := by
  have hne : s.dropWhile p ≠ [] := by
    rw [h]
    exact List.cons_ne_nil c ps
  have hhead := List.head_dropWhile_not p hne
  simp only [h, List.head_cons] at hhead
  exact hhead

theorem symbols_eq : symbols = ['<', '|', '>', '&', ';', '(', ')'].map byte := by decide

structure Finds (s : Ptr) (t : Token) : Prop where
  code : (scan s).1 = t.code
  token : tokenOf (scan s).1 (s.take (s.length - (scan s).2.length)) = some t
  suffix : (scan s).2 <:+ s
  shorter : (scan s).2.length < s.length
  leads : ∀ toks, bytes toks ⊆ symbols → (deref s ≠ 0 ∧ strchr (bytes toks) (deref s) = true ↔ t.leads toks = true)
  span : ∀ w, t = .word w → Span s s (scan s).2 w

theorem Finds.one (hs : scan (c :: ps) = (c, ps)) (hc : c = t.code) (h0 : c ≠ 0) (ht : ∀ w, tokenOf c w = some t)
    (hl : ∀ toks, t.leads toks = strchr (bytes toks) t.code) (hw : ∀ w, t ≠ .word w) : Finds (c :: ps) t := by
  refine ⟨by rw [hs, hc], by rw [hs]; exact ht _, ?_, ?_, fun toks _ => ?_, fun w he => absurd he (hw w)⟩
  · rw [hs]
    exact List.suffix_cons c ps
  · rw [hs]
    exact Nat.lt_succ_self _
  · rw [hl, ← hc]
    simp [deref, h0]

theorem finds_symbol (h : strchr symbols c = true) : ∃ t, Finds (c :: ps) t := by
  have hmem : c = byte '<' ∨ c = byte '|' ∨ c = byte '>' ∨ c = byte '&' ∨ c = byte ';' ∨
      c = byte '(' ∨ c = byte ')' := by
    simpa [strchr, symbols_eq] using h
  rcases hmem with rfl | rfl | rfl | rfl | rfl | rfl | rfl
  · exact ⟨.op .less, .one rfl rfl (by decide) (fun _ => rfl) (fun _ => rfl) (by simp)⟩
  · exact ⟨.bar, .one rfl rfl (by decide) (fun _ => rfl) (fun _ => rfl) (by simp)⟩
  · by_cases hgt : deref ps = byte '>'
    · obtain ⟨r, rfl⟩ : ∃ r, ps = byte '>' :: r := by
        cases ps with
        | nil => exact absurd hgt (by decide)
        | cons d r => exact ⟨r, by rw [← hgt]; rfl⟩
      have hs : scan (byte '>' :: byte '>' :: r) = (byte '+', r) := rfl
      refine ⟨.op .append, by rw [hs]; rfl, by rw [hs]; rfl, ?_, ?_, fun toks _ => ?_, by simp⟩
      · rw [hs]
        exact (List.suffix_cons _ r).trans (List.suffix_cons _ _)
      · rw [hs]
        simp
      · simp [deref, Token.leads, show byte '>' ≠ 0 by decide]
    · have hs : scan (byte '>' :: ps) = (byte '>', ps) := by
        rw [scan, if_neg (by decide), if_pos rfl, if_neg hgt]
      exact ⟨.op .greater, .one hs rfl (by decide) (fun _ => rfl) (fun _ => rfl) (by simp)⟩
  · exact ⟨.amp, .one rfl rfl (by decide) (fun _ => rfl) (fun _ => rfl) (by simp)⟩
  · exact ⟨.semi, .one rfl rfl (by decide) (fun _ => rfl) (fun _ => rfl) (by simp)⟩
  · exact ⟨.lparen, .one rfl rfl (by decide) (fun _ => rfl) (fun _ => rfl) (by simp)⟩
  · exact ⟨.rparen, .one rfl rfl (by decide) (fun _ => rfl) (fun _ => rfl) (by simp)⟩

theorem scan_word (h : strchr symbols c = false) : scan (c :: ps) = (byte 'a', (c :: ps).dropWhile inWord) := by
  have hne : ∀ d, strchr symbols d = true → c ≠ d := by
    rintro d hd rfl
    exact Bool.false_ne_true (h.symm.trans hd)
  rw [scan, if_neg ?_, if_neg (hne _ (by decide))]
  rintro (hc | hc | hc | hc | hc | hc)
  all_goals exact hne _ (by decide) hc

theorem finds_word (h : strchr symbols c = false) (hc : strchr whitespace c = false) :
    Finds (c :: ps) (.word ((c :: ps).takeWhile inWord)) := by
  have hs : scan (c :: ps) = (byte 'a', (c :: ps).dropWhile inWord) := scan_word h
  have htext := (List.takeWhile_append_dropWhile (p := inWord) (l := c :: ps)).symm
  have hne : (c :: ps).takeWhile inWord ≠ [] := by simp [inWord, h, hc]
  have hspan : Span (c :: ps) (c :: ps) ((c :: ps).dropWhile inWord) ((c :: ps).takeWhile inWord) := by
    refine ⟨List.suffix_rfl, htext, hne, fun d hd => List.mem_takeWhile_imp hd, fun d hd => ?_⟩
    obtain ⟨r, hr⟩ := List.head?_eq_some_iff.mp hd
    exact head_dropWhile hr
  generalize hw : (c :: ps).takeWhile inWord = w at *
  generalize he : (c :: ps).dropWhile inWord = e at *
  refine ⟨by rw [hs]; rfl, ?_, ?_, ?_, fun toks ht => ?_, ?_⟩
  · have htake : (c :: ps).take ((c :: ps).length - e.length) = w := by
      rw [htext, List.length_append, Nat.add_sub_cancel, List.take_left]
    rw [hs, htake]
    rfl
  · rw [hs, htext]
    exact List.suffix_append w e
  · have := List.length_pos_iff.mpr hne
    rw [hs, htext, List.length_append]
    change e.length < _
    omega
  · have hnot : strchr (bytes toks) c = false := by
      rw [← Bool.not_eq_true]
      intro hmem
      have hsym : strchr symbols c = true := by
        simp only [strchr, List.contains_iff_mem] at hmem ⊢
        exact ht hmem
      exact Bool.false_ne_true (h.symm.trans hsym)
    simp [deref, Token.leads, hnot]
  · rintro v ⟨⟩
    rw [hs]
    exact hspan

theorem finds_skip (h : skip s = c :: ps) : ∃ t, Finds (c :: ps) t := by
  cases hc : strchr symbols c with
  | true => exact finds_symbol hc
  | false => exact ⟨_, finds_word hc (head_dropWhile h)⟩

theorem gettoken_of_nil (h : skip s = []) : (gettoken s).ret = 0 ∧ (gettoken s).ps = [] ∧
    (gettoken s).token = none := by
  simp only [gettoken, h]
  exact ⟨rfl, rfl, rfl⟩

theorem gettoken_token (h : Finds (skip s) t) : (gettoken s).token = some t := h.token

theorem gettoken_suffix (s : Ptr) : (gettoken s).ps <:+ s := by
  cases h : skip s with
  | nil =>
    rw [(gettoken_of_nil h).2.1]
    exact List.nil_suffix
  | cons c ps =>
    obtain ⟨t, ht⟩ := finds_skip h
    rw [← h] at ht
    exact (skip_suffix _).trans (ht.suffix.trans (skip_suffix s))

theorem gettoken_shorter (h : Finds (skip s) t) : (gettoken s).ps.length < s.length :=
  lt_of_le_of_lt (skip_suffix _).length_le (lt_of_lt_of_le h.shorter (skip_suffix s).length_le)

theorem tokensUpTo_eq {n m : ℕ} (hn : s.length ≤ n) (hm : s.length ≤ m) : tokensUpTo n s = tokensUpTo m s := by
  induction n generalizing m s with
  | zero =>
    have hs : s = [] := List.length_eq_zero_iff.mp (Nat.le_zero.mp hn)
    subst hs
    cases m with
    | zero => rfl
    | succ m => rfl
  | succ n ih =>
    cases m with
    | zero =>
      have hs : s = [] := List.length_eq_zero_iff.mp (Nat.le_zero.mp hm)
      subst hs
      rfl
    | succ m =>
      rw [tokensUpTo, tokensUpTo]
      cases h : skip s with
      | nil => rw [(gettoken_of_nil h).2.2]
      | cons c ps =>
        obtain ⟨t, ht⟩ := finds_skip h
        rw [← h] at ht
        have hlt := gettoken_shorter ht
        rw [gettoken_token ht]
        simp only [ih (by omega : (gettoken s).ps.length ≤ n) (by omega : (gettoken s).ps.length ≤ m)]

theorem tokens_of_nil (h : skip s = []) : tokens s = [] := by
  rw [tokens, tokensUpTo_eq le_rfl (Nat.le_succ _), tokensUpTo, (gettoken_of_nil h).2.2]

theorem tokens_of_finds (h : Finds (skip s) t) : tokens s = t :: tokens (gettoken s).ps := by
  have hlt := gettoken_shorter h
  rw [tokens, tokensUpTo_eq le_rfl (Nat.le_succ _), tokensUpTo, gettoken_token h]
  simp only [tokens, tokensUpTo_eq hlt.le le_rfl]

theorem tokens_skip (s : Ptr) : tokens (skip s) = tokens s := by
  cases h : skip s with
  | nil => rw [tokens_of_nil h]; rfl
  | cons c ps =>
    obtain ⟨t, ht⟩ := finds_skip h
    rw [← h] at ht ⊢
    rw [tokens_of_finds ht, tokens_of_finds (s := skip s) (by rw [skip_skip]; exact ht)]
    simp only [gettoken, skip_skip]

structure Next (s : Ptr) (t : Token) (ts : List Token) : Prop where
  ret : (gettoken s).ret = t.code
  rest : tokens (gettoken s).ps = ts
  shorter : (gettoken s).ps.length < s.length
  peek : ∀ toks, bytes toks ⊆ symbols → (Shell.peek s toks).1 = t.leads toks
  span : ∀ w, t = .word w → Span s (gettoken s).q (gettoken s).eq w

theorem Next.of_tokens (h : tokens s = t :: ts) : Next s t ts := by
  cases hs : skip s with
  | nil => cases (tokens_of_nil hs).symm.trans h
  | cons c ps =>
    obtain ⟨t', ht⟩ := finds_skip hs
    rw [← hs] at ht
    rw [tokens_of_finds ht, List.cons.injEq] at h
    obtain ⟨rfl, rfl⟩ := h
    refine ⟨ht.code, rfl, gettoken_shorter ht, fun toks htoks => ?_, fun w hw => (ht.span w hw).of_suffix
        (skip_suffix s)⟩
    rw [Bool.eq_iff_iff, ← ht.leads toks htoks]
    simp [Shell.peek]

theorem gettoken_end (h : tokens s = []) : (gettoken s).ret = 0 ∧ (gettoken s).ps = [] ∧ skip s = [] := by
  cases hs : skip s with
  | nil => exact ⟨(gettoken_of_nil hs).1, (gettoken_of_nil hs).2.1, rfl⟩
  | cons c ps =>
    obtain ⟨t, ht⟩ := finds_skip hs
    rw [← hs] at ht
    cases (tokens_of_finds ht).symm.trans h

theorem peek_end (h : tokens s = []) : (peek s toks).1 = false := by
  simp [peek, (gettoken_end h).2.2, deref]

theorem tokens_peek (s : Ptr) (toks : String) : tokens (peek s toks).2 = tokens s := tokens_skip s

theorem peek_suffix (s : Ptr) (toks : String) : (peek s toks).2 <:+ s := skip_suffix s

end Xv6.Shell
