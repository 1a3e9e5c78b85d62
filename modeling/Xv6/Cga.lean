import Xv6.Param

/-!
The text screen of `cgaputc` as a window on an endless sheet.
-/

namespace Xv6.Cga

/-- The cells of the screen and the cursor. -/
structure Screen where
  crt : ℕ → ℕ
  pos : ℕ

def BACKSPACE : ℕ := 0x100

def cell (c : ℕ) : ℕ := c % 256 ||| 0x700

/-- `memmove` of the rows 1 to 23 and `memset` of what is behind the cursor. -/
def scroll (crt : ℕ → ℕ) (pos k : ℕ) : ℕ :=
  if pos ≤ k ∧ k < 24 * 80 then 0 else if k < 23 * 80 then crt (k + 80) else crt k

def put (s : Screen) (c : ℕ) : Screen :=
  if c = 10 then { s with pos := s.pos + (80 - s.pos % 80) }
  else if c = BACKSPACE then { s with pos := s.pos - 1 }
  else ⟨Function.update s.crt s.pos (cell c), s.pos + 1⟩

def cgaputc (s : Screen) (c : ℕ) : Outcome Screen :=
  let s := put s c
  if 25 * 80 < s.pos then .error "pos under/overflow"
  else
    let s := if 24 ≤ s.pos / 80 then ⟨scroll s.crt (s.pos - 80), s.pos - 80⟩ else s
    .ok { s with crt := Function.update s.crt s.pos (cell 32) }

/-- An endless sheet: the cursor moves on, and `top` is the first row that is still shown. -/
structure Sheet where
  text : ℕ → ℕ
  cur : ℕ
  top : ℕ

def move (p : Sheet) (c : ℕ) : Sheet :=
  if c = 10 then { p with cur := p.cur + (80 - p.cur % 80) }
  else if c = BACKSPACE then { p with cur := if p.top * 80 < p.cur then p.cur - 1 else p.cur }
  else { p with text := Function.update p.text p.cur (cell c), cur := p.cur + 1 }

def type (p : Sheet) (c : ℕ) : Sheet :=
  let p := move p c
  { text := Function.update p.text p.cur (cell 32), cur := p.cur, top := max p.top (p.cur / 80 - 23) }

def blank (v : ℕ) : Prop := v = 0 ∨ v = cell 32

/-- The screen shows the sheet from row `top` on, blank for blank, and behind the cursor there is nothing. -/
structure Shows (s : Screen) (p : Sheet) : Prop where
  pos : s.pos + p.top * 80 = p.cur
  fits : s.pos < 24 * 80
  cells : ∀ k, k < 24 * 80 → s.crt k = p.text (p.top * 80 + k) ∨ blank (s.crt k) ∧ blank (p.text (p.top * 80 + k))
  clear : ∀ n, p.cur ≤ n → blank (p.text n)

variable {s : Screen} {p : Sheet}

/-- Before the screen is scrolled. -/
structure Moved (s : Screen) (p : Sheet) : Prop where
  pos : s.pos + p.top * 80 = p.cur
  fits : s.pos < 24 * 80 ∨ s.pos = 24 * 80
  cells : ∀ k, k < 24 * 80 → s.crt k = p.text (p.top * 80 + k) ∨ blank (s.crt k) ∧ blank (p.text (p.top * 80 + k))
  clear : ∀ n, p.cur < n → blank (p.text n)

theorem cells_update {crt text : ℕ → ℕ} {a pos cur : ℕ} (hcur : a + pos = cur) (v : ℕ)
    (h : ∀ k, k < 24 * 80 → crt k = text (a + k) ∨ blank (crt k) ∧ blank (text (a + k))) (k : ℕ) (hk : k < 24 * 80) :
    Function.update crt pos v k = Function.update text cur v (a + k) ∨
      blank (Function.update crt pos v k) ∧ blank (Function.update text cur v (a + k)) := by
  by_cases he : k = pos
  · left
    rw [he, hcur, Function.update_self, Function.update_self]
  · rw [Function.update_of_ne he, Function.update_of_ne (by omega)]
    exact h k hk

theorem Shows.put (h : Shows s p) (c : ℕ) : Moved (Cga.put s c) (move p c) := by
  have hpos := h.pos
  have hfits := h.fits
  have hcur : p.top * 80 + s.pos = p.cur := by omega
  by_cases hn : c = 10
  · rw [Cga.put, move, if_pos hn, if_pos hn]
    refine ⟨?_, ?_, h.cells, fun n hlt => h.clear n ?_⟩
    · dsimp only
      omega
    · dsimp only
      omega
    · dsimp only at hlt
      omega
  by_cases hb : c = BACKSPACE
  · rw [Cga.put, move, if_neg hn, if_neg hn, if_pos hb, if_pos hb]
    refine ⟨?_, ?_, h.cells, fun n hlt => h.clear n ?_⟩
    · dsimp only
      split_ifs <;> omega
    · dsimp only
      omega
    · dsimp only at hlt
      split_ifs at hlt <;> omega
  · rw [Cga.put, move, if_neg hn, if_neg hn, if_neg hb, if_neg hb]
    refine ⟨?_, ?_, cells_update hcur (cell c) h.cells, fun n hlt => ?_⟩
    · dsimp only
      omega
    · dsimp only
      omega
    · dsimp only at hlt ⊢
      rw [Function.update_of_ne (by omega)]
      exact h.clear n (by omega)

/-- The cursor is drawn as a blank, on the screen and on the sheet. -/
theorem Moved.draw (h : Moved s p) (hfits : s.pos <
    24 * 80) : Shows { s with crt := Function.update s.crt s.pos (cell 32) }
    { p with text := Function.update p.text p.cur (cell 32) } := by
  have hcur : p.top * 80 + s.pos = p.cur := (Nat.add_comm ..).trans h.pos
  refine ⟨h.pos, hfits, cells_update hcur (cell 32) h.cells, fun n hn => ?_⟩
  by_cases he : n = p.cur
  · rw [he]
    dsimp only
    rw [Function.update_self]
    exact Or.inr rfl
  · dsimp only at hn ⊢
    rw [Function.update_of_ne he]
    exact h.clear n (by omega)

theorem Moved.scroll (h : Moved s p) (he : s.pos = 24 * 80) :
    Moved ⟨Cga.scroll s.crt (s.pos - 80),
      s.pos - 80⟩ { p with top := p.top + 1, text := Function.update p.text p.cur (cell 32) } := by
  have hpos := h.pos
  refine ⟨?_, ?_, fun k hk => ?_, fun n hn => ?_⟩
  · dsimp only
    omega
  · dsimp only
    omega
  · have hn : (p.top + 1) * 80 + k = p.top * 80 + (k + 80) := by omega
    dsimp only
    rw [hn, Cga.scroll]
    by_cases hlt : k < 23 * 80
    · rw [if_neg (by omega), if_pos hlt, Function.update_of_ne (by omega)]
      exact h.cells (k + 80) (by omega)
    · rw [if_pos (by omega)]
      refine Or.inr ⟨Or.inl rfl, ?_⟩
      by_cases hc : p.top * 80 + (k + 80) = p.cur
      · rw [hc, Function.update_self]
        exact Or.inr rfl
      · rw [Function.update_of_ne hc]
        exact h.clear _ (by omega)
  · dsimp only at hn ⊢
    rw [Function.update_of_ne (by omega)]
    exact h.clear n hn

theorem Shows.cgaputc (h : Shows s p) (c : ℕ) : ∃ t, Cga.cgaputc s c = .ok t ∧ Shows t (type p c) := by
  have hm := h.put c
  have hpos := hm.pos
  rcases hm.fits with hf | hf
  · have heq : Cga.cgaputc s c = .ok { Cga.put s c with
        crt := Function.update (Cga.put s c).crt (Cga.put s c).pos (cell 32) } := by
      rw [Cga.cgaputc, if_neg (by omega), if_neg (by omega)]
    have htop : max (move p c).top ((move p c).cur / 80 - 23) = (move p c).top := by omega
    refine ⟨_, heq, ?_⟩
    rw [type, htop]
    exact hm.draw hf
  · have heq : Cga.cgaputc s c = .ok ⟨Function.update (Cga.scroll (Cga.put s c).crt ((Cga.put s c).pos - 80))
        ((Cga.put s c).pos - 80) (cell 32), (Cga.put s c).pos - 80⟩ := by
      rw [Cga.cgaputc, if_neg (by omega), if_pos (by omega)]
    have htop : max (move p c).top ((move p c).cur / 80 - 23) = (move p c).top + 1 := by omega
    have hd := (hm.scroll hf).draw (by dsimp only; omega)
    dsimp only at hd
    rw [Function.update_idem] at hd
    refine ⟨_, heq, ?_⟩
    rw [type, htop]
    exact hd

/-- Whatever is printed, `cgaputc` does not stop the machine, and the screen is a window of 24 rows on the sheet. -/
theorem screen_shows_sheet (h : Shows s p) (cs : List ℕ) :
    ∃ t, cs.foldlM Cga.cgaputc s = .ok t ∧ Shows t (cs.foldl type p) := by
  induction cs generalizing s p with
  | nil => exact ⟨s, rfl, h⟩
  | cons c cs ih =>
    obtain ⟨t, ht, hs⟩ := h.cgaputc c
    obtain ⟨u, hu, hs'⟩ := ih hs
    exact ⟨u, by rw [List.foldlM_cons, ht, Outcome.ok_bind, hu], hs'⟩

theorem screen_shows_line : ∃ t, [104, 105, 10].foldlM Cga.cgaputc ⟨fun _ => 0, 0⟩ = .ok t ∧
    Shows t ([104, 105, 10].foldl type ⟨fun _ => 0, 0, 0⟩) :=
  screen_shows_sheet ⟨rfl, by decide, fun _ _ => Or.inl rfl, fun _ _ => Or.inl rfl⟩ _

end Xv6.Cga
