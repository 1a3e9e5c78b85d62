import Xv6.ImageBytes

/-!
The arguments that `exec` copies to the stack of the new program.
-/

namespace Xv6.Vm

open ByteMemory Ownership

def roundWord (n : ℕ) : ℕ := (n + 3) / 4 * 4

def stringBytes (argv : List (List UInt8)) : ℕ := (argv.map fun a => roundWord (a.length + 1)).sum

def Fits (argv : List (List UInt8)) : Prop := stringBytes argv + (3 + argv.length + 1) * 4 ≤ PGSIZE

instance (argv : List (List UInt8)) : Decidable (Fits argv) := inferInstanceAs (Decidable (_ ≤ _))

structure Pushed (m : PhysMem) (d sz sp : ℕ) (ps : List (ℕ × List UInt8)) : Prop where
  aligned : sp % 4 = 0
  low : sz - PGSIZE ≤ sp
  high : sp ≤ sz
  inside : ∀ x ∈ ps, sp ≤ x.1 ∧ x.1 + x.2.length + 1 ≤ sz
  bytes : ∀ x ∈ ps, ∀ k, k ≤ x.2.length → userByte m d (x.1 + k) = (x.2 ++ [0]).getD k 0
  apart : ps.Pairwise fun x y => y.1 + y.2.length + 1 ≤ x.1

def areas (esp : ℕ) (argv : List (List UInt8)) (ptrs : List ℕ) : List (ℕ × ℕ) :=
  (esp, 12) :: (esp + 12, 4 * (argv.length + 1)) :: (ptrs.zip argv).map fun x => (x.1, x.2.length + 1)

structure ArgsAt (m : PhysMem) (d sz esp : ℕ) (argv : List (List UInt8)) (ptrs : List ℕ) : Prop where
  length : ptrs.length = argv.length
  words : ∀ j w, ([0xffffffff, argv.length, esp + 12] ++ ptrs ++ [0])[j]? = some w → loadInt m d (esp + 4 * j) = .ok w
  strings : ∀ x ∈ ptrs.zip argv, ∀ k, k ≤ x.2.length → loadByte m d (x.1 + k) = .ok ((x.2 ++ [0]).getD k 0)
  aligned : (esp + 12) % 4 = 0
  inside : ∀ x ∈ areas esp argv ptrs, sz - PGSIZE ≤ x.1 ∧ x.1 + x.2 ≤ sz
  apart : (areas esp argv ptrs).Pairwise fun x y => x.1 + x.2 ≤ y.1 ∨ y.1 + y.2 ≤ x.1

def InGap (sp n : ℕ) : Prop := sp + (2 ^ 32 - DEVSPACE) < n ∧ n ≤ sp + (2 ^ 32 - (KERNBASE + PHYSTOP))

instance (sp n : ℕ) : Decidable (InGap sp n) := inferInstanceAs (Decidable (_ ∧ _))

def Clear (sz sp k : ℕ) (args : List (List UInt8)) : Prop :=
  ∀ i, i < args.length → k + i < MAXARG → sz - PGSIZE + stringBytes (args.take i) ≤ sp →
    ¬InGap sp (stringBytes (args.take (i + 1)))

section

variable {L : Layout} {A : Set Role} {M : Set ℕ} {d sz sp : ℕ} {m0 m m' : PhysMem} {ps : List (ℕ × List UInt8)}

theorem stringBytes_nil : stringBytes [] = 0 := rfl

theorem stringBytes_cons (a : List UInt8) (argv : List (List UInt8)) :
    stringBytes (a :: argv) = roundWord (a.length + 1) + stringBytes argv := by
  simp only [stringBytes, List.map_cons, List.sum_cons]

theorem clear_cons {k : ℕ} (hlow : sz - PGSIZE ≤ sp) (hk : k < MAXARG) (a : List UInt8) (args : List (List UInt8)) :
    Clear sz sp k (a :: args) ↔ ¬InGap sp (roundWord (a.length + 1)) ∧
      (sz - PGSIZE + roundWord (a.length + 1) ≤ sp → Clear sz (sp - roundWord (a.length + 1)) (k + 1) args) := by
  constructor
  · intro h
    refine ⟨?_, fun hfit i hi hk' hle => ?_⟩
    · have h0 := h 0 (Nat.succ_pos _) hk (by rw [List.take_zero, stringBytes_nil, Nat.add_zero]; exact hlow)
      rw [List.take_succ_cons, List.take_zero, stringBytes_cons, stringBytes_nil, Nat.add_zero] at h0
      exact h0
    · have hi' := h (i + 1) (by rw [List.length_cons]; omega) (by omega)
          (by rw [List.take_succ_cons, stringBytes_cons]; omega)
      rw [List.take_succ_cons, stringBytes_cons] at hi'
      simp only [InGap] at *
      omega
  · rintro ⟨h0, hrest⟩ i hi hk' hle
    cases i with
    | zero =>
      rw [List.take_succ_cons, List.take_zero, stringBytes_cons, stringBytes_nil, Nat.add_zero]
      exact h0
    | succ i =>
      rw [List.length_cons] at hi
      rw [List.take_succ_cons, stringBytes_cons] at hle ⊢
      have hi' := hrest (by omega) i (by omega) (by omega) (by omega)
      simp only [InGap] at *
      omega

theorem clear_of_full {k : ℕ} (hk : MAXARG ≤ k) (args : List (List UInt8)) : Clear sz sp k args :=
  fun i _ hi _ => absurd hi (by omega)

theorem clear_of_short {args : List (List UInt8)} (hargs : ∀ a ∈ args, a.length + 1 ≤ 2 ^ 25) (sz sp k : ℕ) :
    Clear sz sp k args := by
  induction args generalizing sp k with
  | nil => exact fun i hi => absurd hi (by simp)
  | cons a args ih =>
    intro i hi hk hle
    have hlow : sz - PGSIZE ≤ sp := by omega
    refine (clear_cons hlow (by omega : k < MAXARG) a args).mpr ⟨?_, fun _ => ?_⟩ i hi hk hle
    · have ha := hargs a List.mem_cons_self
      simp only [InGap, roundWord, DEVSPACE]
      omega
    · exact ih (fun x hx => hargs x (List.mem_cons_of_mem _ hx)) _ _

theorem Pushed.mono {sp' : ℕ} (h : Pushed m d sz sp ps) (hsz : sz ≤ KERNBASE) (haligned : sp' % 4 = 0)
    (hlow : sz - PGSIZE ≤ sp') (hle : sp' ≤ sp)
    (hbytes : ∀ a, a < KERNBASE → sp ≤ a → userByte m' d a = userByte m d a) : Pushed m' d sz sp' ps := by
  refine ⟨haligned, hlow, hle.trans h.high, fun x hx => ?_, fun x hx k hk => ?_, h.apart⟩
  · have := h.inside x hx
    omega
  · have := h.inside x hx
    rw [hbytes _ (by omega) (by omega)]
    exact h.bytes x hx k hk

theorem Pushed.push {a : List UInt8} {sp' : ℕ} (h : Pushed m d sz sp ps) (hsz : sz ≤ KERNBASE) (haligned : sp' % 4 = 0)
    (hlow : sz - PGSIZE ≤ sp') (hle : sp' + (a.length + 1) ≤ sp)
    (hbytes : ∀ x, x < KERNBASE → userByte m' d x =
      if sp' ≤ x ∧ x < sp' + (a ++ [0]).length then (a ++ [0]).getD (x - sp') 0 else userByte m d x) :
    Pushed m' d sz sp' (ps ++ [(sp', a)]) := by
  have hlen : (a ++ [0]).length = a.length + 1 := List.length_append
  rw [hlen] at hbytes
  have hhigh := h.high
  have hold : Pushed m' d sz sp' ps := by
    refine h.mono hsz haligned hlow (by omega) fun x hx hsp => ?_
    rw [hbytes x hx, if_neg (by omega)]
  refine ⟨haligned, hlow, hold.high, ?_, ?_, ?_⟩
  · intro x hx
    rcases List.mem_append.mp hx with hx | hx
    · exact hold.inside x hx
    · obtain rfl := List.mem_singleton.mp hx
      exact ⟨le_rfl, by dsimp only; omega⟩
  · intro x hx k hk
    rcases List.mem_append.mp hx with hx | hx
    · exact hold.bytes x hx k hk
    · obtain rfl := List.mem_singleton.mp hx
      dsimp only at hk ⊢
      rw [hbytes _ (by omega), if_pos (by omega), Nat.add_sub_cancel_left]
  · refine List.pairwise_append.mpr ⟨h.apart, List.pairwise_singleton _ _, fun x hx y hy => ?_⟩
    obtain rfl := List.mem_singleton.mp hy
    have := (h.inside x hx).1
    dsimp only
    omega

theorem pushed_sp {n : ℕ} (hsz : sz ≤ KERNBASE) (haligned : sp % 4 = 0) (hlow : sz - PGSIZE ≤ sp) (hsp : sp ≤ sz)
    (htwo : 2 * PGSIZE ≤ sz) (hn : 0 < n) (hlen : n ≤ 2 ^ 31) :
    (((sp + 2 ^ 32 - n) % 2 ^ 32 / 4 * 4 + n ≤ sz ∧ sz - PGSIZE ≤ (sp + 2 ^ 32 - n) % 2 ^ 32 / 4 * 4) ↔
      sz - PGSIZE + roundWord n ≤ sp) ∧
    (sz - PGSIZE + roundWord n ≤ sp → (sp + 2 ^ 32 - n) % 2 ^ 32 / 4 * 4 = sp - roundWord n ∧ n ≤ roundWord n) ∧
    sz ≤ (sp + 2 ^ 32 - n) % 2 ^ 32 / 4 * 4 + n + PGSIZE + 3 := by
  simp only [roundWord, KERNBASE, PGSIZE] at *
  omega

theorem tabled_push {n : ℕ} (hsz : sz ≤ KERNBASE) (haligned : sp % 4 = 0) (hsp : sp ≤ sz) (hn : 0 < n)
    (hlen : n ≤ 2 ^ 31) (hgap : ¬InGap sp (roundWord n)) : Tabled sz ((sp + 2 ^ 32 - n) % 2 ^ 32 / 4 * 4) n := by
  simp only [InGap, Tabled, roundWord, KERNBASE, PHYSTOP, DEVSPACE] at *
  omega

theorem gap_push {n : ℕ} (haligned : sp % 4 = 0) (hgap : InGap sp (roundWord n)) :
    568 ≤ (sp + 2 ^ 32 - n) % 2 ^ 32 / 4 * 4 / PGSIZE / 1024 ∧ (sp + 2 ^ 32 - n) % 2 ^ 32 / 4 * 4 / PGSIZE / 1024 <
      1016 := by
  simp only [InGap, roundWord, KERNBASE, PHYSTOP, DEVSPACE, PGSIZE] at *
  omega

theorem push_turn (hsz : sz ≤ KERNBASE) (h : Image L A M d sz m0 m) (hst : Stack m d sz) (hp : Pushed m d sz sp ps)
    {a : List UInt8} (ha : a.length + 1 ≤ 2 ^ 31) (hgap : ¬InGap sp (roundWord (a.length + 1))) {sp' : ℕ}
    (hsp' : sp' = (sp + 2 ^ 32 - (a.length + 1)) % 2 ^ 32 / 4 * 4) :
    ∃ b m', (∀ null, copyoutWith null d sp' (a ++ [0]) m = .ok (b, m')) ∧ Image L A M d sz m0 m' ∧ Stack m' d sz ∧
      Keeps A m m' ∧ Same (A ∪ rooted d) m m' ∧ (∀ x, x / PGSIZE = sz / PGSIZE - 2 → userByte m' d x = userByte m d x) ∧
      (b = true ↔ sz - PGSIZE + roundWord (a.length + 1) ≤ sp) ∧
      (b = true → sp' = sp - roundWord (a.length + 1) ∧ Pushed m' d sz sp' (ps ++ [(sp', a)]) ∧
        ∀ x, x < sz - PGSIZE → userByte m' d x = userByte m d x) := by
  have hlen : (a ++ [0]).length = a.length + 1 := List.length_append
  obtain ⟨hiff, hfits, hend⟩ := pushed_sp hsz hp.aligned hp.low hp.high hst.two (by omega : 0 < a.length + 1) ha
  have htab := tabled_push hsz hp.aligned hp.high (by omega) ha hgap
  rw [← hsp'] at hiff hfits hend htab
  rw [← hlen] at htab
  obtain ⟨b, m', he, h', hst', hk, hs, hb, hbytes, hg⟩ := h.copyout_stack hsz hst htab (by omega)
      (by rw [hlen]; exact hend)
  rw [hlen, hiff] at hb
  refine ⟨b, m', he, h', hst', hk, hs, hg, hb, fun hbt => ?_⟩
  obtain ⟨hsp, hround⟩ := hfits (hb.mp hbt)
  have hhigh := hp.high
  have hfit := hb.mp hbt
  refine ⟨hsp, hp.push hsz (by omega) (by omega) (by omega) (hbytes hbt), fun x hx => ?_⟩
  rw [hbytes hbt x (by omega), if_neg (by omega)]

theorem pushArgs_spec (hsz : sz ≤ KERNBASE) (args : List (List UInt8)) (ps : List (ℕ × List UInt8)) (sp : ℕ)
    (m : PhysMem) (h : Image L A M d sz m0 m) (hst : Stack m d sz) (hp : Pushed m d sz sp ps)
    (hargs : ∀ a ∈ args, a.length + 1 ≤ 2 ^ 31) (hclear : Clear sz sp ps.length args) :
    ∃ r m', (∀ null, pushArgsWith null d args (ps.map Prod.fst) sp m = .ok (r, m')) ∧ Image L A M d sz m0 m' ∧
      Stack m' d sz ∧
      Keeps A m m' ∧ (∀ a, a / PGSIZE = sz / PGSIZE - 2 → userByte m' d a = userByte m d a) ∧
      (r.isSome = true ↔ (args = [] ∨ ps.length + args.length ≤ MAXARG) ∧ sz - PGSIZE + stringBytes args ≤ sp) ∧
      ∀ sp' ptrs, r = some (sp', ptrs) → ∃ ps', ptrs = ps'.map Prod.fst ∧ ps'.map Prod.snd = ps.map Prod.snd ++ args ∧
        Pushed m' d sz sp' ps' ∧ sp' = sp - stringBytes args ∧
        ∀ a, a < sz - PGSIZE → userByte m' d a = userByte m d a := by
  induction args generalizing ps sp m with
  | nil =>
    refine ⟨some (sp, ps.map Prod.fst), m, fun _ => rfl, h, hst, Keeps.refl A m, fun _ _ => rfl,
      iff_of_true rfl ⟨Or.inl rfl, by rw [stringBytes_nil, Nat.add_zero]; exact hp.low⟩, ?_⟩
    rintro sp' ptrs ⟨⟩
    exact ⟨ps, rfl, by rw [List.append_nil], hp, by rw [stringBytes_nil, Nat.sub_zero], fun _ _ => rfl⟩
  | cons a args ih =>
    simp only [pushArgsWith, List.length_map]
    by_cases hmax : MAXARG ≤ ps.length
    · refine ⟨none, m, fun _ => by rw [if_pos hmax], h, hst, Keeps.refl A m, fun _ _ => rfl, iff_of_false (by simp) ?_,
        by simp⟩
      rintro ⟨hnil | hle, -⟩
      · cases hnil
      · rw [List.length_cons] at hle
        omega
    simp only [if_neg hmax]
    obtain ⟨hgap, hrest⟩ := (clear_cons hp.low (Nat.lt_of_not_le hmax) a args).mp hclear
    obtain ⟨sp1, hsp1⟩ : ∃ sp1, sp1 = (sp + 2 ^ 32 - (a.length + 1)) % 2 ^ 32 / 4 * 4 := ⟨_, rfl⟩
    obtain ⟨b, m1, he, h1, hst1, hk, -, hg, hb, hpush⟩ := push_turn hsz h hst hp (hargs a List.mem_cons_self) hgap hsp1
    rw [stringBytes_cons]
    simp only [← hsp1]
    cases b with
    | false =>
      refine ⟨none, m1, fun null => by rw [he null]; rfl, h1, hst1, hk, hg, iff_of_false (by simp) ?_, by simp⟩
      rintro ⟨-, hfit⟩
      exact absurd (hb.mpr (by omega)) (by decide)
    | true =>
      have hfit := hb.mp rfl
      obtain ⟨hsp, hp1, hbelow⟩ := hpush rfl
      have hclear1 : Clear sz sp1 (ps ++ [(sp1, a)]).length args := by
        rw [hsp, List.length_append, List.length_singleton]
        exact hrest hfit
      obtain ⟨r, m2, he2, h2, hst2, hk2, hg2, hr, hsome⟩ := ih _ _ m1 h1 hst1 hp1
        (fun x hx => hargs x (List.mem_cons_of_mem a hx)) hclear1
      refine ⟨r, m2, fun null => ?_, h2, hst2, hk.trans hk2, fun x hx => (hg2 x hx).trans (hg x hx), ?_, ?_⟩
      · rw [he null]
        simp only [Outcome.ok_bind, if_true]
        have := he2 null
        rw [List.map_append, List.map_singleton] at this
        exact this
      · rw [hr, hsp]
        simp only [List.length_append, List.length_cons, List.length_nil, reduceCtorEq, false_or]
        constructor
        · rintro ⟨hle, hfit'⟩
          refine ⟨?_, by omega⟩
          rcases hle with rfl | hle
          · simp only [List.length_nil]
            omega
          · omega
        · rintro ⟨hle, hfit'⟩
          exact ⟨Or.inr (by omega), by omega⟩
      · intro sp' ptrs hsome'
        obtain ⟨ps', hptrs, hstr, hpush, hspe, hsame⟩ := hsome sp' ptrs hsome'
        refine ⟨ps', hptrs, ?_, hpush, by omega, fun x hx => (hsame x hx).trans (hbelow x hx)⟩
        rw [hstr, List.map_append, List.map_singleton, List.append_assoc, List.singleton_append]

theorem flatMap_wordBytes_getD {ws : List ℕ} {j w k : ℕ} (hj : ws[j]? = some w) (hk : k < 4) :
    (ws.flatMap wordBytes).getD (4 * j + k) 0 = (wordBytes w).getD k 0 := by
  induction ws generalizing j with
  | nil => cases hj
  | cons x ws ih =>
    have hx : (wordBytes x).length = 4 := rfl
    rw [List.flatMap_cons]
    cases j with
    | zero =>
      cases hj
      rw [List.getD_append _ _ _ _ (by omega), Nat.mul_zero, Nat.zero_add]
    | succ j =>
      rw [List.getD_append_right _ _ _ _ (by omega), ← ih hj]
      congr 1
      omega

theorem loadInt_word {a w : ℕ} (ha : a + 3 < KERNBASE) (hp : ∀ k, k < 4 → present (pte m d ((a + k) / PGSIZE)))
    (hw : w < 2 ^ 32) (hb : ∀ k, k < 4 → userByte m d (a + k) = (wordBytes w).getD k 0) : loadInt m d a = .ok w := by
  have hload : ∀ k, k < 4 → loadByte m d (a + k) = .ok ((wordBytes w).getD k 0) := by
    intro k hk
    rw [loadByte_user (by omega) (hp k hk), hb k hk]
  have h0 := hload 0 (by decide)
  rw [Nat.add_zero] at h0
  simp only [loadInt, h0, hload 1 (by decide), hload 2 (by decide), hload 3 (by decide), Outcome.ok_bind, wordBytes,
    List.getD_cons_zero, List.getD_cons_succ, UInt8.toNat_ofNat', Except.ok.injEq]
  omega

theorem zip_pushed (ps : List (ℕ × List UInt8)) : (ps.map Prod.fst).zip (ps.map Prod.snd) = ps := by
  rw [List.zip_map', List.map_id'']
  exact fun _ => rfl

theorem Pushed.argsAt {esp : ℕ} (h : Image L A M d sz m0 m) (hsz : sz < KERNBASE) (htwo : 2 * PGSIZE ≤ sz)
    (haligned : sz % PGSIZE = 0) (hp : Pushed m d sz esp ps) (hspan : ∀ x ∈ ps, esp + (3 + ps.length + 1) * 4 ≤ x.1)
    (htop : esp + (3 + ps.length + 1) * 4 ≤ sz)
    (hwords : ∀ k, k < (3 + ps.length + 1) * 4 → userByte m d (esp + k) =
      (([0xffffffff, ps.length, esp + 12] ++ ps.map Prod.fst ++ [0]).flatMap wordBytes).getD k 0) :
    ArgsAt m d sz esp (ps.map Prod.snd) (ps.map Prod.fst) := by
  have hpres : ∀ a, esp ≤ a → a < sz → present (pte m d (a / PGSIZE)) := by
    intro a h1 h2
    refine (h.present_of_lt hsz.le ?_).2
    rw [lt_pages]
    simp only [PGSIZE]
    omega
  have hlen : ([0xffffffff, ps.length, esp + 12] ++ ps.map Prod.fst ++ [0]).length = 3 + ps.length + 1 := by
    simp only [List.length_append, List.length_cons, List.length_nil, List.length_map]
  have hareas : ∀ x ∈ areas esp (ps.map Prod.snd) (ps.map Prod.fst), x = (esp, 12) ∨
      x = (esp + 12, 4 * (ps.length + 1)) ∨
      ∃ y ∈ ps, x = (y.1, y.2.length + 1) := by
    intro x hx
    simp only [areas, zip_pushed, List.mem_cons, List.mem_map, List.length_map] at hx
    rcases hx with hx | hx | ⟨y, hy, rfl⟩
    · exact Or.inl hx
    · exact Or.inr (Or.inl hx)
    · exact Or.inr (Or.inr ⟨y, hy, rfl⟩)
  have hlow := hp.low
  have hal := hp.aligned
  refine ⟨by rw [List.length_map, List.length_map], ?_, ?_, by omega, ?_, ?_⟩
  · intro j w hw
    rw [List.length_map] at hw
    obtain ⟨hj, hwj⟩ := List.getElem?_eq_some_iff.mp hw
    rw [hlen] at hj
    have hw32 : w < 2 ^ 32 := by
      have hmem := List.mem_of_getElem? hw
      simp only [List.mem_append, List.mem_cons, List.not_mem_nil, or_false, List.mem_map] at hmem
      simp only [KERNBASE, PGSIZE] at *
      rcases hmem with ((rfl | rfl | rfl) | ⟨y, hy, rfl⟩) | rfl
      · decide
      · omega
      · omega
      · have := hp.inside y hy
        omega
      · decide
    refine loadInt_word (by omega) (fun k hk => hpres _ (by omega) (by omega)) hw32 fun k hk => ?_
    rw [Nat.add_assoc, hwords _ (by omega), flatMap_wordBytes_getD hw hk]
  · intro x hx k hk
    rw [zip_pushed] at hx
    have hin := hp.inside x hx
    rw [loadByte_user (by omega) (hpres _ (by omega) (by omega)), hp.bytes x hx k hk]
  · intro x hx
    rcases hareas x hx with rfl | rfl | ⟨y, hy, rfl⟩
    · dsimp only
      omega
    · dsimp only
      omega
    · have hin := hp.inside y hy
      dsimp only
      omega
  · have hstr : ∀ y ∈ ps.map (fun x => (x.1, x.2.length + 1)), esp + (3 + ps.length + 1) * 4 ≤ y.1 := by
      intro y hy
      obtain ⟨x, hx, rfl⟩ := List.mem_map.mp hy
      exact hspan x hx
    simp only [areas, zip_pushed, List.length_map, List.pairwise_cons, List.mem_cons]
    refine ⟨?_, fun y hy => ?_, List.pairwise_map.mpr (hp.apart.imp fun hxy => Or.inr hxy)⟩
    · rintro y (rfl | hy)
      · exact Or.inl le_rfl
      · have := hstr y hy
        exact Or.inl (by omega)
    · have := hstr y hy
      exact Or.inl (by omega)

theorem copyTable_spec (h : Image L A M d sz m0 m) (hsz : sz < KERNBASE) (hst : Stack m d sz) (hp : Pushed m d sz sp ps)
    (hmax : ps.length ≤ MAXARG) :
    ∃ b m', (∀ null, copyoutWith null d ((sp + 2 ^ 32 - (3 + ps.length + 1) * 4) % 2 ^ 32)
        ((ustack sp (ps.map Prod.fst)).flatMap wordBytes) m = .ok (b, m')) ∧ Image L A M d sz m0 m' ∧ Keeps A m m' ∧
      (∀ a, a / PGSIZE = sz / PGSIZE - 2 → userByte m' d a = userByte m d a) ∧
      (b = true ↔ sz - PGSIZE + (3 + ps.length + 1) * 4 ≤ sp) ∧
      (b = true → ArgsAt m' d sz ((sp + 2 ^ 32 - (3 + ps.length + 1) * 4) % 2 ^ 32) (ps.map Prod.snd)
        (ps.map Prod.fst) ∧
        ∀ a, a < sz - PGSIZE → userByte m' d a = userByte m d a) := by
  have htwo := hst.two
  have hMAX : MAXARG = 32 := rfl
  have hn : ((ustack sp (ps.map Prod.fst)).flatMap wordBytes).length = (3 + ps.length + 1) * 4 := by
    rw [ustack_length, List.length_map]
  have hlen : (3 + ps.length + 1) * 4 ≤ 2 ^ 31 := by omega
  have hround : roundWord ((3 + ps.length + 1) * 4) = (3 + ps.length + 1) * 4 := by
    simp only [roundWord]
    omega
  have hdiv : (sp + 2 ^ 32 - (3 + ps.length + 1) * 4) % 2 ^ 32 / 4 * 4 =
      (sp + 2 ^ 32 - (3 + ps.length + 1) * 4) % 2 ^ 32 := by
    have := hp.aligned
    omega
  obtain ⟨hiff, hsp, hend⟩ := pushed_sp hsz.le hp.aligned hp.low hp.high htwo (by omega) hlen
  have hrange : Tabled sz ((sp + 2 ^ 32 - (3 + ps.length + 1) * 4) % 2 ^ 32 / 4 * 4) ((3 + ps.length + 1) * 4) := by
    refine tabled_push hsz.le hp.aligned hp.high (by omega) hlen ?_
    simp only [InGap, hround, DEVSPACE]
    omega
  rw [hdiv, hround] at hiff hsp
  rw [hdiv] at hend hrange
  obtain ⟨b, m', he, h', -, hk, -, hb, hbytes, hg⟩ := h.copyout_stack hsz.le hst (by rw [hn]; exact hrange) (by omega)
    (by rw [hn]; exact hend)
  rw [hn, hiff] at hb
  rw [hn] at hbytes
  refine ⟨b, m', he, h', hk, hg, hb, fun hbt => ?_⟩
  obtain ⟨hesp, -⟩ := hsp (hb.mp hbt)
  have hfit := hb.mp hbt
  have hbytes := hbytes hbt
  rw [hesp] at hbytes ⊢
  have hal := hp.aligned
  have hp' : Pushed m' d sz (sp - (3 + ps.length + 1) * 4) ps := by
    refine hp.mono hsz.le (by omega) (by omega) (Nat.sub_le _ _) fun a ha hle => ?_
    rw [hbytes a ha, if_neg (by omega)]
  have hhigh := hp.high
  refine ⟨hp'.argsAt h' hsz htwo hst.aligned (fun x hx => ?_) (by omega) fun k hk => ?_, fun a ha => ?_⟩
  · have := (hp.inside x hx).1
    omega
  · have hargv : (sp + 2 ^ 32 - (ps.length + 1) * 4) % 2 ^ 32 = sp - (3 + ps.length + 1) * 4 + 12 := by
      simp only [KERNBASE] at hsz
      omega
    rw [hbytes _ (by omega), if_pos (by omega), Nat.add_sub_cancel_left, ustack, List.length_map, hargv]
  · rw [hbytes a (by omega), if_neg (by omega)]

theorem Stack.pushed_nil (hst : Stack m d sz) : Pushed m d sz sz [] := by
  refine ⟨?_, Nat.sub_le _ _, le_rfl, by simp, by simp, List.Pairwise.nil⟩
  have := hst.aligned
  simp only [PGSIZE] at this
  omega

theorem copyArgs_spec (h : Image L A M d sz m0 m) (hsz : sz < KERNBASE) (hst : Stack m d sz) (argv : List (List UInt8))
    (hargs : ∀ a ∈ argv, a.length + 1 ≤ 2 ^ 31) (hclear : Clear sz sz 0 argv) :
    ∃ r m', (∀ null, copyArgsWith null d sz argv m = .ok (r, m')) ∧ Image L A M d sz m0 m' ∧ Keeps A m m' ∧
      (∀ a, a / PGSIZE = sz / PGSIZE - 2 → userByte m' d a = userByte m d a) ∧
      (r.isSome = true ↔ argv.length ≤ MAXARG ∧ Fits argv) ∧
      ∀ sz' esp, r = some (sz', esp) → sz' = sz ∧ (∃ ptrs, ArgsAt m' d sz esp argv ptrs) ∧
        ∀ a, a < sz - PGSIZE → userByte m' d a = userByte m d a := by
  have hempty := hst.pushed_nil
  have htwo := hst.two
  obtain ⟨r, m1, he, h1, hst1, hk1, hg1, hr, hsome⟩ := pushArgs_spec hsz.le argv [] sz m h hst hempty hargs hclear
  rw [List.map_nil] at he
  have hnum : (argv = [] ∨ ([] : List (ℕ × List UInt8)).length + argv.length ≤ MAXARG) ↔ argv.length ≤ MAXARG := by
    rw [List.length_nil, Nat.zero_add, or_iff_right_iff_imp]
    rintro rfl
    exact Nat.zero_le _
  rw [hnum] at hr
  cases r with
  | none =>
    refine ⟨none, m1, fun null => ?_, h1, hk1, hg1, iff_of_false (by simp) ?_, by simp⟩
    · simp only [copyArgsWith, he null, Outcome.ok_bind]
    rintro ⟨hmax, hfit⟩
    refine absurd (hr.mpr ⟨hmax, ?_⟩) (by simp)
    simp only [Fits] at hfit
    omega
  | some r =>
    obtain ⟨sp, ptrs⟩ := r
    obtain ⟨ps, rfl, hsnd, hp, hsp, hsame⟩ := hsome sp ptrs rfl
    rw [List.map_nil, List.nil_append] at hsnd
    obtain ⟨hmax, hfit⟩ := hr.mp rfl
    have hlen : ps.length = argv.length := by rw [← hsnd, List.length_map]
    obtain ⟨b, m2, he2, h2, hk2, hg2, hb, hargs2⟩ := copyTable_spec h1 hsz hst1 hp (by omega)
    have hfits : b = true ↔ argv.length ≤ MAXARG ∧ Fits argv := by
      rw [hb, Fits, hlen, hsp]
      omega
    refine ⟨if b then some (sz, (sp + 2 ^ 32 - (3 + ps.length + 1) * 4) % 2 ^ 32) else none, m2, fun null => ?_, h2,
      hk1.trans hk2, fun a ha => (hg2 a ha).trans (hg1 a ha), ?_, fun sz' esp hsome => ?_⟩
    · simp only [copyArgsWith, he null, Outcome.ok_bind, List.length_map, he2]
      cases b <;> rfl
    · rw [← hfits]
      cases b <;> simp
    · cases b with
      | false => cases hsome
      | true =>
        cases hsome
        obtain ⟨hat, hbelow⟩ := hargs2 rfl
        rw [hsnd] at hat
        exact ⟨rfl, ⟨_, hat⟩, fun a ha => (hbelow a ha).trans (hsame a ha)⟩

theorem pushArgs_gap (hsz : sz ≤ KERNBASE) (e : String) (args : List (List UInt8)) (ps : List (ℕ × List UInt8)) (sp : ℕ)
    (m : PhysMem) (h : Image L A M d sz m0 m) (hst : Stack m d sz) (hgap : Gap m d) (hp : Pushed m d sz sp ps)
    (hargs : ∀ a ∈ args, a.length + 1 ≤ 2 ^ 31) (hnot : ¬Clear sz sp ps.length args) :
    pushArgsWith (fun _ => .error e) d args (ps.map Prod.fst) sp m = .error e := by
  induction args generalizing ps sp m with
  | nil => exact absurd (fun i hi => absurd hi (by simp)) hnot
  | cons a args ih =>
    have hmax : ¬MAXARG ≤ ps.length := fun hk => hnot (clear_of_full hk _)
    rw [clear_cons hp.low (Nat.lt_of_not_le hmax), not_and_or, not_not] at hnot
    obtain ⟨sp1, hsp1⟩ : ∃ sp1, sp1 = (sp + 2 ^ 32 - (a.length + 1)) % 2 ^ 32 / 4 * 4 := ⟨_, rfl⟩
    simp only [pushArgsWith, List.length_map, if_neg hmax, ← hsp1]
    by_cases hin : InGap sp (roundWord (a.length + 1))
    · have hentry := gap_push hp.aligned hin
      have hva : sp1 < 2 ^ 32 := by omega
      rw [← hsp1] at hentry
      have htab : ¬HasTable m d (pageOf (sp1 + 0)) := by
        rw [HasTable, pageOf, Nat.add_zero, Nat.mod_eq_of_lt hva]
        exact hgap _ hentry.1 hentry.2
      have hmiss : Missing m d sp1 0 := ⟨fun j hj => absurd hj (by omega), fun hacc => htab hacc.hasTable⟩
      have hpos : 0 < (a ++ [0]).length := by
        rw [List.length_append]
        exact Nat.succ_pos _
      rw [(copyoutWith_missing (h.toBuilding.apart h.kernel) hva hpos hmiss).2 htab e]
      rfl
    · obtain ⟨hfit, hrest⟩ := Classical.not_imp.mp (hnot.resolve_left hin)
      obtain ⟨b, m1, he, h1, hst1, -, hs, -, hb, hpush⟩ := push_turn hsz h hst hp (hargs a List.mem_cons_self) hin hsp1
      obtain rfl := hb.mpr hfit
      obtain ⟨hsp, hp1, -⟩ := hpush rfl
      have hnot1 : ¬Clear sz sp1 (ps ++ [(sp1, a)]).length args := by
        rw [hsp, List.length_append, List.length_singleton]
        exact hrest
      have hrun := ih _ _ m1 h1 hst1 (hgap.of_same (mem_rooted _ rfl) hs) hp1
        (fun x hx => hargs x (List.mem_cons_of_mem a hx)) hnot1
      rw [List.map_append, List.map_singleton] at hrun
      rw [he]
      exact hrun

theorem copyArgs_gap (h : Image L A M d sz m0 m) (hsz : sz ≤ KERNBASE) (hst : Stack m d sz) (hgap : Gap m d)
    {argv : List (List UInt8)} (hargs : ∀ a ∈ argv, a.length + 1 ≤ 2 ^ 31) (hnot : ¬Clear sz sz 0 argv) (e : String) :
    copyArgsWith (fun _ => .error e) d sz argv m = .error e := by
  have hrun := pushArgs_gap hsz e argv [] sz m h hst hgap hst.pushed_nil hargs hnot
  rw [copyArgsWith]
  rw [List.map_nil] at hrun
  rw [hrun]
  rfl

theorem UserEntry.userBit {w : ℕ} (h : UserEntry w) : userBit w := by
  obtain ⟨p, rfl⟩ := h
  rw [show PTE_W ||| PTE_U ||| PTE_P = 7 from rfl]
  simp only [Vm.userBit, PTE_U, PGSIZE]
  omega

theorem clearBit_userBit (w : ℕ) : ¬userBit (clearBit w) := by
  rw [clearBit]
  split_ifs with h
  · simp only [userBit, PTE_U] at *
    omega
  · exact h

theorem Image.stack (h : Image L A M d sz m0 m) {sz1 : ℕ} {m1 m2 : PhysMem}
    (he1 : Vm.allocuvm L m d (PGROUNDUP sz) (PGROUNDUP sz + 2 * PGSIZE) = .ok (sz1, m1)) (hpos : sz1 ≠ 0)
    (he2 : Vm.clearpteu m1 d (sz1 - 2 * PGSIZE) = .ok m2) :
    sz1 = PGROUNDUP sz + 2 * PGSIZE ∧ sz1 < KERNBASE ∧ Image L A M d sz1 m0 m2 ∧ Stack m2 d sz1 ∧ Keeps A m m2 ∧
      ∀ a, a < KERNBASE → userByte m2 d a = userByte m d a := by
  have hup : pages (PGROUNDUP sz) = pages sz ∧ sz ≤ PGROUNDUP sz ∧ PGROUNDUP sz % PGSIZE = 0 := by
    simp only [pages, PGROUNDUP, PGSIZE] at *
    omega
  obtain ⟨hpg, hle, hal⟩ := hup
  obtain ⟨hk1, hbytes1⟩ := h.allocuvm_bytes hpg hle he1
  -- the entries of the two new pages
  rcases allocuvm_spec (mem_rooted (A := A)) (PGROUNDUP sz) (PGROUNDUP sz + 2 * PGSIZE) h.inv with
    ⟨-, x, -, -, -, he⟩ | ⟨hlt, -⟩ | ⟨-, hk, m', he, hI, hc⟩ | ⟨-, he⟩ | ⟨-, m', he, -⟩
  · cases he1.symm.trans he
  · omega
  · cases he1.symm.trans he
    rw [hpg] at hc
    have h1 : Image L A M d (PGROUNDUP sz + 2 * PGSIZE) m0 m1 := h.grow hI hc (by omega) hk.le
    have hnum : pages sz = PGROUNDUP sz / PGSIZE ∧ pages (PGROUNDUP sz + 2 * PGSIZE) = PGROUNDUP sz / PGSIZE + 2 ∧
        (PGROUNDUP sz + 2 * PGSIZE) / PGSIZE = PGROUNDUP sz / PGSIZE + 2 ∧
        (PGROUNDUP sz + 2 * PGSIZE - 2 * PGSIZE) / PGSIZE = PGROUNDUP sz / PGSIZE ∧
            PGROUNDUP sz / PGSIZE + 2 < 2 ^ 20 := by
      simp only [pages, PGROUNDUP, PGSIZE, KERNBASE] at *
      omega
    obtain ⟨hn1, hn2, hn3, hn4, hn5⟩ := hnum
    have hguard : (PGROUNDUP sz + 2 * PGSIZE - 2 * PGSIZE) / PGSIZE < pages (PGROUNDUP sz + 2 * PGSIZE) := by omega
    obtain ⟨m', he', h2⟩ := h1.clearpteu hk.le hguard
    cases he2.symm.trans he'
    obtain ⟨hk2, hbytes2, -, hent⟩ := h1.clearpteu_entries hk.le hguard he2
    refine ⟨rfl, hk, h2, ⟨by simp only [PGSIZE] at hal ⊢; omega, by omega, ?_, ?_⟩, hk1.trans hk2, fun a ha => ?_⟩
    · rw [hn3, hent _ (by omega), if_pos (by omega)]
      exact clearBit_userBit _
    · rw [hn3, hent _ (by omega), if_neg (by omega)]
      exact (hc.inside _ (by omega) (by omega)).userBit
    · rw [hbytes2, hbytes1 hpos a ha]
  · cases he1.symm.trans he
    exact absurd rfl hpos
  · cases he1.symm.trans he
    exact absurd rfl hpos

theorem buildStack_spec (h : Image L A M d sz m0 m) (argv : List (List UInt8))
    (hargs : ∀ a ∈ argv, a.length + 1 ≤ 2 ^ 25) :
    ∃ r m', (∀ cur, buildStack L cur d sz argv m = .ok (r, m')) ∧ Building L A M d m0 m' ∧ Keeps A m m' ∧
      (∀ sz1 m1, Vm.allocuvm L m d (PGROUNDUP sz) (PGROUNDUP sz + 2 * PGSIZE) = .ok (sz1, m1) → sz1 ≠ 0 →
        (r.isSome = true ↔ argv.length ≤ MAXARG ∧ Fits argv) ∧
        ∀ a, PGROUNDUP sz ≤ a → a < PGROUNDUP sz + PGSIZE → userByte m' d a = userByte m d a) ∧
      ∀ sz' esp, r = some (sz', esp) → sz' = PGROUNDUP sz + 2 * PGSIZE ∧ sz' < KERNBASE ∧ Image L A M d sz' m0 m' ∧
        (∃ ptrs, ArgsAt m' d sz' esp argv ptrs) ∧ ∀ a, a < PGROUNDUP sz + PGSIZE →
          userByte m' d a = userByte m d a := by
  have hup : pages (PGROUNDUP sz) = pages sz ∧ sz ≤ PGROUNDUP sz ∧ PGROUNDUP sz % PGSIZE = 0 := by
    simp only [pages, PGROUNDUP, PGSIZE] at *
    omega
  obtain ⟨hpg, hle, hal⟩ := hup
  simp only [buildStack]
  rcases h.allocuvm (PGROUNDUP sz) (PGROUNDUP sz + 2 * PGSIZE) hpg hle with ⟨m1, he1, hb⟩ | ⟨m1, he1, hk, h₁⟩
  · refine ⟨none, m1,
        fun cur => by rw [he1]; rfl, hb, (h.allocuvm_bytes hpg hle he1).1, fun sz1 m2 he hpos => ?_, by simp⟩
    cases he1.symm.trans he
    exact absurd rfl hpos
  · rw [max_eq_right (by omega)] at he1 h₁
    have hpos : PGROUNDUP sz + 2 * PGSIZE ≠ 0 := by
      simp only [PGSIZE]
      omega
    have hguard : (PGROUNDUP sz + 2 * PGSIZE - 2 * PGSIZE) / PGSIZE < pages (PGROUNDUP sz + 2 * PGSIZE) := by
      rw [lt_pages]
      simp only [PGSIZE]
      omega
    obtain ⟨m2, he2, -⟩ := h₁.clearpteu hk.le hguard
    obtain ⟨-, -, h₂, hst, hk2, hbytes⟩ := h.stack he1 hpos he2
    obtain ⟨r, m3, he3, h3, hk3, hg, hr, hsome⟩ := copyArgs_spec h₂ hk hst argv
      (fun a ha => (hargs a ha).trans (by decide)) (clear_of_short hargs _ _ _)
    have hpage : ∀ a, PGROUNDUP sz ≤ a → a < PGROUNDUP sz + PGSIZE → a / PGSIZE =
        (PGROUNDUP sz + 2 * PGSIZE) / PGSIZE - 2 := by
      simp only [PGSIZE] at *
      omega
    refine ⟨r, m3, fun cur => ?_, h3.toBuilding, hk2.trans hk3, fun sz1 m' he _ => ?_, fun sz' esp hr' => ?_⟩
    · rw [he1]
      simp only [Outcome.ok_bind, if_neg hpos, he2, he3]
    · cases he1.symm.trans he
      refine ⟨hr, fun a h1 h2 => ?_⟩
      rw [hg a (hpage a h1 h2), hbytes a (by omega)]
    · obtain ⟨rfl, hargs', hbelow⟩ := hsome sz' esp hr'
      refine ⟨rfl, hk, h3, hargs', fun a ha => ?_⟩
      rw [hbelow a (by omega), hbytes a (by omega)]

theorem execBad_spec (h : Building L A M d m0 m) (hk : Keeps A m0 m) :
    ∃ m', execBad L m d = .ok (none, m') ∧ Inv L A M m' ∧ Same A m0 m' ∧ Keeps A m0 m' := by
  obtain ⟨m', he, hI, hs⟩ := freevm_spec mem_rooted h.inv
  rw [without_rooted h.root] at hI hs
  refine ⟨m', ?_, hI, h.same.trans hs, hk.trans (freevm_new_keeps h.inv h.root he)⟩
  simp only [execBad, he, Outcome.ok_bind]

theorem exec_spec {p : Proc} (hI : Inv L A M m) (hp : Spans A p.pgdir) (file : Option Inode)
    {argv : List (List UInt8)} (hargs : ∀ ip ∈ file, Loads L m ip → ∀ a ∈ argv, a.length + 1 ≤ 2 ^ 25) :
    (∃ m', exec L m p file argv = .ok (none, m') ∧ Inv L A M m' ∧ Same A m m' ∧ Keeps A m m') ∨
    ∃ q m', exec L m p file argv = .ok (some q, m') ∧ Avoids A q.pgdir ∧
      Inv L (without (A ∪ rooted q.pgdir) p.pgdir) M m' ∧ Same (without A p.pgdir) m m' ∧ Mapped m' q ∧
      q.kstack = p.kstack := by
  cases file with
  | none => exact Or.inl ⟨m, rfl, hI, Same.refl A m, Keeps.refl A m⟩
  | some ip =>
    -- without a loaded image the arguments are not looked at
    wlog hshort : ∀ a ∈ argv, a.length + 1 ≤ 2 ^ 25 generalizing argv
    · rw [exec_unloaded (fun hload => hshort (hargs ip rfl hload)) p argv]
      exact this (by simp) (by simp)
    simp only [exec]
    cases hr : readAll ip 0 sizeofElfhdr with
    | none => exact Or.inl ⟨m, rfl, hI, Same.refl A m, Keeps.refl A m⟩
    | some bs =>
      simp only
      by_cases hmagic : (elfhdr bs).magic ≠ ELF_MAGIC
      · rw [if_pos hmagic]
        exact Or.inl ⟨m, rfl, hI, Same.refl A m, Keeps.refl A m⟩
      rw [if_neg hmagic]
      rcases setupkvm_spec hI with ⟨m1, he1, hI1, hs1, -⟩ | ⟨d, m1, he1, hroot, hI1, hs1, htab, huser, -⟩
      · simp only [he1, Outcome.ok_bind]
        exact Or.inl ⟨m1, rfl, hI1, hs1, (setupkvm_contents hI he1).1⟩
      simp only [he1, Outcome.ok_bind]
      have h1 : Image L A M d 0 m m1 := .start hI1 hroot hs1 htab huser
      have hk1 := (setupkvm_contents hI he1).1
      rcases h1.loadSegments ip (elfhdr bs).phnum (elfhdr bs).phoff 0 m1 (by decide) with
        ⟨m2, he2, hb⟩ | ⟨sz, m2, he2, hsz, h2⟩
      · simp only [he2, Outcome.ok_bind]
        exact Or.inl (execBad_spec hb (hk1.trans (h1.loadSegments_keeps ip _ _ 0 m1 (by decide) he2)))
      simp only [he2, Outcome.ok_bind]
      obtain ⟨built, m3, he3, hb, hk3, -, hsome⟩ := buildStack_spec h2 argv hshort
      simp only [he3, Outcome.ok_bind]
      obtain _ | ⟨sz', sp⟩ := built
      · exact Or.inl (execBad_spec hb ((hk1.trans (h1.loadSegments_keeps ip _ _ 0 m1 (by decide) he2)).trans hk3))
      obtain ⟨hsz', hlt, h3, -⟩ := hsome sz' sp rfl
      have hpos : 0 < sz' := by
        rw [hsz']
        exact Nat.add_pos_right _ (by decide)
      obtain ⟨m4, he4, hI4, hs4⟩ := freevm_spec (fun r hr => Or.inl (hp r hr) : Spans (A ∪ rooted d) p.pgdir) h3.inv
      simp only [he4, Outcome.ok_bind]
      have hne : d ≠ p.pgdir := fun he => hroot (.dir d) rfl (hp _ he)
      have hsub : without A p.pgdir ⊆ without (A ∪ rooted d) p.pgdir := fun r hr => ⟨Or.inl hr.1, hr.2⟩
      refine Or.inr ⟨_, m4, rfl, hroot, hI4, (h3.same.mono (without_subset A _)).trans (hs4.mono hsub), ⟨hpos, hlt, ?_⟩,
          rfl⟩
      intro v hv
      rw [hs4.entries d v ⟨mem_rooted _ rfl, hne⟩ (lt_of_lt_userPages hv)]
      exact h3.mapped v hv

end

end Xv6.Vm
