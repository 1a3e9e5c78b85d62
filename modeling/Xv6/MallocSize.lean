import Xv6.ProcMemory
import Xv6.UserHeap

/-!
`malloc` with the sizes as the machine has them: a request is rounded in 32 bits, and what `morecore` asks of `sbrk`
arrives in the kernel as an `int`.
-/

namespace Xv6.Umalloc

open Extent

def asInt (x : ℕ) : ℤ := if x % 2 ^ 32 < 2 ^ 31 then (x % 2 ^ 32 : ℕ) else (x % 2 ^ 32 : ℕ) - 2 ^ 32

def growprocSize (fails : Bool) (sz : ℕ) (n : ℤ) : Option ℕ × ℕ :=
  let newsz := ((sz + n) % 2 ^ 32).toNat
  if 0 < n then
    if 2 ^ 31 ≤ newsz then (none, sz)
    else if newsz < sz then (some sz, sz)
    else if fails then (none, sz)
    else (some newsz, newsz)
  else if n < 0 then
    if sz ≤ newsz then (if sz = 0 then none else some sz, sz)
    -- the new size 0 is taken for an error
    else (if newsz = 0 then none else some newsz, newsz)
  else (some sz, sz)

def cut (e : ℕ) (core : List Extent) : List Extent := core.map fun b => ⟨b.start, min b.size (e - b.start)⟩

def sbrkResult (h : Heap) (brk : ℕ) (r : Option ℕ × ℕ) : Option ℕ × Heap :=
  let last := r.2 / sizeofHeader
  let core := if last < brk then cut last h.core else h.core
  match r.1 with
  | none => (none, { h with brk := min h.brk last, calls := h.calls + 1, core := core })
  | some _ => (some brk, { h with brk := last, calls := h.calls + 1, core := ⟨brk, last - brk⟩ :: core })

def sysSbrk (os : ℕ → Option ℕ) (h : Heap) (nu : ℕ) : Option ℕ × Heap :=
  let brk := min top (h.brk + (os h.calls).getD 0)
  sbrkResult h brk (growprocSize (os h.calls).isNone (sizeofHeader * brk) (asInt (nu * sizeofHeader)))

def morecore32 (os : ℕ → Option ℕ) (fuel : ℕ) (h : Heap) (nu : ℕ) : Option (Heap × ℕ) :=
  let nu := if nu < 4096 then 4096 else nu
  match sysSbrk os h nu with
  | (none, h) => some (h, 0)
  | (some hp, h) => (free fuel { h with mem := setSize h.mem hp nu } (hp + 1)).map fun h => (h, h.freep)

def malloc32 (os : ℕ → Option ℕ) (fuel : ℕ) (h : Heap) (nbytes : ℕ) : Option (Heap × ℕ) :=
  let h := ready h
  mallocLoop (morecore32 os) fuel h (nunits nbytes) h.freep (h.mem h.freep).ptr

section Kernel

open Vm

theorem KERNBASE_eq : KERNBASE = 2 ^ 31 := rfl

theorem allocLoop_size {L : Vm.Layout} {pgdir oldsz newsz a : ℕ} {m : PhysMem} {r : ℕ × PhysMem}
    (h : allocLoop L pgdir oldsz newsz a m = .ok r) : r.1 = 0 ∨ r.1 = newsz := by
  fun_induction allocLoop L pgdir oldsz newsz a m with
  | case1 a m hlt m' hk =>
    obtain ⟨_, -, he⟩ := Outcome.bind_eq_ok.mp h
    cases he
    exact .inl rfl
  | case2 a m hlt mem m' hk m1 ih =>
    obtain ⟨⟨mapped, m2⟩, -, he⟩ := Outcome.bind_eq_ok.mp h
    simp only at he
    split at he
    · exact ih _ he
    · obtain ⟨_, -, he⟩ := Outcome.bind_eq_ok.mp he
      obtain ⟨_, -, he⟩ := Outcome.bind_eq_ok.mp he
      cases he
      exact .inl rfl
  | case3 a m hlt =>
    cases h
    exact .inr rfl

theorem growproc_size {L : Vm.Layout} {m m' : PhysMem} {p : Proc} {n : Int32} {r : Option Proc}
    (h : growproc L m p n = .ok (r, m')) : ∃ fails, r.map Proc.sz = (growprocSize fails p.sz n.toInt).1 := by
  have hlt := n.toInt_lt
  simp only [growproc] at h
  simp only [growprocSize]
  split_ifs at h with hpos hneg
  · obtain ⟨⟨sz, m1⟩, ha, he⟩ := Outcome.bind_eq_ok.mp h
    simp only [if_pos hpos]
    rw [allocuvm] at ha
    split_ifs at ha with hk hold
    all_goals rw [KERNBASE_eq] at hk
    · cases ha
      cases he
      exact ⟨false, by rw [if_pos hk]; rfl⟩
    · cases ha
      simp only [if_neg hk, if_pos hold]
      split_ifs at he with hz
      · omega
      · cases he
        exact ⟨false, rfl⟩
    · simp only [if_neg hk, if_neg hold]
      split_ifs at he with hz
      · cases he
        exact ⟨true, rfl⟩
      · cases he
        rcases allocLoop_size ha with hs | hs
        · exact absurd hs hz
        · exact ⟨false, congrArg some hs⟩
  · obtain ⟨⟨sz, m1⟩, ha, he⟩ := Outcome.bind_eq_ok.mp h
    simp only [if_neg hpos, if_pos hneg]
    simp only [deallocuvm] at ha
    refine ⟨false, ?_⟩
    split_ifs at ha with hold
    · cases ha
      rw [if_pos hold]
      split_ifs at he ⊢ with hz <;> cases he <;> rfl
    · obtain ⟨_, -, ha⟩ := Outcome.bind_eq_ok.mp ha
      cases ha
      rw [if_neg hold]
      split_ifs at he ⊢ with hz <;> cases he <;> rfl
  · cases h
    exact ⟨false, by rw [if_neg hpos, if_neg hneg]; rfl⟩

end Kernel

variable {os : ℕ → Option ℕ} {h : Heap} {fr lv : List Extent} {fuel fuel' n nu nbytes : ℕ} {s : Client} {r : Heap × ℕ}

theorem growprocSize_pos (fails : Bool) {sz n : ℕ} (hn : 0 < n) (hlt : n < 2 ^ 31) (hsz : sz ≤ 2 ^ 31) :
    growprocSize fails sz n = if 2 ^ 31 ≤ sz + n ∨ fails = true then (none, sz) else (some (sz + n), sz + n) := by
  have hnew : (((sz : ℤ) + (n : ℤ)) % 2 ^ 32).toNat = sz + n := by omega
  simp only [growprocSize, hnew, if_pos (by omega : (0 : ℤ) < n), if_neg (by omega : ¬ sz + n < sz)]
  by_cases hk : 2 ^ 31 ≤ sz + n
  · rw [if_pos hk, if_pos (.inl hk)]
  · rw [if_neg hk]
    cases fails
    · rw [if_neg (by decide), if_neg (by simpa using hk)]
    · rw [if_pos rfl, if_pos (.inr rfl)]

theorem sbrkResult_none {brk : ℕ} (hle : h.brk ≤ brk) :
    sbrkResult h brk (none, sizeofHeader * brk) = (none, { h with calls := h.calls + 1 }) := by
  have hlast : sizeofHeader * brk / sizeofHeader = brk := Nat.mul_div_cancel_left brk (by decide)
  simp only [sbrkResult, hlast, lt_irrefl, if_false, min_eq_left hle]

theorem sbrkResult_some (nu : ℕ) {brk x : ℕ} (hx : x = sizeofHeader * (brk + nu)) :
    sbrkResult h brk (some x, x) =
      (some brk, { h with brk := brk + nu, calls := h.calls + 1, core := ⟨brk, nu⟩ :: h.core }) := by
  have hlast : x / sizeofHeader = brk + nu := by rw [hx, Nat.mul_div_cancel_left _ (by decide)]
  simp only [sbrkResult, hlast, if_neg (by omega : ¬ brk + nu < brk), Nat.add_sub_cancel_left]

theorem sysSbrk_eq (os : ℕ → Option ℕ) (hnu : 0 < nu) (hfit : nu * sizeofHeader < 2 ^ 31) (hbrk : h.brk ≤ top) :
    ∃ os', sysSbrk os h nu = sbrk os' h nu := by
  have h8 : sizeofHeader = 8 := rfl
  have htop : top = 2 ^ 28 := rfl
  have hint : asInt (nu * sizeofHeader) = (nu * sizeofHeader : ℕ) := by
    rw [asInt, Nat.mod_eq_of_lt (by omega), if_pos hfit]
  rw [sysSbrk, hint]
  generalize hb : min top (h.brk + (os h.calls).getD 0) = brk
  have hle : h.brk ≤ brk ∧ brk ≤ top := by omega
  rw [growprocSize_pos _ (Nat.mul_pos hnu (by decide)) hfit (by rw [h8]; omega)]
  by_cases hfail : 2 ^ 31 ≤ sizeofHeader * brk + nu * sizeofHeader ∨ (os h.calls).isNone = true
  · -- no memory: `sbrk` returns -1
    exact ⟨fun _ => none, by rw [if_pos hfail, sbrkResult_none hle.1]; rfl⟩
  · rw [if_neg hfail, sbrkResult_some nu (by ring)]
    rw [not_or] at hfail
    cases hos : os h.calls with
    | none => simp [hos] at hfail
    | some gap =>
      rw [hos, Option.getD_some] at hb
      rw [h8] at hfail
      have hbe : brk = h.brk + gap := by omega
      refine ⟨os, ?_⟩
      rw [sbrk, hos, hbe]
      simp only
      rw [if_pos (by omega)]

theorem morecore32_mono (hm : morecore32 os fuel h n = some r) (hle : fuel ≤ fuel') : morecore32 os fuel' h n =
    some r := by
  rw [morecore32] at hm ⊢
  rcases hs : sysSbrk os h (if n < 4096 then 4096 else n) with ⟨_ | hp, h1⟩
  · rw [hs] at hm
    exact hm
  · rw [hs] at hm
    obtain ⟨h2, hf, he⟩ := Option.map_eq_some_iff.mp hm
    exact Option.map_eq_some_iff.mpr ⟨h2, free_mono hf hle, he⟩

theorem malloc32_mono (hm : malloc32 os fuel h nbytes = some r) (hle : fuel ≤ fuel') : malloc32 os fuel' h nbytes =
    some r :=
  mallocLoop_mono morecore32_mono hm hle

def coreUnits (nbytes : ℕ) : ℕ := if nunits nbytes < 4096 then 4096 else nunits nbytes

structure Served (os : ℕ → Option ℕ) (s : Client) (nbytes : ℕ) : Prop where
  returns : ∃ fuel r, malloc32 os fuel s.heap nbytes = some r
  block : ∀ fuel h' p, malloc32 os fuel s.heap nbytes = some (h', p) → p ≠ 0 →
    nbytes ≤ sizeofHeader * ((h'.mem (p - 1)).size - 1) ∧
      ∀ u, (⟨p - 1, (h'.mem (p - 1)).size⟩ : Extent).Covers u → ∃ b ∈ h'.core, b.Covers u
  core : ∀ x h', sysSbrk os (ready s.heap) (coreUnits nbytes) = (x, h') →
    s.heap.brk ≤ h'.brk ∧ ∀ hp, x = some hp → hp + coreUnits nbytes ≤ h'.brk

theorem fits_iff : Fits nbytes ↔ nbytes ≤ 2 ^ 31 - 16 := by
  simp only [Fits, sizeofHeader]
  omega

theorem coreUnits_fit (hf : Fits nbytes) : 0 < coreUnits nbytes ∧ coreUnits nbytes * sizeofHeader < 2 ^ 31 := by
  have hlt : nunits nbytes < 2 ^ 28 := by
    simp only [Fits, sizeofHeader] at hf
    simp only [nunits, sizeofHeader]
    omega
  have hpos := nunits_pos nbytes
  rw [coreUnits, show sizeofHeader = 8 from rfl]
  split
  · decide
  · omega

theorem Layout.morecore32_eq (hl : Layout h fr lv) (os : ℕ → Option ℕ) (hf : Fits nbytes) :
    ∃ k r, (∀ j, k ≤ j → morecore32 os j h (nunits nbytes) = some r) ∧
      (r = ({ h with calls := h.calls + 1 }, 0) ∨
        ∃ fr', Layout r.1 fr' lv ∧ r.2 = r.1.freep ∧ ∃ c ∈ fr', nunits nbytes ≤ c.size) := by
  obtain ⟨hpos, hlt⟩ := coreUnits_fit hf
  obtain ⟨os', hos⟩ := sysSbrk_eq os hpos hlt hl.high
  obtain ⟨k, r, hm, hr⟩ := hl.morecore_eq os' (nunits nbytes)
  refine ⟨k, r, fun j hj => ?_, hr⟩
  have hm := morecore_mono hm hj
  rw [morecore, ← coreUnits, ← hos] at hm
  exact hm

theorem ready_brk (h : Heap) : (ready h).brk = h.brk := by
  rw [ready]
  split <;> rfl

theorem Inv.served (hi : Inv s) (os : ℕ → Option ℕ) (hf : Fits nbytes) : Served os s nbytes := by
  obtain ⟨fr, hl⟩ := hi.heap
  obtain ⟨k, r, hmore, hr⟩ := hl.morecore32_eq os hf
  obtain ⟨k', r', hm, hr'⟩ := hl.mallocLoop_eq (nunits_pos nbytes) hmore hr
  have hm : malloc32 os k' s.heap nbytes = some r' := hm
  refine ⟨⟨k', r', hm⟩, fun fuel h' p hm' hp => ?_, fun x h' hs => ?_⟩
  · have he := malloc32_mono hm' (Nat.le_max_left fuel k')
    rw [malloc32_mono hm (Nat.le_max_right fuel k')] at he
    cases he
    rcases hr' with he | ⟨fr', b, hl', hb, hsz⟩
    · exact absurd (congrArg Prod.snd he) hp
    · simp only at hl' hb
      have hhead : (h'.mem (p - 1)).size = b.size := by
        rw [hb, Nat.add_sub_cancel]
        exact hl'.liveSizes b List.mem_cons_self
      refine ⟨by rw [hhead, hsz]; exact nunits_eq hf, fun u hu => ?_⟩
      rw [hhead, hb, Nat.add_sub_cancel] at hu
      rw [← cover_pos, ← hl'.parts u]
      have : 0 < cover (b :: s.live.map liveBlock) u := cover_pos.mpr ⟨b, List.mem_cons_self, hu⟩
      omega
  · obtain ⟨hpos, hlt⟩ := coreUnits_fit hf
    obtain ⟨os', hos⟩ := sysSbrk_eq os hpos hlt hl.high
    rw [hos, sbrk] at hs
    rw [← ready_brk s.heap]
    split at hs
    · cases hs
      exact ⟨le_rfl, fun hp h => absurd h (by simp)⟩
    · split_ifs at hs
      · cases hs
        refine ⟨by simp only; omega, fun hp h => ?_⟩
        cases h
        exact le_rfl
      · cases hs
        exact ⟨le_rfl, fun hp h => absurd h (by simp)⟩

def firstCall : Client := fresh (fun _ => ⟨0, 0⟩) 1 2

theorem not_served_wrapped (hw : 2 ^ 32 - 7 ≤ nbytes) (hn : nbytes < 2 ^ 32) :
    ¬ Served (fun _ => some 0) firstCall nbytes := by
  intro h
  have hone : nunits nbytes = 1 := by
    simp only [nunits, sizeofHeader]
    omega
  have hrun : (mallocLoop (morecore32 fun _ => some 0) 3 (ready firstCall.heap) 1 1 1).map
      (fun r => decide (r.2 ≠ 0 ∧ (r.1.mem (r.2 - 1)).size = 1)) = some true := by
    decide +kernel
  obtain ⟨⟨h', p⟩, hm, hd⟩ := Option.map_eq_some_iff.mp hrun
  obtain ⟨hp, hsz⟩ := of_decide_eq_true hd
  have hm : malloc32 (fun _ => some 0) 3 firstCall.heap nbytes = some (h', p) := by
    rw [malloc32, hone]
    exact hm
  have hroom := (h.block 3 h' p hm hp).1
  rw [hsz] at hroom
  simp only [Nat.sub_self, Nat.mul_zero] at hroom
  omega

theorem growprocSize_neg {sz : ℕ} {n : ℤ} (hn : n ≤ 0) (hsz : 0 < sz) :
    (growprocSize false sz n).2 < sz ∨ growprocSize false sz n = (some sz, sz) := by
  simp only [growprocSize]
  rw [if_neg (by omega)]
  split_ifs with h1 h2 h3
  · omega
  · exact .inr rfl
  · exact .inl (Nat.lt_of_not_le h2)
  · exact .inl (Nat.lt_of_not_le h2)
  · exact .inr rfl

theorem sbrkResult_brk_le (h : Heap) (brk : ℕ) (r : Option ℕ × ℕ) : (sbrkResult h brk r).2.brk ≤
    r.2 / sizeofHeader := by
  rw [sbrkResult]
  cases r.1 with
  | none => exact min_le_right ..
  | some _ => exact le_rfl

theorem not_served_negative (hf : ¬ Fits nbytes) (hw : nbytes < 2 ^ 32 - 7) :
    ¬ Served (fun _ => some 0) firstCall nbytes := by
  intro h
  have hnu : 2 ^ 28 ≤ nunits nbytes ∧ nunits nbytes ≤ 2 ^ 29 := by
    simp only [Fits, sizeofHeader] at hf
    simp only [nunits, sizeofHeader]
    omega
  have hc : coreUnits nbytes = nunits nbytes := if_neg (by omega)
  have hint : asInt (nunits nbytes * sizeofHeader) ≤ 0 := by
    rw [asInt, show sizeofHeader = 8 from rfl]
    split_ifs <;> omega
  obtain ⟨hbrk, hrec⟩ := h.core _ _ (Prod.mk.eta (p := sysSbrk (fun _ => some 0) (ready firstCall.heap) _)).symm
  have hs : sysSbrk (fun _ => some 0) (ready firstCall.heap) (coreUnits nbytes) =
      sbrkResult (ready firstCall.heap) 2 (growprocSize false 16 (asInt (nunits nbytes * sizeofHeader))) := by
    rw [hc]
    rfl
  rw [hs] at hbrk hrec
  generalize asInt (nunits nbytes * sizeofHeader) = n at *
  have hle := sbrkResult_brk_le (ready firstCall.heap) 2 (growprocSize false 16 n)
  have h2 : firstCall.heap.brk = 2 := rfl
  rcases growprocSize_neg hint (by decide : 0 < 16) with hg | hg
  · rw [show sizeofHeader = 8 from rfl] at hle
    omega
  · rw [hg] at hrec hle
    have := hrec 2 rfl
    rw [show (16 : ℕ) / sizeofHeader = 2 from rfl] at hle
    omega

theorem not_served (hn : nbytes < 2 ^ 32) (hf : ¬ Fits nbytes) : ¬ Served (fun _ => some 0) firstCall nbytes := by
  rcases Nat.lt_or_ge nbytes (2 ^ 32 - 7) with hw | hw
  · exact not_served_negative hf hw
  · exact not_served_wrapped hw hn

/-- `malloc` serves a request in every state of the heap exactly when its rounded size is a positive `int`. -/
theorem malloc_served_iff (hn : nbytes < 2 ^ 32) :
    (∀ os s, Inv s → Served os s nbytes) ↔ nbytes ≤ 2 ^ 31 - 16 := by
  rw [← fits_iff]
  refine ⟨fun h => ?_, fun hf os s hi => hi.served os hf⟩
  by_contra hf
  exact not_served hn hf (h _ _ (inv_fresh (by decide) (by decide) (by decide)))

theorem malloc_served_iff_page : 4096 < 2 ^ 32 ∧ ((∀ os s, Inv s → Served os s 4096) ↔ 4096 ≤ 2 ^ 31 - 16) :=
  ⟨by decide, malloc_served_iff (by decide)⟩

/-- A request for all but one of the bytes that a 32-bit number can count gets a block of none. -/
theorem malloc_underallocates : ¬ ∀ nbytes < 2 ^ 32, ∀ os s, Inv s → Served os s nbytes := by
  intro h
  have hserved : Served (fun _ => some 0) firstCall (2 ^ 32 - 1) :=
    h _ (by decide) _ _ (inv_fresh (by decide) (by decide) (by decide))
  exact not_served_wrapped (by decide) (by decide) hserved

end Xv6.Umalloc
