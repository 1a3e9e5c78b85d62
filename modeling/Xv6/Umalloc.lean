import Xv6.Extent
import Xv6.PointerCycle

/-!
The user-level allocator: `free`, `morecore` and `malloc` over a memory of headers. An address counts units of
`sizeof(Header)`, so that a pointer to a `Header` moves by one; the null pointer is 0.
-/

namespace Xv6.Umalloc

open PointerCycle (search Place)

def sizeofHeader : ℕ := 8

def top : ℕ := 2 ^ 31 / sizeofHeader

structure Header where
  ptr : ℕ
  size : ℕ
  deriving DecidableEq, Repr

structure Heap where
  mem : ℕ → Header
  base : ℕ
  freep : ℕ
  brk : ℕ
  calls : ℕ
  core : List Extent

def ptr (mem : ℕ → Header) (p : ℕ) : ℕ := (mem p).ptr

def setPtr (mem : ℕ → Header) (p q : ℕ) : ℕ → Header := Function.update mem p ⟨q, (mem p).size⟩

def setSize (mem : ℕ → Header) (p n : ℕ) : ℕ → Header := Function.update mem p ⟨(mem p).ptr, n⟩

def plus (p n : ℕ) : ℕ := (p + n) % (2 ^ 32 / sizeofHeader)

def joinUp (mem : ℕ → Header) (bp p : ℕ) : ℕ → Header :=
  if plus bp (mem bp).size = (mem p).ptr then
    let mem' := setSize mem bp (((mem bp).size + (mem (mem p).ptr).size) % 2 ^ 32)
    setPtr mem' bp (mem' (mem' p).ptr).ptr
  else setPtr mem bp (mem p).ptr

def joinDown (mem : ℕ → Header) (bp p : ℕ) : ℕ → Header :=
  if plus p (mem p).size = bp then
    let mem' := setSize mem p (((mem p).size + (mem bp).size) % 2 ^ 32)
    setPtr mem' p (mem' bp).ptr
  else setPtr mem p bp

def free (fuel : ℕ) (h : Heap) (ap : ℕ) : Option Heap :=
  let bp := ap - 1
  (search (fun p => decide (Place (ptr h.mem) bp p)) (ptr h.mem) fuel h.freep).map fun p =>
    { h with mem := joinDown (joinUp h.mem bp p) bp p, freep := p }

def sbrk (os : ℕ → Option ℕ) (h : Heap) (nu : ℕ) : Option ℕ × Heap :=
  match os h.calls with
  | none => (none, { h with calls := h.calls + 1 })
  | some gap =>
    if h.brk + gap + nu ≤ top then
      (some (h.brk + gap),
        { h with brk := h.brk + gap + nu, calls := h.calls + 1, core := ⟨h.brk + gap, nu⟩ :: h.core })
    else (none, { h with calls := h.calls + 1 })

def morecore (os : ℕ → Option ℕ) (fuel : ℕ) (h : Heap) (nu : ℕ) : Option (Heap × ℕ) :=
  let nu := if nu < 4096 then 4096 else nu
  match sbrk os h nu with
  | (none, h) => some (h, 0)
  | (some hp, h) => (free fuel { h with mem := setSize h.mem hp nu } (hp + 1)).map fun h => (h, h.freep)

def nunits (nbytes : ℕ) : ℕ := (nbytes + sizeofHeader - 1) % 2 ^ 32 / sizeofHeader + 1

def carve (h : Heap) (n prevp p : ℕ) : Heap × ℕ :=
  if (h.mem p).size = n then ({ h with mem := setPtr h.mem prevp (h.mem p).ptr, freep := prevp }, p + 1)
  else
    let mem := setSize h.mem p ((h.mem p).size - n)
    let q := plus p (mem p).size
    ({ h with mem := setSize mem q n, freep := prevp }, q + 1)

def mallocLoop (more : ℕ → Heap → ℕ → Option (Heap × ℕ)) : ℕ → Heap → ℕ → ℕ → ℕ → Option (Heap × ℕ)
  | 0, _, _, _, _ => none
  | fuel + 1, h, n, prevp, p =>
    if n ≤ (h.mem p).size then some (carve h n prevp p)
    else if p = h.freep then
      (more fuel h n).bind fun r =>
        if r.2 = 0 then some (r.1, 0) else mallocLoop more fuel r.1 n r.2 (r.1.mem r.2).ptr
    else mallocLoop more fuel h n p (h.mem p).ptr

def ready (h : Heap) : Heap :=
  if h.freep = 0 then { h with mem := Function.update h.mem h.base ⟨h.base, 0⟩, freep := h.base } else h

def malloc (os : ℕ → Option ℕ) (fuel : ℕ) (h : Heap) (nbytes : ℕ) : Option (Heap × ℕ) :=
  let h := ready h
  mallocLoop (morecore os) fuel h (nunits nbytes) h.freep (h.mem h.freep).ptr

variable {os : ℕ → Option ℕ} {h h' : Heap} {fuel fuel' ap n prevp p : ℕ} {r : Heap × ℕ}

theorem free_mono (hf : free fuel h ap = some h') (hle : fuel ≤ fuel') : free fuel' h ap = some h' := by
  rw [free] at hf
  obtain ⟨p, hp, he⟩ := Option.map_eq_some_iff.mp hf
  rw [free]
  exact Option.map_eq_some_iff.mpr ⟨p, PointerCycle.search_mono hp hle, he⟩

theorem morecore_mono (hm : morecore os fuel h n = some r) (hle : fuel ≤ fuel') :
    morecore os fuel' h n = some r := by
  rw [morecore] at hm ⊢
  rcases hs : sbrk os h (if n < 4096 then 4096 else n) with ⟨_ | hp, h1⟩
  · rw [hs] at hm
    exact hm
  · rw [hs] at hm
    obtain ⟨h2, hf, he⟩ := Option.map_eq_some_iff.mp hm
    exact Option.map_eq_some_iff.mpr ⟨h2, free_mono hf hle, he⟩

theorem mallocLoop_mono {more : ℕ → Heap → ℕ → Option (Heap × ℕ)}
    (hmore : ∀ {k k' h n r}, more k h n = some r → k ≤ k' → more k' h n = some r)
    (hl : mallocLoop more fuel h n prevp p = some r) (hle : fuel ≤ fuel') :
    mallocLoop more fuel' h n prevp p = some r := by
  induction fuel generalizing fuel' h prevp p with
  | zero => cases hl
  | succ fuel ih =>
    obtain ⟨k, rfl⟩ := Nat.exists_eq_add_of_le hle
    have hk : fuel ≤ fuel + k := Nat.le_add_right fuel k
    rw [Nat.add_right_comm, mallocLoop]
    rw [mallocLoop] at hl
    split at hl
    · rw [if_pos (by assumption)]
      exact hl
    · rw [if_neg (by assumption)]
      split at hl
      · rw [if_pos (by assumption)]
        obtain ⟨r', hr, hb⟩ := Option.bind_eq_some_iff.mp hl
        rw [hmore hr hk, Option.bind_some]
        split at hb
        · rw [if_pos (by assumption)]
          exact hb
        · rw [if_neg (by assumption)]
          exact ih hb hk
      · rw [if_neg (by assumption)]
        exact ih hl hk

end Xv6.Umalloc
