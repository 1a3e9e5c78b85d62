import Xv6.ByteMemory
import Xv6.Param

namespace Xv6.Vm

open Xv6.ByteMemory

def PGSIZE : ℕ := 4096
def NPDENTRIES : ℕ := 1024
def PTE_P : ℕ := 1
def PTE_W : ℕ := 2
def PTE_U : ℕ := 4
def EXTMEM : ℕ := 0x100000
def PHYSTOP : ℕ := 0xE000000
def DEVSPACE : ℕ := 0xFE000000
def KERNBASE : ℕ := 0x80000000
def KERNLINK : ℕ := KERNBASE + EXTMEM

-- On a 32-bit address the shift by PDXSHIFT leaves ten bits, so the mask 0x3FF of PDX is not needed.
def PDX (va : ℕ) : ℕ := va / 2 ^ 22
def PTX (va : ℕ) : ℕ := va / 2 ^ 12 % 1024
def PGROUNDUP (sz : ℕ) : ℕ := (sz + PGSIZE - 1) / PGSIZE * PGSIZE
def PGROUNDDOWN (a : ℕ) : ℕ := a / PGSIZE * PGSIZE

def present (w : ℕ) : Prop := w % 2 = 1

instance (w : ℕ) : Decidable (present w) := inferInstanceAs (Decidable (w % 2 = 1))

def userBit (w : ℕ) : Prop := w / PTE_U % 2 = 1

instance (w : ℕ) : Decidable (userBit w) := inferInstanceAs (Decidable (w / PTE_U % 2 = 1))

def frameOf (w : ℕ) : ℕ := w / PGSIZE

def PTE_FLAGS (w : ℕ) : ℕ := w % PGSIZE

structure Layout where
  data : ℕ
  endAddr : ℕ
  data_aligned : data % PGSIZE = 0
  text_nonempty : KERNLINK < data
  data_lt_end : data < endAddr
  end_le : endAddr ≤ KERNBASE + PHYSTOP

structure PhysMem where
  mem : ℕ → Bytes
  freelist : List ℕ

namespace PhysMem

def setPage (m : PhysMem) (p : ℕ) (b : Bytes) : PhysMem := { m with mem := Function.update m.mem p b }

def setEntry (m : PhysMem) (p i w : ℕ) : PhysMem := m.setPage p (setWord (m.mem p) i w)

end PhysMem

def kalloc (m : PhysMem) : Option ℕ × PhysMem :=
  match m.freelist with
  | [] => (none, m)
  | p :: ps => (some p, { m with freelist := ps })

def freed (next : List ℕ) : Bytes :=
  -- junk, and `r->next` over its first four bytes
  setWord (fill 1) 0 (match next with
    | [] => 0
    | q :: _ => KERNBASE + q * PGSIZE)

def kfree (L : Layout) (m : PhysMem) (p : ℕ) : Outcome PhysMem :=
  if KERNBASE + p * PGSIZE < L.endAddr ∨ PHYSTOP ≤ p * PGSIZE then .error "kfree"
  else .ok { m.setPage p (freed m.freelist) with freelist := p :: m.freelist }

def walkpgdir (m : PhysMem) (pgdir va : ℕ) (alloc : Bool) : Option (ℕ × ℕ) × PhysMem :=
  let pde := word (m.mem pgdir) (PDX va)
  if present pde then (some (frameOf pde, PTX va), m)
  else if !alloc then (none, m)
  else
    match kalloc m with
    | (none, m) => (none, m)
    | (some pgtab, m) =>
      let m := m.setPage pgtab zero
      let m := m.setEntry pgdir (PDX va) (pgtab * PGSIZE ||| PTE_P ||| PTE_W ||| PTE_U)
      (some (pgtab, PTX va), m)

def mapPage (m : PhysMem) (pgdir a pa perm : ℕ) : Outcome (Bool × PhysMem) :=
  match walkpgdir m pgdir a true with
  | (none, m) => .ok (false, m)
  | (some (pgtab, j), m) =>
    if present (word (m.mem pgtab) j) then .error "remap"
    else .ok (true, m.setEntry pgtab j (pa ||| perm ||| PTE_P))

def mapLoop (pgdir perm : ℕ) : ℕ → ℕ → ℕ → PhysMem → Outcome (Bool × PhysMem)
  | 0, a, pa, m => mapPage m pgdir a pa perm
  | n + 1, a, pa, m => do
    let (mapped, m) ← mapPage m pgdir a pa perm
    if mapped then mapLoop pgdir perm n (a + PGSIZE) (pa + PGSIZE) m else .ok (false, m)

-- The loop leaves when `a == last`, which it reaches after (last - a) / PGSIZE increments.
def mappages (m : PhysMem) (pgdir va size pa perm : ℕ) : Outcome (Bool × PhysMem) :=
  let a := PGROUNDDOWN va
  let last := PGROUNDDOWN ((va + size + 2 ^ 32 - 1) % 2 ^ 32)
  mapLoop pgdir perm ((last + 2 ^ 32 - a) % 2 ^ 32 / PGSIZE) a pa m

def deallocLoop (L : Layout) (pgdir oldsz a : ℕ) (m : PhysMem) : Outcome PhysMem :=
  if a < oldsz then
    match (walkpgdir m pgdir a false).1 with
    | none => deallocLoop L pgdir oldsz ((PDX a + 1) * 2 ^ 22) m
    | some (pgtab, j) =>
      let pte := word (m.mem pgtab) j
      if present pte then do
        if frameOf pte = 0 then .error "kfree"
        let m ← kfree L m (frameOf pte)
        deallocLoop L pgdir oldsz (a + PGSIZE) (m.setEntry pgtab j 0)
      else deallocLoop L pgdir oldsz (a + PGSIZE) m
  else .ok m
termination_by oldsz - a
decreasing_by all_goals (simp only [PDX, PGSIZE]; omega)

def deallocuvm (L : Layout) (m : PhysMem) (pgdir oldsz newsz : ℕ) : Outcome (ℕ × PhysMem) :=
  if oldsz ≤ newsz then .ok (oldsz, m)
  else do
    let m ← deallocLoop L pgdir oldsz (PGROUNDUP newsz) m
    .ok (newsz, m)

def freeTables (L : Layout) (pgdir : ℕ) : ℕ → ℕ → PhysMem → Outcome PhysMem
  | 0, _, m => .ok m
  | n + 1, i, m =>
    let pde := word (m.mem pgdir) i
    if present pde then do
      let m ← kfree L m (frameOf pde)
      freeTables L pgdir n (i + 1) m
    else freeTables L pgdir n (i + 1) m

def freevm (L : Layout) (m : PhysMem) : Option ℕ → Outcome PhysMem
  | none => .error "freevm: no pgdir"
  | some pgdir => do
    let (_, m) ← deallocuvm L m pgdir KERNBASE 0
    let m ← freeTables L pgdir NPDENTRIES 0 m
    kfree L m pgdir

structure Kmap where
  virt : ℕ
  phys_start : ℕ
  phys_end : ℕ
  perm : ℕ

def V2P (a : ℕ) : ℕ := a - KERNBASE

def kmap (L : Layout) : List Kmap :=
  [⟨KERNBASE, 0, EXTMEM, PTE_W⟩,
   ⟨KERNLINK, V2P KERNLINK, V2P L.data, 0⟩,
   ⟨L.data, V2P L.data, PHYSTOP, PTE_W⟩,
   ⟨DEVSPACE, DEVSPACE, 0, PTE_W⟩]

def mapSegments (pgdir : ℕ) : List Kmap → PhysMem → Outcome (Bool × PhysMem)
  | [], m => .ok (true, m)
  | k :: ks, m => do
    let size := (k.phys_end + 2 ^ 32 - k.phys_start) % 2 ^ 32
    let (mapped, m) ← mappages m pgdir k.virt size k.phys_start k.perm
    if mapped then mapSegments pgdir ks m else .ok (false, m)

def setupkvm (L : Layout) (m : PhysMem) : Outcome (Option ℕ × PhysMem) :=
  match kalloc m with
  | (none, m) => .ok (none, m)
  | (some pgdir, m) => do
    let m := m.setPage pgdir zero
    if DEVSPACE < KERNBASE + PHYSTOP then .error "PHYSTOP too high"
    let (mapped, m) ← mapSegments pgdir (kmap L) m
    if mapped then .ok (some pgdir, m)
    else
      let m ← freevm L m (some pgdir)
      .ok (none, m)

def allocLoop (L : Layout) (pgdir oldsz newsz a : ℕ) (m : PhysMem) : Outcome (ℕ × PhysMem) :=
  if a < newsz then
    match kalloc m with
    | (none, m) => do
      let (_, m) ← deallocuvm L m pgdir newsz oldsz
      .ok (0, m)
    | (some mem, m) => do
      let m := m.setPage mem zero
      let (mapped, m) ← mappages m pgdir a PGSIZE (mem * PGSIZE) (PTE_W ||| PTE_U)
      if mapped then allocLoop L pgdir oldsz newsz (a + PGSIZE) m
      else
        let (_, m) ← deallocuvm L m pgdir newsz oldsz
        let m ← kfree L m mem
        .ok (0, m)
  else .ok (newsz, m)
termination_by newsz - a
decreasing_by all_goals (simp only [PGSIZE]; omega)

def allocuvm (L : Layout) (m : PhysMem) (pgdir oldsz newsz : ℕ) : Outcome (ℕ × PhysMem) :=
  if KERNBASE ≤ newsz then .ok (0, m)
  else if newsz < oldsz then .ok (oldsz, m)
  else allocLoop L pgdir oldsz newsz (PGROUNDUP oldsz) m

def copyBad (L : Layout) (m : PhysMem) (d : ℕ) : Outcome (Option ℕ × PhysMem) := do
  let m ← freevm L m (some d)
  .ok (none, m)

def copyLoop (L : Layout) (pgdir sz d i : ℕ) (m : PhysMem) : Outcome (Option ℕ × PhysMem) :=
  if i < sz then
    match (walkpgdir m pgdir i false).1 with
    | none => .error "copyuvm: pte should exist"
    | some (pgtab, j) =>
      let pte := word (m.mem pgtab) j
      if present pte then
        match kalloc m with
        | (none, m) => copyBad L m d
        | (some mem, m) => do
          let m := m.setPage mem (m.mem (frameOf pte))
          let (mapped, m) ← mappages m d i PGSIZE (mem * PGSIZE) (PTE_FLAGS pte)
          if mapped then copyLoop L pgdir sz d (i + PGSIZE) m else copyBad L m d
      else .error "copyuvm: page not present"
  else .ok (some d, m)
termination_by sz - i
decreasing_by all_goals (simp only [PGSIZE]; omega)

def copyuvm (L : Layout) (m : PhysMem) (pgdir sz : ℕ) : Outcome (Option ℕ × PhysMem) := do
  let (d, m) ← setupkvm L m
  match d with
  | none => .ok (none, m)
  | some d => copyLoop L pgdir sz d 0 m

end Xv6.Vm
