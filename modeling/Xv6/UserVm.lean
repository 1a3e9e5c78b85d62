import Xv6.Vm

namespace Xv6.Vm

open Xv6.ByteMemory

def translate (m : PhysMem) (pgdir va : ℕ) : Option ℕ :=
  match (walkpgdir m pgdir va false).1 with
  | none => none
  | some (pgtab, j) => if present (word (m.mem pgtab) j) then some (frameOf (word (m.mem pgtab) j)) else none

def loadByte (m : PhysMem) (pgdir va : ℕ) : Outcome UInt8 :=
  match translate m pgdir va with
  | none => .error "trap"
  | some p => .ok (m.mem p (va % PGSIZE))

def loadInt (m : PhysMem) (pgdir va : ℕ) : Outcome ℕ := do
  let b0 ← loadByte m pgdir va
  let b1 ← loadByte m pgdir (va + 1)
  let b2 ← loadByte m pgdir (va + 2)
  let b3 ← loadByte m pgdir (va + 3)
  .ok (b0.toNat + 256 * b1.toNat + 65536 * b2.toNat + 16777216 * b3.toNat)

def inituvm (m : PhysMem) (pgdir : ℕ) (init : List UInt8) : Outcome PhysMem :=
  if PGSIZE ≤ init.length then .error "inituvm: more than a page"
  else
    match kalloc m with
    -- The result of kalloc is not checked; boot goes no further without memory.
    | (none, _) => .error "inituvm: no page"
    | (some mem, m) => do
      let m := m.setPage mem zero
      let (_, m) ← mappages m pgdir 0 PGSIZE (mem * PGSIZE) (PTE_W ||| PTE_U)
      .ok (m.setPage mem (store (m.mem mem) 0 init))

structure Inode where
  readi : ℕ → ℕ → Option (List UInt8)

def loadLoop (pgdir addr offset sz : ℕ) (ip : Inode) (i : ℕ) (m : PhysMem) : Outcome (Bool × PhysMem) :=
  if i < sz then
    match (walkpgdir m pgdir (addr + i) false).1 with
    | none => .error "loaduvm: address should exist"
    | some (pgtab, j) =>
      let p := frameOf (word (m.mem pgtab) j)
      let n := if sz - i < PGSIZE then sz - i else PGSIZE
      match ip.readi ((offset + i) % 2 ^ 32) n with
      | none => .ok (false, m)
      | some bs =>
        let m := m.setPage p (store (m.mem p) 0 bs)
        if bs.length ≠ n then .ok (false, m) else loadLoop pgdir addr offset sz ip (i + PGSIZE) m
  else .ok (true, m)
termination_by sz - i
decreasing_by all_goals (simp only [PGSIZE]; omega)

def loaduvm (m : PhysMem) (pgdir addr : ℕ) (ip : Inode) (offset sz : ℕ) : Outcome (Bool × PhysMem) :=
  if addr % PGSIZE ≠ 0 then .error "loaduvm: addr must be page aligned"
  else loadLoop pgdir addr offset sz ip 0 m

def clearBit (w : ℕ) : ℕ := if userBit w then w - PTE_U else w

def clearpteu (m : PhysMem) (pgdir uva : ℕ) : Outcome PhysMem :=
  match (walkpgdir m pgdir uva false).1 with
  | none => .error "clearpteu"
  | some (pgtab, j) => .ok (m.setEntry pgtab j (clearBit (word (m.mem pgtab) j)))

def uva2kaWith (null : PhysMem → Outcome ℕ) (m : PhysMem) (pgdir uva : ℕ) : Outcome (Option ℕ) := do
  let pte ← match (walkpgdir m pgdir uva false).1 with
    | none => null m
    | some (pgtab, j) => .ok (word (m.mem pgtab) j)
  if ¬present pte then .ok none
  else if ¬userBit pte then .ok none
  else .ok (some (frameOf pte))

def uva2ka (m : PhysMem) (cur pgdir uva : ℕ) : Outcome (Option ℕ) :=
  -- without a page table `*pte` is the word at address 0 of the running process
  uva2kaWith (fun m => loadInt m cur 0) m pgdir uva

def copyLen (va len : ℕ) : ℕ := min (PGSIZE - (va - PGROUNDDOWN va)) len

theorem copyLen_pos {len : ℕ} (va : ℕ) (h : 0 < len) : 0 < copyLen va len := by
  simp only [copyLen, PGROUNDDOWN, PGSIZE]
  omega

def copyoutWith (null : PhysMem → Outcome ℕ) (pgdir va : ℕ) (buf : List UInt8) (m : PhysMem) :
    Outcome (Bool × PhysMem) :=
  if h : 0 < buf.length then do
    let va0 := PGROUNDDOWN va
    match ← uva2kaWith null m pgdir va0 with
    | none => .ok (false, m)
    | some p =>
      let n := copyLen va buf.length
      let m := m.setPage p (store (m.mem p) (va - va0) (buf.take n))
      copyoutWith null pgdir ((va0 + PGSIZE) % 2 ^ 32) (buf.drop n) m
  else .ok (true, m)
termination_by buf.length
decreasing_by
  have := copyLen_pos va h
  simp only [List.length_drop]
  omega

def copyout (cur pgdir va : ℕ) (buf : List UInt8) (m : PhysMem) : Outcome (Bool × PhysMem) :=
  copyoutWith (fun m => loadInt m cur 0) pgdir va buf m

end Xv6.Vm
