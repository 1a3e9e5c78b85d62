import Xv6.UserVm

namespace Xv6.Vm

open Xv6.ByteMemory

structure Proc where
  pgdir : ℕ
  sz : ℕ
  kstack : ℕ
  eip : ℕ
  esp : ℕ

def ELF_MAGIC : ℕ := 0x464C457F
def ELF_PROG_LOAD : ℕ := 1
def sizeofElfhdr : ℕ := 52
def sizeofProghdr : ℕ := 32

structure Elfhdr where
  magic : ℕ
  entry : ℕ
  phoff : ℕ
  phnum : ℕ

structure Proghdr where
  type : ℕ
  off : ℕ
  vaddr : ℕ
  filesz : ℕ
  memsz : ℕ

def elfhdr (bs : List UInt8) : Elfhdr :=
  let b := store zero 0 bs
  ⟨word b 0, word b 6, word b 7, word b 11 % 2 ^ 16⟩

def proghdr (bs : List UInt8) : Proghdr :=
  let b := store zero 0 bs
  ⟨word b 0, word b 1, word b 2, word b 4, word b 5⟩

def readAll (ip : Inode) (off n : ℕ) : Option (List UInt8) :=
  (ip.readi off n).filter (·.length = n)

def loadSegments (L : Layout) (ip : Inode) (pgdir : ℕ) : ℕ → ℕ → ℕ → PhysMem → Outcome (Option ℕ × PhysMem)
  | 0, _, sz, m => .ok (some sz, m)
  | n + 1, off, sz, m =>
    match readAll ip off sizeofProghdr with
    | none => .ok (none, m)
    | some bs =>
      let ph := proghdr bs
      let next := (off + sizeofProghdr) % 2 ^ 32
      if ph.type ≠ ELF_PROG_LOAD then loadSegments L ip pgdir n next sz m
      else if ph.memsz < ph.filesz then .ok (none, m)
      else if (ph.vaddr + ph.memsz) % 2 ^ 32 < ph.vaddr then .ok (none, m)
      else do
        let (sz, m) ← allocuvm L m pgdir sz ((ph.vaddr + ph.memsz) % 2 ^ 32)
        if sz = 0 then .ok (none, m)
        else if ph.vaddr % PGSIZE ≠ 0 then .ok (none, m)
        else
          let (loaded, m) ← loaduvm m pgdir ph.vaddr ip ph.off ph.filesz
          if loaded then loadSegments L ip pgdir n next sz m else .ok (none, m)

def pushArgsWith (null : PhysMem → Outcome ℕ) (pgdir : ℕ) :
    List (List UInt8) → List ℕ → ℕ → PhysMem → Outcome (Option (ℕ × List ℕ) × PhysMem)
  | [], ptrs, sp, m => .ok (some (sp, ptrs), m)
  | arg :: args, ptrs, sp, m =>
    if MAXARG ≤ ptrs.length then .ok (none, m)
    else do
      let sp := (sp + 2 ^ 32 - (arg.length + 1)) % 2 ^ 32 / 4 * 4
      let (copied, m) ← copyoutWith null pgdir sp (arg ++ [0]) m
      if copied then pushArgsWith null pgdir args (ptrs ++ [sp]) sp m else .ok (none, m)

def wordBytes (w : ℕ) : List UInt8 :=
  [UInt8.ofNat w, UInt8.ofNat (w / 2 ^ 8), UInt8.ofNat (w / 2 ^ 16), UInt8.ofNat (w / 2 ^ 24)]

def ustack (sp : ℕ) (ptrs : List ℕ) : List ℕ :=
  [0xffffffff, ptrs.length, (sp + 2 ^ 32 - (ptrs.length + 1) * 4) % 2 ^ 32] ++ ptrs ++ [0]

def copyArgsWith (null : PhysMem → Outcome ℕ) (pgdir sz : ℕ) (argv : List (List UInt8)) (m : PhysMem) :
    Outcome (Option (ℕ × ℕ) × PhysMem) := do
  let (pushed, m) ← pushArgsWith null pgdir argv [] sz m
  match pushed with
  | none => .ok (none, m)
  | some (sp, ptrs) =>
    let sp' := (sp + 2 ^ 32 - (3 + ptrs.length + 1) * 4) % 2 ^ 32
    let (copied, m) ← copyoutWith null pgdir sp' ((ustack sp ptrs).flatMap wordBytes) m
    if copied then .ok (some (sz, sp'), m) else .ok (none, m)

def buildStack (L : Layout) (cur pgdir sz : ℕ) (argv : List (List UInt8)) (m : PhysMem) :
    Outcome (Option (ℕ × ℕ) × PhysMem) := do
  let sz := PGROUNDUP sz
  let (sz, m) ← allocuvm L m pgdir sz (sz + 2 * PGSIZE)
  if sz = 0 then .ok (none, m)
  else
    let m ← clearpteu m pgdir (sz - 2 * PGSIZE)
    copyArgsWith (fun m => loadInt m cur 0) pgdir sz argv m

def execBad (L : Layout) (m : PhysMem) (pgdir : ℕ) : Outcome (Option Proc × PhysMem) := do
  let m ← freevm L m (some pgdir)
  .ok (none, m)

def exec (L : Layout) (m : PhysMem) (p : Proc) (file : Option Inode) (argv : List (List UInt8)) :
    Outcome (Option Proc × PhysMem) :=
  match file with
  | none => .ok (none, m)
  | some ip =>
    match readAll ip 0 sizeofElfhdr with
    | none => .ok (none, m)
    | some bs =>
      let elf := elfhdr bs
      if elf.magic ≠ ELF_MAGIC then .ok (none, m)
      else do
        let (d, m) ← setupkvm L m
        match d with
        | none => .ok (none, m)
        | some pgdir =>
          let (loaded, m) ← loadSegments L ip pgdir elf.phnum elf.phoff 0 m
          match loaded with
          | none => execBad L m pgdir
          | some sz =>
            let (built, m) ← buildStack L p.pgdir pgdir sz argv m
            match built with
            | none => execBad L m pgdir
            | some (sz, sp) =>
              let m ← freevm L m (some p.pgdir)
              .ok (some { p with pgdir := pgdir, sz := sz, eip := elf.entry, esp := sp }, m)

def growproc (L : Layout) (m : PhysMem) (p : Proc) (n : Int32) : Outcome (Option Proc × PhysMem) :=
  let newsz := (((p.sz : ℤ) + n.toInt) % 2 ^ 32).toNat
  if 0 < n.toInt then do
    let (sz, m) ← allocuvm L m p.pgdir p.sz newsz
    if sz = 0 then .ok (none, m) else .ok (some { p with sz := sz }, m)
  else if n.toInt < 0 then do
    let (sz, m) ← deallocuvm L m p.pgdir p.sz newsz
    if sz = 0 then .ok (none, m) else .ok (some { p with sz := sz }, m)
  else .ok (some p, m)

structure Sys where
  phys : PhysMem
  proc : Fin NPROC → Option Proc
  others : List ℕ

def freeSlot (s : Sys) : Option (Fin NPROC) := (List.finRange NPROC).find? (fun i => (s.proc i).isNone)

def fork (L : Layout) (s : Sys) (p : Proc) : Outcome Sys :=
  match freeSlot s with
  | none => .ok s
  | some np =>
    match kalloc s.phys with
    | (none, m) => .ok { s with phys := m }
    | (some kstack, m) => do
      let (d, m) ← copyuvm L m p.pgdir p.sz
      match d with
      | none =>
        let m ← kfree L m kstack
        .ok { s with phys := m }
      | some d =>
          .ok { s with phys := m, proc := Function.update s.proc np (some { p with pgdir := d, kstack := kstack }) }

def reap (L : Layout) (s : Sys) (i : Fin NPROC) (p : Proc) : Outcome Sys := do
  let m ← kfree L s.phys p.kstack
  let m ← freevm L m (some p.pgdir)
  .ok { s with phys := m, proc := Function.update s.proc i none }

inductive MemCall where
  | exec (i : Fin NPROC) (file : Option Inode) (argv : List (List UInt8))
  | fork (i : Fin NPROC)
  | sbrk (i : Fin NPROC) (n : Int32)
  | reap (i : Fin NPROC)
  | grab
  | give (q : ℕ)

def Sys.put (s : Sys) (i : Fin NPROC) : Option Proc × PhysMem → Sys
  | (none, m) => { s with phys := m }
  | (some p, m) => { s with phys := m, proc := Function.update s.proc i (some p) }

def memStep (L : Layout) (s : Sys) : MemCall → Option (Outcome Sys)
  | .exec i file argv => (s.proc i).map fun p => (exec L s.phys p file argv).map (s.put i)
  | .fork i => (s.proc i).map fun p => fork L s p
  | .sbrk i n => (s.proc i).map fun p => (growproc L s.phys p n).map (s.put i)
  | .reap i => (s.proc i).map fun p => reap L s i p
  | .grab =>
    match kalloc s.phys with
    | (none, _) => none
    | (some q, m) => some (.ok { s with phys := m, others := q :: s.others })
  | .give q =>
    if q ∈ s.others then some ((kfree L s.phys q).map fun m => { s with phys := m, others := s.others.erase q })
    else none

def userinit (L : Layout) (m : PhysMem) (initcode : List UInt8) : Outcome Sys :=
  match kalloc m with
  | (none, _) => .error "userinit: out of memory?"
  | (some kstack, m) => do
    let (d, m) ← setupkvm L m
    match d with
    | none => .error "userinit: out of memory?"
    | some pgdir =>
      let m ← inituvm m pgdir initcode
      .ok ⟨m, Function.update (fun _ => none) ⟨0, NPROC_pos⟩ (some ⟨pgdir, PGSIZE, kstack, 0, PGSIZE⟩), []⟩

def fetchint (m : PhysMem) (p : Proc) (addr : UInt32) : Outcome (Option ℕ) :=
  if p.sz ≤ addr.toNat ∨ p.sz < (addr + 4).toNat then .ok none
  else (loadInt m p.pgdir addr.toNat).map some

def strLoop (m : PhysMem) (pgdir : ℕ) : ℕ → ℕ → ℕ → Outcome (Option ℕ)
  | 0, _, _ => .ok none
  | n + 1, s, len => do
    let b ← loadByte m pgdir s
    if b = 0 then .ok (some len) else strLoop m pgdir n (s + 1) (len + 1)

def fetchstr (m : PhysMem) (p : Proc) (addr : UInt32) : Outcome (Option ℕ) :=
  if p.sz ≤ addr.toNat then .ok none else strLoop m p.pgdir (p.sz - addr.toNat) addr.toNat 0

def argint (m : PhysMem) (p : Proc) (n : UInt32) : Outcome (Option ℕ) :=
  fetchint m p (UInt32.ofNat p.esp + 4 + 4 * n)

def argptr (m : PhysMem) (p : Proc) (n : UInt32) (size : Int32) : Outcome (Option UInt32) := do
  match ← argint m p n with
  | none => .ok none
  | some w =>
    let i := UInt32.ofNat w
    if size.toInt < 0 ∨ p.sz ≤ i.toNat ∨ p.sz < (i + size.toUInt32).toNat then .ok none else .ok (some i)

end Xv6.Vm
