import Xv6.FileTable
import Xv6.PointerCount
import Xv6.ProcTable

namespace Xv6.OpenFiles

open Contract FileTable PointerCount ProcTable Transition

structure Kernel where
  ft : Ftable
  state : Slot → ProcState
  ofile : Slot × Fin NOFILE → Option (Fin NFILE)
  initproc : Slot

def setSlot (s : Kernel) (i : Slot × Fin NOFILE) (v : Option (Fin NFILE)) : Kernel :=
  { s with ofile := Function.update s.ofile i v }

def setState (s : Kernel) (p : Slot) (x : ProcState) : Kernel := { s with state := Function.update s.state p x }

def setTable (s : Kernel) (ft : Ftable) : Kernel := { s with ft := ft }

def argfd (s : Kernel) (p : Slot) (fd : ℤ) : Option (Fin NOFILE × Fin NFILE) :=
  if h : 0 ≤ fd ∧ fd < NOFILE then
    (s.ofile (p, ⟨fd.toNat, by omega⟩)).map fun f => (⟨fd.toNat, by omega⟩, f)
  else none

def fdalloc (s : Kernel) (p : Slot) (f : Fin NFILE) : Option (Fin NOFILE × Kernel) :=
  match (List.finRange NOFILE).find? (fun fd => s.ofile (p, fd) = none) with
  | some fd => some (fd, setSlot s (p, fd) (some f))
  | none => none

def sysDup (s : Kernel) (p : Slot) (fd : ℤ) : Outcome (ℤ × Kernel) :=
  match argfd s p fd with
  | none => .ok (-1, s)
  | some (_, f) =>
    match fdalloc s p f with
    | none => .ok (-1, s)
    | some (fd, s) => do
      let ft ← filedup s.ft f
      .ok (fd, setTable s ft)

def sysClose (s : Kernel) (p : Slot) (fd : ℤ) : Outcome (ℤ × Kernel) :=
  match argfd s p fd with
  | none => .ok (-1, s)
  | some (fd, f) => do
    let s := setSlot s (p, fd) none
    let (_, ft) ← fileclose s.ft f
    .ok (0, setTable s ft)

def O_WRONLY : ℕ := 0x001
def O_RDWR : ℕ := 0x002

def openedFile (f : File) (ip omode : ℕ) : File :=
  { f with type := .inode, ip := ip, readable := omode &&& O_WRONLY = 0
           writable := omode &&& O_WRONLY ≠ 0 ∨ omode &&& O_RDWR ≠ 0 }

def sysOpen (s : Kernel) (p : Slot) (ip : Option ℕ) (omode : ℕ) : Outcome (ℤ × Kernel) :=
  match ip with
  | none => .ok (-1, s)
  | some ip =>
    match filealloc s.ft with
    | none => .ok (-1, s)
    | some (f, ft) =>
      match fdalloc (setTable s ft) p f with
      | none => do
        let (_, ft) ← fileclose ft f
        .ok (-1, setTable s ft)
      | some (fd, s) => .ok (fd, setTable s (setFile s.ft f (openedFile (s.ft.file f) ip omode)))

def closeBoth (s : Kernel) (rf wf : Fin NFILE) : Outcome (ℤ × Kernel) := do
  let (_, ft) ← fileclose s.ft rf
  let (_, ft) ← fileclose ft wf
  .ok (-1, setTable s ft)

def sysPipe (s : Kernel) (p : Slot) (valid : Bool) (page : Option ℕ) : Outcome (ℤ × Kernel) :=
  if valid = false then .ok (-1, s)
  else do
    let (r, ft) ← pipealloc s.ft page
    let s := setTable s ft
    match r with
    | none => .ok (-1, s)
    | some (rf, wf) =>
      match fdalloc s p rf with
      | none => closeBoth s rf wf
      | some (fd0, s) =>
        match fdalloc s p wf with
        | none => closeBoth (setSlot s (p, fd0) none) rf wf
        | some (_, s) => .ok (0, s)

def forkFile (p np : Slot) (s : Kernel) (fd : Fin NOFILE) : Outcome Kernel :=
  match s.ofile (p, fd) with
  | none => .ok s
  | some f => do
    let ft ← filedup s.ft f
    .ok (setSlot (setTable s ft) (np, fd) (some f))

def fork (s : Kernel) (p : Slot) (kstack copied : Bool) : Outcome Kernel :=
  match (List.finRange NPROC).find? (fun q => s.state q = .unused) with
  | none => .ok s
  | some np =>
    let s := setState s np .embryo
    if kstack = false then .ok (setState s np .unused)
    else if copied = false then .ok (setState s np .unused)
    else do
      let s ← (List.finRange NOFILE).foldlM (forkFile p np) s
      .ok (setState s np .runnable)

def exitFile (p : Slot) (s : Kernel) (fd : Fin NOFILE) : Outcome Kernel :=
  match s.ofile (p, fd) with
  | none => .ok s
  | some f => do
    let (_, ft) ← fileclose s.ft f
    .ok (setSlot (setTable s ft) (p, fd) none)

def exit (s : Kernel) (p : Slot) : Outcome Kernel :=
  if p = s.initproc then .error "init exiting"
  else do
    let s ← (List.finRange NOFILE).foldlM (exitFile p) s
    .ok (setState s p .zombie)

inductive Event
  | open (p : Slot) (ip : Option ℕ) (omode : ℕ)
  | dup (p : Slot) (fd : ℤ)
  | pipe (p : Slot) (valid : Bool) (page : Option ℕ)
  | close (p : Slot) (fd : ℤ)
  | fork (p : Slot) (kstack copied : Bool)
  | exec (p : Slot)
  | exit (p : Slot)
  | reap (p : Slot)

def Event.proc : Event → Slot
  | .open p _ _ | .dup p _ | .pipe p _ _ | .close p _ | .fork p _ _ | .exec p | .exit p | .reap p => p

def unusedPage (s : Kernel) (page : Option ℕ) : Bool := page.all fun pg => s.ft.pipe pg = none

def fileStep (s : Kernel) (e : Event) : Option (Outcome Kernel) :=
  match s.state e.proc, e with
  | .runnable, .open p ip omode => some ((·.2) <$> sysOpen s p ip omode)
  | .runnable, .dup p fd => some ((·.2) <$> sysDup s p fd)
  | .runnable, .pipe p valid page => if unusedPage s page then some ((·.2) <$> sysPipe s p valid page) else none
  | .runnable, .close p fd => some ((·.2) <$> sysClose s p fd)
  | .runnable, .fork p kstack copied => some (fork s p kstack copied)
  | .runnable, .exec _ => some (.ok s)
  | .runnable, .exit p => some (exit s p)
  | .zombie, .reap p => some (.ok (setState s p .unused))
  | _, _ => none

def boot (init : Slot) : Kernel where
  ft :=
    { file := fun _ => { type := .none, ref := 0, readable := false, writable := false, pipe := 0, ip := 0 }
      pipe := fun _ => none
      allocated := fun _ => 0
      freed := fun _ => 0 }
  state := Function.update (fun _ => .unused) init .runnable
  ofile _ := none
  initproc := init

end Xv6.OpenFiles
