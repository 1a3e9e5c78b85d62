import Xv6.BlockMap
import Xv6.Inode
import Xv6.OpenFiles

/-!
Paths and the system calls of `sysfile.c` that name files, `exec`, `fileclose` and `exit`.
Every call runs alone: what it can sleep for ever on is a lock of its own.
-/

namespace Xv6.SysFile

open FileTable OpenFiles ProcTable
open Fs hiding Slot
open Function (update)

def slash : UInt8 := 47
def dot : List UInt8 := [46]
def dotdot : List UInt8 := [46, 46]

abbrev Path := List UInt8

def skipelem (path : Path) : Option (List UInt8 × Path) :=
  let path := path.dropWhile (· = slash)
  if path = [] then none
  else some ((path.takeWhile (· ≠ slash)).take DIRSIZ, (path.dropWhile (· ≠ slash)).dropWhile (· = slash))

theorem skipelem_length {path rest : Path} {name : List UInt8} (h : skipelem path = some (name, rest)) :
    rest.length < path.length := by
  simp only [skipelem] at h
  split_ifs at h with h0
  cases h
  have h1 := (path.dropWhile_sublist (fun c => decide (c = slash))).length_le
  have h2 := (((path.dropWhile (fun c => decide (c = slash))).dropWhile (fun c => decide (c ≠ slash))).dropWhile_sublist
    (fun c => decide (c = slash))).length_le
  have hhead := List.head_dropWhile_not (fun c => decide (c = slash)) h0
  obtain ⟨c, cs, hc⟩ := List.exists_cons_of_ne_nil h0
  simp only [hc, List.head_cons, decide_eq_false_iff_not] at hhead
  have h3 := (cs.dropWhile_sublist (fun c => decide (c ≠ slash))).length_le
  simp only [hc, List.dropWhile_cons, hhead, List.length_cons, ne_eq, not_false_eq_true, decide_true, if_true] at *
  omega

def pathElems (path : Path) : List (List UInt8) :=
  match h : skipelem path with
  | none => []
  | some (name, rest) =>
    have := skipelem_length h
    name :: pathElems rest
termination_by path.length

structure Sys where
  fs : State
  kernel : Kernel
  cwd : Slot → Option ℕ
  held : ℕ → Bool
  begun : ℕ
  ended : ℕ

variable (s : Sys) (p : Slot)

def setFs (fs : State) : Sys := { s with fs := fs }

def setKernel (k : Kernel) : Sys := { s with kernel := k }

def beginOp : Sys := { s with begun := s.begun + 1 }

def endOp : Sys := { s with ended := s.ended + 1 }

def ownLock : String := "sleeps on a lock of its own"

def ilock (i : ℕ) : Outcome Sys :=
  if s.held i then .error ownLock
  else do
    let fs ← Fs.ilock s.fs i
    .ok { s with fs := fs, held := update s.held i true }

def iunlock (i : ℕ) : Outcome Sys :=
  if s.held i = false ∨ s.fs.ref i < 1 then .error "iunlock"
  else .ok { s with held := update s.held i false }

def iput (i : ℕ) : Outcome Sys :=
  if s.held i then .error ownLock
  else do
    let fs ← Fs.iput s.fs i
    .ok (setFs s fs)

def iunlockput (i : ℕ) : Outcome Sys := do
  let s ← iunlock s i
  iput s i

def dirlookup (dp : ℕ) (name : List UInt8) : Outcome (Option (ℕ × ℕ) × Sys) := do
  let (r, fs) ← Fs.dirlookup s.fs dp name
  .ok (r, setFs s fs)

def dirwrite (dp : ℕ) (name : List UInt8) (inum : ℕ) : Outcome Sys := do
  let (off, fs) ← emptySlot s.fs dp
  let (r, fs) ← writei fs dp (Dirent.bytes ⟨inum % 65536, strncpy name DIRSIZ⟩) off
  if r = some sizeofDirent then .ok (setFs s fs) else .error "dirlink"

def dirlink (dp : ℕ) (name : List UInt8) (inum : ℕ) : Outcome (Bool × Sys) := do
  let (r, s) ← dirlookup s dp name
  match r with
  | some (_, next) => do
    let s ← iput s next
    .ok (false, s)
  | none => do
    let s ← dirwrite s dp name inum
    .ok (true, s)

def giveUp {α : Type} (s : Sys) (i : ℕ) : Outcome (Option α × Sys) := do
  let s ← iunlockput s i
  .ok (none, s)

def namexLoop (s : Sys) (ip : ℕ) (parent : Bool) : List (List UInt8) → Outcome (Option (ℕ × List UInt8) × Sys)
  | [] =>
    if parent then do
      let s ← iput s ip
      .ok (none, s)
    else .ok (some (ip, []), s)
  | name :: elems => do
    let s ← ilock s ip
    if (s.fs.inode ip).type ≠ .dir then giveUp s ip
    else if parent ∧ elems = [] then do
      let s ← iunlock s ip
      .ok (some (ip, name), s)
    else do
      let (r, s) ← dirlookup s ip name
      match r with
      | none => giveUp s ip
      | some (_, next) => do
        let s ← iunlockput s ip
        namexLoop s next parent elems

def namex (path : Path) (parent : Bool) : Outcome (Option (ℕ × List UInt8) × Sys) :=
  if path.head? = some slash then do
    let fs ← iget s.fs ROOTINO
    namexLoop (setFs s fs) ROOTINO parent (pathElems path)
  else
    match s.cwd p with
    | none => .error "no current directory"
    | some cwd => namexLoop (setFs s (idup s.fs cwd)) cwd parent (pathElems path)

def namei (path : Path) : Outcome (Option ℕ × Sys) := do
  let (r, s) ← namex s p path false
  .ok (r.map Prod.fst, s)

def nameiparent (path : Path) : Outcome (Option (ℕ × List UInt8) × Sys) := namex s p path true

def addNlink (i : ℕ) (n : Int16) : Sys :=
  setFs s (commit s.fs i { s.fs.inode i with nlink := (s.fs.inode i).nlink + n })

def createLookup (path : Path) : Outcome (Option (ℕ × List UInt8 × Option ℕ) × Sys) := do
  let (r, s) ← nameiparent s p path
  match r with
  | none => .ok (none, s)
  | some (dp, name) => do
    let s ← ilock s dp
    let (r, s) ← dirlookup s dp name
    .ok (some (dp, name, r.map Prod.snd), s)

def createDots (dp ip : ℕ) (type : FType) : Outcome Sys :=
  if type = .dir then do
    let s := addNlink s dp 1
    let (ok, s) ← dirlink s ip dot ip
    if ok then do
      let (ok, s) ← dirlink s ip dotdot dp
      if ok then .ok s else .error "create dots"
    else .error "create dots"
  else .ok s

def createNew (dp : ℕ) (name : List UInt8) (type : FType) (major minor : Int16) : Outcome (Option ℕ × Sys) := do
  let (ip, fs) ← ialloc s.fs type
  let s ← ilock (setFs s fs) ip
  let s := setFs s (commit s.fs ip { s.fs.inode ip with major := major, minor := minor, nlink := 1 })
  let s ← createDots s dp ip type
  let (ok, s) ← dirlink s dp name ip
  if ok then do
    let s ← iunlockput s dp
    .ok (some ip, s)
  else .error "create: dirlink"

def createFound (dp ip : ℕ) (type : FType) : Outcome (Option ℕ × Sys) := do
  let s ← iunlockput s dp
  let s ← ilock s ip
  if type = .file ∧ (s.fs.inode ip).type = .file then .ok (some ip, s) else giveUp s ip

def create (path : Path) (type : FType) (major minor : Int16) : Outcome (Option ℕ × Sys) := do
  let (r, s) ← createLookup s p path
  match r with
  | none => .ok (none, s)
  | some (dp, _, some ip) => createFound s dp ip type
  | some (dp, name, none) => createNew s dp name type major minor

def finish {α : Type} (r : α) (s : Sys) : Outcome (α × Sys) := .ok (r, endOp s)

def putFinish {α : Type} (r : α) (s : Sys) (i : ℕ) : Outcome (α × Sys) := do
  let s ← iunlockput s i
  finish r s

def fileclose (f : Fin NFILE) : Outcome Sys := do
  let (r, ft) ← FileTable.fileclose s.kernel.ft f
  let s := setKernel s (setTable s.kernel ft)
  match r with
  | none => .ok s
  | some ip => do
    let s ← iput (beginOp s) ip
    .ok (endOp s)

def O_CREATE : ℕ := 0x200

def openInode (path : Path) (omode : ℕ) : Outcome (Option ℕ × Sys) :=
  if omode &&& O_CREATE ≠ 0 then create s p path .file 0 0
  else do
    let (r, s) ← namei s p path
    match r with
    | none => .ok (none, s)
    | some ip => do
      let s ← ilock s ip
      if (s.fs.inode ip).type = .dir ∧ omode ≠ 0 then giveUp s ip else .ok (some ip, s)

def openFd (ip omode : ℕ) : Outcome (ℤ × Sys) :=
  match filealloc s.kernel.ft with
  | none => putFinish (-1) s ip
  | some (f, ft) =>
    let s := setKernel s (setTable s.kernel ft)
    match fdalloc s.kernel p f with
    | none => do
      let s ← fileclose s f
      putFinish (-1) s ip
    | some (fd, k) => do
      let s ← iunlock (setKernel s k) ip
      finish (fd : ℤ) (setKernel s (setTable k (setFile k.ft f (openedFile (k.ft.file f) ip omode))))

def sysOpen (path : Option Path) (omode : ℕ) : Outcome (ℤ × Sys) :=
  match path with
  | none => .ok (-1, s)
  | some path => do
    let (r, s) ← openInode (beginOp s) p path omode
    match r with
    | none => finish (-1) s
    | some ip => openFd s p ip omode

def sysCreate (path : Option Path) (type : FType) (major minor : Int16) : Outcome (ℤ × Sys) :=
  match path with
  | none => finish (-1) (beginOp s)
  | some path => do
    let (r, s) ← create (beginOp s) p path type major minor
    match r with
    | none => finish (-1) s
    | some ip => putFinish 0 s ip

def sysMkdir (path : Option Path) : Outcome (ℤ × Sys) := sysCreate s p path .dir 0 0

def sysMknod (path : Option Path) (major minor : Int16) : Outcome (ℤ × Sys) := sysCreate s p path .dev major minor

def linkLookup (old new : Path) : Outcome (Option (ℕ × Option (ℕ × List UInt8)) × Sys) := do
  let (r, s) ← namei s p old
  match r with
  | none => .ok (none, s)
  | some ip => do
    let s ← ilock s ip
    if (s.fs.inode ip).type = .dir then giveUp s ip
    else do
      let s ← iunlock (addNlink s ip 1) ip
      let (r, s) ← nameiparent s p new
      .ok (some (ip, r), s)

def linkUndo (ip : ℕ) : Outcome (ℤ × Sys) := do
  let s ← ilock s ip
  putFinish (-1) (addNlink s ip (-1)) ip

def linkEntry (ip dp : ℕ) (name : List UInt8) : Outcome (ℤ × Sys) := do
  let s ← ilock s dp
  let (ok, s) ← dirlink s dp name ip
  let s ← iunlockput s dp
  if ok then do
    let s ← iput s ip
    finish 0 s
  else linkUndo s ip

def sysLink (old new : Option Path) : Outcome (ℤ × Sys) :=
  match old, new with
  | some old, some new => do
    let (r, s) ← linkLookup (beginOp s) p old new
    match r with
    | none => finish (-1) s
    | some (ip, none) => linkUndo s ip
    | some (ip, some (dp, name)) => linkEntry s ip dp name
  | _, _ => .ok (-1, s)

def isdirempty (dp : ℕ) : Outcome (Bool × Sys) := do
  let (r, fs) ← scan s.fs dp "isdirempty: readi" (fun de => de.inum ≠ 0) ((offsets (s.fs.inode dp).size).drop 2)
  .ok (r.isNone, setFs s fs)

def removable (ip : ℕ) : Outcome (Bool × Sys) :=
  if (s.fs.inode ip).type = .dir then isdirempty s ip else .ok (true, s)

def unlinkLookup (path : Path) : Outcome (Option (ℕ × Option (ℕ × ℕ)) × Sys) := do
  let (r, s) ← nameiparent s p path
  match r with
  | none => .ok (none, s)
  | some (dp, name) => do
    let s ← ilock s dp
    if namecmp name dot = 0 ∨ namecmp name dotdot = 0 then .ok (some (dp, none), s)
    else do
      let (r, s) ← dirlookup s dp name
      .ok (some (dp, r), s)

def unlinkEntry (dp off ip : ℕ) : Outcome (ℤ × Sys) := do
  let (r, fs) ← writei s.fs dp Dirent.empty.bytes off
  if r = some sizeofDirent then do
    let s := setFs s fs
    let s := if (s.fs.inode ip).type = .dir then addNlink s dp (-1) else s
    let s ← iunlockput s dp
    putFinish 0 (addNlink s ip (-1)) ip
  else .error "unlink: writei"

def unlinkInode (dp off ip : ℕ) : Outcome (ℤ × Sys) := do
  let s ← ilock s ip
  if (s.fs.inode ip).nlink < 1 then .error "unlink: nlink < 1"
  else do
    let (ok, s) ← removable s ip
    if ok then unlinkEntry s dp off ip
    else do
      let s ← iunlockput s ip
      putFinish (-1) s dp

def sysUnlink (path : Option Path) : Outcome (ℤ × Sys) :=
  match path with
  | none => .ok (-1, s)
  | some path => do
    let (r, s) ← unlinkLookup (beginOp s) p path
    match r with
    | none => finish (-1) s
    | some (dp, none) => putFinish (-1) s dp
    | some (dp, some (off, ip)) => unlinkInode s dp off ip

def sysChdir (path : Option Path) : Outcome (ℤ × Sys) :=
  match path with
  | none => finish (-1) (beginOp s)
  | some path => do
    let (r, s) ← namei (beginOp s) p path
    match r with
    | none => finish (-1) s
    | some ip => do
      let s ← ilock s ip
      if (s.fs.inode ip).type ≠ .dir then putFinish (-1) s ip
      else
        match s.cwd p with
        | none => .error "no current directory"
        | some cwd => do
          let s ← iunlock s ip
          let s ← iput s cwd
          finish 0 { s with cwd := update s.cwd p (some ip) }

def readAll (s : Sys) (ip : ℕ) : List (ℕ × ℕ) → Outcome Sys
  | [] => .ok s
  | (off, n) :: reads => do
    let (_, fs) ← readi s.fs ip off n
    readAll (setFs s fs) ip reads

def execBad (ip : Option ℕ) : Outcome (ℤ × Sys) :=
  match ip with
  | some ip => putFinish (-1) s ip
  | none => .ok (-1, s)

def exec (path : Path) (reads : List (ℕ × ℕ)) (loaded built : Bool) : Outcome (ℤ × Sys) := do
  let (r, s) ← namei (beginOp s) p path
  match r with
  | none => finish (-1) s
  | some ip => do
    let s ← ilock s ip
    let s ← readAll s ip reads
    if loaded = false then execBad s (some ip)
    else do
      let s ← iunlockput s ip
      let s := endOp s
      if built then .ok (0, s) else execBad s none

def sysClose (fd : ℤ) : Outcome (ℤ × Sys) :=
  match argfd s.kernel p fd with
  | none => .ok (-1, s)
  | some (fd, f) => do
    let s ← fileclose (setKernel s (setSlot s.kernel (p, fd) none)) f
    .ok (0, s)

def exitFd (s : Sys) (fd : Fin NOFILE) : Outcome Sys :=
  match s.kernel.ofile (p, fd) with
  | none => .ok s
  | some f => do
    let s ← fileclose s f
    .ok (setKernel s (setSlot s.kernel (p, fd) none))

def exit : Outcome Sys :=
  if p = s.kernel.initproc then .error "init exiting"
  else do
    let s ← (List.finRange NOFILE).foldlM (exitFd p) s
    match s.cwd p with
    | none => .error "no current directory"
    | some cwd => do
      let s ← iput (beginOp s) cwd
      let s := endOp s
      .ok { s with cwd := update s.cwd p none, kernel := setState s.kernel p .zombie }

def fork (kstack copied : Bool) : Outcome Sys := do
  let k ← OpenFiles.fork s.kernel p kstack copied
  match (List.finRange NPROC).find? (fun q => s.kernel.state q = .unused) with
  | none => .ok (setKernel s k)
  | some np =>
    if kstack = false ∨ copied = false then .ok (setKernel s k)
    else
      match s.cwd p with
      | none => .error "no current directory"
      | some cwd => .ok { setFs s (idup s.fs cwd) with kernel := k, cwd := update s.cwd np (some cwd) }

inductive Event
  | open (p : Slot) (path : Option Path) (omode : ℕ)
  | mkdir (p : Slot) (path : Option Path)
  | mknod (p : Slot) (path : Option Path) (major minor : Int16)
  | link (p : Slot) (old new : Option Path)
  | unlink (p : Slot) (path : Option Path)
  | chdir (p : Slot) (path : Option Path)
  | exec (p : Slot) (path : Path) (reads : List (ℕ × ℕ)) (loaded built : Bool)
  | close (p : Slot) (fd : ℤ)
  | fork (p : Slot) (kstack copied : Bool)
  | exit (p : Slot)
  | reap (p : Slot)

def Event.proc : Event → Slot
  | .open p _ _ | .mkdir p _ | .mknod p _ _ _ | .link p _ _ | .unlink p _ | .chdir p _ | .exec p _ _ _ _ | .close p _
  | .fork p _ _ | .exit p | .reap p => p

def sysStep (s : Sys) (e : Event) : Option (Outcome Sys) :=
  match s.kernel.state e.proc, e with
  | .runnable, .open p path omode => some ((·.2) <$> sysOpen s p path omode)
  | .runnable, .mkdir p path => some ((·.2) <$> sysMkdir s p path)
  | .runnable, .mknod p path major minor => some ((·.2) <$> sysMknod s p path major minor)
  | .runnable, .link p old new => some ((·.2) <$> sysLink s p old new)
  | .runnable, .unlink p path => some ((·.2) <$> sysUnlink s p path)
  | .runnable, .chdir p path => some ((·.2) <$> sysChdir s p path)
  | .runnable, .exec p path reads loaded built => some ((·.2) <$> exec s p path reads loaded built)
  | .runnable, .close p fd => some ((·.2) <$> sysClose s p fd)
  | .runnable, .fork p kstack copied => some (fork s p kstack copied)
  | .runnable, .exit p => some (exit s p)
  | .zombie, .reap p => some (.ok (setKernel s (setState s.kernel p .unused)))
  | _, _ => none

def boot (init : Slot) (fs : State) : Sys where
  fs := { fs with ref := update (fun _ => 0) ROOTINO 1, valid := fun _ => false }
  kernel := OpenFiles.boot init
  cwd := update (fun _ => none) init (some ROOTINO)
  held _ := false
  begun := 0
  ended := 0

def rootEntries : List UInt8 :=
  Dirent.bytes ⟨ROOTINO, strncpy dot DIRSIZ⟩ ++ Dirent.bytes ⟨ROOTINO, strncpy dotdot DIRSIZ⟩

def rootImage : State where
  sb := ⟨64, 32, 16⟩
  bitmap b := decide (b < 33)
  dinode i := if i = ROOTINO then ⟨.dir, 0, 0, 1, 32, fun k => if k = 0 then 32 else 0⟩ else ⟨.free, 0, 0, 0, 0,
      fun _ => 0⟩
  data b := if b = 32 then fun k => rootEntries.getD k 0 else ByteMemory.zero
  inode _ := ⟨.free, 0, 0, 0, 0, fun _ => 0⟩
  valid _ := false
  ref _ := 0

end Xv6.SysFile
