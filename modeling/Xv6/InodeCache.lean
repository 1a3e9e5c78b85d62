import Xv6.Inode
import Xv6.Transition

/-!
The entries of `icache` as they are, one for each slot, with the processes that refer to them,
at the grain of the critical sections of `icache.lock` and of the accesses to the inode blocks.
-/

namespace Xv6.InodeSlots

open Transition Fs
open Function (update)

structure Entry where
  dev : ℕ
  inum : ℕ
  ref : ℕ
  valid : Bool
  copy : Dinode

inductive Phase
  | test
  -- `itrunc`, then its `iupdate`
  | truncate
  | truncated
  -- `ip->type = 0`, then `iupdate`, then `ip->valid = 0`
  | clear
  | cleared
  | invalidate
  | release
  deriving DecidableEq

inductive Pc
  | idle
  -- `ialloc` has claimed the inode and not yet called `iget`
  | iget (dev inum : ℕ)
  -- `ilock` has acquired the lock
  | load (i : Fin NINODE)
  -- a field has changed and `iupdate` comes next
  | update (i : Fin NINODE)
  | iput (i : Fin NINODE) (ph : Phase)
  -- `iput` has released the lock and not yet decremented `ref`
  | drop (i : Fin NINODE)
  deriving DecidableEq

structure Icache (P : Type) where
  entry : Fin NINODE → Entry
  lock : Fin NINODE → Option P
  dinode : ℕ → ℕ → Dinode
  pc : P → Pc
  tokens : List (P × Fin NINODE)

variable {P : Type} [DecidableEq P]

def goto (s : Icache P) (p : P) (x : Pc) : Icache P := { s with pc := update s.pc p x }

def setEntry (s : Icache P) (i : Fin NINODE) (e : Entry) : Icache P := { s with entry := update s.entry i e }

def setCopy (s : Icache P) (i : Fin NINODE) (d : Dinode) : Icache P := setEntry s i { s.entry i with copy := d }

def setLock (s : Icache P) (i : Fin NINODE) (x : Option P) : Icache P := { s with lock := update s.lock i x }

def setDinode (s : Icache P) (dev inum : ℕ) (d : Dinode) : Icache P :=
  { s with dinode := update s.dinode dev (update (s.dinode dev) inum d) }

def onDisk (s : Icache P) (i : Fin NINODE) : Dinode := s.dinode (s.entry i).dev (s.entry i).inum

def iupdate (s : Icache P) (i : Fin NINODE) : Icache P :=
  setDinode s (s.entry i).dev (s.entry i).inum (s.entry i).copy

def addRef (s : Icache P) (p : P) (i : Fin NINODE) : Icache P :=
  { setEntry s i { s.entry i with ref := (s.entry i).ref + 1 } with tokens := (p, i) :: s.tokens }

def recycle (s : Icache P) (p : P) (i : Fin NINODE) (dev inum : ℕ) : Icache P :=
  { setEntry s i { s.entry i with dev := dev, inum := inum, ref := 1, valid := false } with
    tokens := (p, i) :: s.tokens }

def lookup (s : Icache P) (dev inum : ℕ) : Option (Fin NINODE) :=
  (List.finRange NINODE).find? fun i => 0 < (s.entry i).ref ∧ (s.entry i).dev = dev ∧ (s.entry i).inum = inum

def empty (s : Icache P) : Option (Fin NINODE) := (List.finRange NINODE).find? fun i => (s.entry i).ref = 0

def iget (s : Icache P) (p : P) (dev inum : ℕ) : Outcome (Icache P) :=
  match lookup s dev inum with
  | some i => .ok (addRef s p i)
  | none =>
    match empty s with
    | some i => .ok (recycle s p i dev inum)
    | none => .error "iget: no inodes"

def bmap (alloc : ℕ → ℕ+) (d : Dinode) (bn : ℕ) : Outcome Dinode :=
  let k := if bn < NDIRECT then bn else NDIRECT
  if bn < NDIRECT ∨ bn - NDIRECT < NINDIRECT then
    .ok (if d.addrs k = 0 then { d with addrs := update d.addrs k (alloc k) } else d)
  else .error "bmap: out of range"

def blockLoop (alloc : ℕ → ℕ+) (d : Dinode) (off n : ℕ) : Outcome Dinode :=
  if n = 0 then .ok d
  else do
    let d ← bmap alloc d (off / BSIZE)
    let m := min n (BSIZE - off % BSIZE)
    blockLoop alloc d (off + m) (n - m)
termination_by n
decreasing_by
  have : off % 512 < 512 := Nat.mod_lt _ (by norm_num)
  simp only [BSIZE]
  omega

def readi (alloc : ℕ → ℕ+) (d : Dinode) (off n : ℕ) : Outcome Dinode :=
  if d.type = .dev then .ok d
  else if d.size < off ∨ 2 ^ 32 ≤ off + n then .ok d
  else blockLoop alloc d off (if d.size < off + n then d.size - off else n)

def writei (alloc : ℕ → ℕ+) (d : Dinode) (off n : ℕ) : Outcome (Bool × Dinode) :=
  if d.type = .dev then .ok (false, d)
  else if d.size < off ∨ 2 ^ 32 ≤ off + n then .ok (false, d)
  else if MAXFILE * BSIZE < off + n then .ok (false, d)
  else do
    let d ← blockLoop alloc d off n
    if 0 < n ∧ d.size < off + n then .ok (true, { d with size := off + n }) else .ok (false, d)

inductive Event (P : Type)
  | iget (p : P) (dev inum : ℕ)
  | idup (p : P) (i : Fin NINODE)
  | give (p q : P) (i : Fin NINODE)
  | ialloc (p : P) (dev inum : ℕ) (type : FType)
  | ilock (p : P) (i : Fin NINODE)
  | iunlock (p : P) (i : Fin NINODE)
  | setFields (p : P) (i : Fin NINODE) (major minor nlink : Int16)
  | readi (p : P) (i : Fin NINODE) (off n : ℕ) (alloc : ℕ → ℕ+)
  | writei (p : P) (i : Fin NINODE) (off n : ℕ) (alloc : ℕ → ℕ+)
  | iput (p : P) (i : Fin NINODE)
  | advance (p : P)

def Event.proc : Event P → P
  | .iget p _ _ | .idup p _ | .give p _ _ | .ialloc p _ _ _ | .ilock p _ | .iunlock p _ | .setFields p _ _ _ _
  | .readi p _ _ _ _ | .writei p _ _ _ _ | .iput p _ | .advance p => p

def callStep (s : Icache P) : Event P → Option (Outcome (Icache P))
  | .iget p dev inum => some (iget s p dev inum)
  | .idup p i => if (p, i) ∈ s.tokens then some (.ok (addRef s p i)) else none
  | .give p q i =>
    if (p, i) ∈ s.tokens ∧
      s.lock i ≠ some p then some (.ok { s with tokens := (q, i) :: s.tokens.erase (p, i) }) else none
  | .ialloc p dev inum type =>
    if (s.dinode dev inum).type = .free ∧ type ≠ .free then
      some (.ok (goto (setDinode s dev inum ⟨type, 0, 0, 0, 0, fun _ => 0⟩) p (.iget dev inum)))
    else none
  | .ilock p i =>
    if (p, i) ∈ s.tokens ∧ s.lock i = none then
      if (s.entry i).ref < 1 then some (.error "ilock") else some (.ok (goto (setLock s i (some p)) p (.load i)))
    else none
  | .iunlock p i => if s.lock i = some p then some (.ok (setLock s i none)) else none
  | .setFields p i major minor nlink =>
    if s.lock i = some p then
      some (.ok (goto (setCopy s i { (s.entry i).copy with major := major, minor := minor, nlink := nlink }) p
          (.update i)))
    else none
  | .readi p i off n alloc =>
    if s.lock i = some p then some do
      let d ← readi alloc (s.entry i).copy off n
      .ok (setCopy s i d)
    else none
  | .writei p i off n alloc =>
    if s.lock i = some p then some do
      let (changed, d) ← writei alloc (s.entry i).copy off n
      .ok (goto (setCopy s i d) p (if changed then .update i else .idle))
    else none
  | .iput p i =>
    if (p, i) ∈ s.tokens ∧ s.lock i = none then some (.ok (goto (setLock s i (some p)) p (.iput i .test))) else none
  | .advance _ => none

def load (s : Icache P) (p : P) (i : Fin NINODE) : Outcome (Icache P) :=
  if (s.entry i).valid then .ok (goto s p .idle)
  else if (onDisk s i).type = .free then .error "ilock: no type"
  else .ok (goto (setEntry s i { s.entry i with copy := onDisk s i, valid := true }) p .idle)

def iputStep (s : Icache P) (p : P) (i : Fin NINODE) : Phase → Icache P
  | .test =>
    let last := (s.entry i).valid ∧ (s.entry i).copy.nlink = 0 ∧ (s.entry i).ref = 1
    goto s p (.iput i (if last then .truncate else .release))
  | .truncate => goto (setCopy s i { (s.entry i).copy with size := 0, addrs := fun _ => 0 }) p (.iput i .truncated)
  | .truncated => goto (iupdate s i) p (.iput i .clear)
  | .clear => goto (setCopy s i { (s.entry i).copy with type := .free }) p (.iput i .cleared)
  | .cleared => goto (iupdate s i) p (.iput i .invalidate)
  | .invalidate => goto (setEntry s i { s.entry i with valid := false }) p (.iput i .release)
  | .release => goto (setLock s i none) p (.drop i)

def dropRef (s : Icache P) (p : P) (i : Fin NINODE) : Icache P :=
  { setEntry s i { s.entry i with ref := (s.entry i).ref - 1 } with tokens := s.tokens.erase (p, i) }

def advance (s : Icache P) (p : P) : Option (Outcome (Icache P)) :=
  match s.pc p with
  | .idle => none
  | .iget dev inum => some (iget (goto s p .idle) p dev inum)
  | .load i => some (load s p i)
  | .update i => some (.ok (goto (iupdate s i) p .idle))
  | .iput i ph => some (.ok (iputStep s p i ph))
  | .drop i => some (.ok (goto (dropRef s p i) p .idle))

def icacheStep (s : Icache P) (e : Event P) : Option (Outcome (Icache P)) :=
  match s.pc e.proc, e with
  | _, .advance p => advance s p
  | .idle, e => callStep s e
  | _, _ => none

def boot (dinode : ℕ → ℕ → Dinode) : Icache P where
  entry _ := { dev := 0, inum := 0, ref := 0, valid := false, copy := ⟨.free, 0, 0, 0, 0, fun _ => 0⟩ }
  lock _ := none
  dinode := dinode
  pc _ := .idle
  tokens := []

end Xv6.InodeSlots
