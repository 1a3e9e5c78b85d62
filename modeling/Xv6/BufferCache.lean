import Xv6.LinkedRing
import Xv6.MemIde
import Xv6.Transition

namespace Xv6.Bio

open ByteMemory LinkedRing MemIde
open Function (update)

inductive Pc
  | idle
  -- `bget` has released `bcache.lock` and not yet passed `acquiresleep(&b->lock)`
  | waiting (i : Fin NBUF) (blockno : ℕ)
  -- `bget` has returned to `bread`
  | locked (i : Fin NBUF) (blockno : ℕ)
  -- `brelse` has passed `releasesleep(&b->lock)` and not yet acquired `bcache.lock`
  | releasing (i : Fin NBUF)
  deriving DecidableEq

structure Bcache (P : Type) where
  buf : Fin NBUF → Buf
  next : Pointers (Fin NBUF)
  prev : Pointers (Fin NBUF)
  lock : Fin NBUF → Option P
  disk : Disk
  pc : P → Pc
  touched : Fin NBUF → Bool
  last : Disk

variable {P : Type} [DecidableEq P]

def goto (s : Bcache P) (p : P) (x : Pc) : Bcache P := { s with pc := update s.pc p x }

def setBuf (s : Bcache P) (i : Fin NBUF) (b : Buf) : Bcache P := { s with buf := update s.buf i b }

def link (s : Bcache P) (q : Pointers (Fin NBUF) × Pointers (Fin NBUF)) : Bcache P :=
  { s with next := q.1, prev := q.2 }

def cached (s : Bcache P) (dev blockno : ℕ) : Option (Fin NBUF) :=
  (walk s.next NBUF (s.next none)).find? fun i => (s.buf i).dev = dev ∧ (s.buf i).blockno = blockno

def unused (s : Bcache P) : Option (Fin NBUF) :=
  (walk s.prev NBUF (s.prev none)).find? fun i => (s.buf i).refcnt = 0 ∧ (s.buf i).dirty = false

def incref (b : Buf) : Buf := { b with refcnt := b.refcnt + 1 }

def decref (b : Buf) : Buf := { b with refcnt := b.refcnt - 1 }

def recycle (dev blockno : ℕ) (b : Buf) : Buf :=
  { b with dev := dev, blockno := blockno, valid := false, dirty := false, refcnt := 1 }

def bget (s : Bcache P) (p : P) (dev blockno : ℕ) : Outcome (Bcache P) :=
  match cached s dev blockno with
  | some i => .ok (goto (setBuf s i (incref (s.buf i))) p (.waiting i blockno))
  | none =>
    match unused s with
    | some i => .ok (goto (setBuf s i (recycle dev blockno (s.buf i))) p (.waiting i blockno))
    | none => .error "bget: no buffers"

variable (disksize : ℕ)

def diskRw (s : Bcache P) (i : Fin NBUF) : Outcome (Bcache P) := do
  let (disk, b) ← iderw disksize (s.lock i).isSome s.disk (s.buf i)
  .ok (setBuf { s with disk := disk } i b)

def breadRest (s : Bcache P) (p : P) (i : Fin NBUF) : Outcome (Bcache P) := do
  let s ← if (s.buf i).valid then .ok s else diskRw disksize s i
  .ok (goto s p .idle)

def modify (s : Bcache P) (i : Fin NBUF) (data : Bytes) : Bcache P :=
  { setBuf s i { s.buf i with data := data } with touched := update s.touched i true }

def record (s : Bcache P) (i : Fin NBUF) : Bcache P :=
  { s with last := update s.last (s.buf i).blockno (s.buf i).data, touched := update s.touched i false }

def pin (s : Bcache P) (i : Fin NBUF) : Bcache P := setBuf s i { s.buf i with dirty := true }

def bwrite (s : Bcache P) (i : Fin NBUF) : Outcome (Bcache P) :=
  if s.lock i = none then .error "bwrite" else diskRw disksize (record (pin s i) i) i

def logWrite (s : Bcache P) (i : Fin NBUF) : Bcache P := record (pin s i) i

def brelse (s : Bcache P) (p : P) (i : Fin NBUF) : Outcome (Bcache P) :=
  if s.lock i = none then .error "brelse"
  else .ok (goto { s with lock := update s.lock i none } p (.releasing i))

def moveToFront (s : Bcache P) (i : Fin NBUF) : Bcache P :=
  let q := unlink s.next s.prev i
  link s (insert q.1 q.2 i)

def brelseRest (s : Bcache P) (p : P) (i : Fin NBUF) : Bcache P :=
  let t := setBuf s i (decref (s.buf i))
  goto (if (t.buf i).refcnt = 0 then moveToFront t i else t) p .idle

inductive Event (P : Type)
  | bread (p : P) (blockno : ℕ)
  | modify (p : P) (i : Fin NBUF) (data : Bytes)
  | bwrite (p : P) (i : Fin NBUF)
  | logWrite (p : P) (i : Fin NBUF)
  | brelse (p : P) (i : Fin NBUF)
  | advance (p : P)

def owns (s : Bcache P) (p : P) (i : Fin NBUF) : Prop := s.pc p = .idle ∧ s.lock i = some p

instance (s : Bcache P) (p : P) (i : Fin NBUF) : Decidable (owns s p i) := inferInstanceAs (Decidable (_ ∧ _))

def advance (s : Bcache P) (p : P) : Option (Outcome (Bcache P)) :=
  match s.pc p with
  | .idle => none
  | .waiting i n =>
    if s.lock i = none then some (.ok (goto { s with lock := update s.lock i (some p) } p (.locked i n))) else none
  | .locked i _ => some (breadRest disksize s p i)
  | .releasing i => some (.ok (brelseRest s p i))

def bioStep (s : Bcache P) : Event P → Option (Outcome (Bcache P))
  | .bread p n => if s.pc p = .idle then some (bget s p ROOTDEV n) else none
  | .modify p i data => if owns s p i then some (.ok (modify s i data)) else none
  | .bwrite p i => if owns s p i then some (bwrite disksize s i) else none
  | .logWrite p i => if owns s p i then some (.ok (logWrite s i)) else none
  | .brelse p i => if owns s p i then some (brelse s p i) else none
  | .advance p => advance disksize s p

def binit : Pointers (Fin NBUF) × Pointers (Fin NBUF) :=
  (List.finRange NBUF).foldl (fun q i => insert q.1 q.2 i) (fun _ => none, fun _ => none)

def boot (disk : Disk) : Bcache P where
  buf _ := { valid := false, dirty := false, dev := 0, blockno := 0, refcnt := 0, data := zero }
  next := binit.1
  prev := binit.2
  lock _ := none
  disk := disk
  pc _ := .idle
  touched _ := false
  last := disk

end Xv6.Bio
