import Xv6.LinkedQueue
import Xv6.MemIde
import Xv6.Transition

namespace Xv6.IdeDriver

open ByteMemory LinkedRing MemIde Transition
open Function (update)

inductive Pc (B : Type)
  | idle
  | waiting (b : B)
  | asleep (b : B)
  deriving DecidableEq

inductive Device
  | idle
  | busy (blockno : ℕ) (write : Option Bytes)
  | done (data : Bytes)

structure Ide (P B : Type) where
  buf : B → Buf
  lock : B → Option P
  next : Pointers B
  disk : Disk
  device : Device
  pc : P → Pc B
  queued : List B
  started : List B
  completed : List B
  handled : List B

variable {P B : Type} [DecidableEq P] [DecidableEq B]

def command (b : Buf) : Device := .busy b.blockno (if b.dirty then some b.data else none)

def idestart (s : Ide P B) : Option B → Outcome (Ide P B)
  | none => .error "idestart"
  | some b =>
    if FSSIZE ≤ (s.buf b).blockno then .error "incorrect blockno"
    else .ok { s with device := command (s.buf b), started := s.started ++ [b] }

def Finished (b : Buf) : Prop := b.valid = true ∧ b.dirty = false

instance (b : Buf) : Decidable (Finished b) := inferInstanceAs (Decidable (_ ∧ _))

def wakeup (s : Ide P B) (b : B) : Ide P B :=
  { s with pc := fun q => if s.pc q = .asleep b then .waiting b else s.pc q }

def await (s : Ide P B) (p : P) (b : B) : Ide P B :=
  { s with pc := update s.pc p (if Finished (s.buf b) then .idle else .asleep b) }

def enqueue [Fintype B] (s : Ide P B) (b : B) : Ide P B :=
  { s with next := push s.next (Fintype.card B) b, queued := s.queued ++ [b] }

def startFirst (s : Ide P B) (b : B) : Outcome (Ide P B) :=
  if s.next none = some b then idestart s (some b) else .ok s

def iderw [Fintype B] (havedisk1 : Bool) (s : Ide P B) (p : P) (b : B) : Outcome (Ide P B) :=
  if s.lock b = none then .error "iderw: buf not locked"
  else if Finished (s.buf b) then .error "iderw: nothing to do"
  else if (s.buf b).dev ≠ 0 ∧ havedisk1 = false then .error "iderw: ide disk 1 not present"
  else do
    let s ← startFirst (enqueue s b) b
    .ok (await s p b)

def finish (data : Bytes) (b : Buf) : Buf :=
  { b with data := if b.dirty then b.data else data, valid := true, dirty := false }

def complete (s : Ide P B) (data : Bytes) (b : B) : Ide P B :=
  wakeup { s with next := pop s.next b, buf := update s.buf b (finish data (s.buf b)), device := .idle
                  handled := s.handled ++ [b] } b

def ideintr (s : Ide P B) (data : Bytes) : Outcome (Ide P B) :=
  match s.next none with
  | none => .ok s
  | some b =>
    let s := complete s data b
    match s.next none with
    | none => .ok s
    | some c => idestart s (some c)

inductive Event (P B : Type)
  | acquiresleep (p : P) (b : B)
  | releasesleep (p : P) (b : B)
  | change (p : P) (b : B) (x : Buf)
  | iderw (p : P) (b : B)
  | advance (p : P)
  | kill (p : P)
  | serve
  | interrupt

def served (s : Ide P B) (disk : Disk) (data : Bytes) : Ide P B :=
  { s with disk := disk, device := .done data, completed := s.completed ++ (s.next none).toList }

def serve (s : Ide P B) : Option (Ide P B) :=
  match s.device with
  | .busy n (some data) => some (served s (update s.disk n data) data)
  | .busy n none => some (served s s.disk (s.disk n))
  | _ => none

def ideStep [Fintype B] (havedisk1 : Bool) (s : Ide P B) : Event P B → Option (Outcome (Ide P B))
  | .acquiresleep p b =>
    if s.pc p = .idle ∧ s.lock b = none then some (.ok { s with lock := update s.lock b (some p) }) else none
  | .releasesleep p b =>
    if s.pc p = .idle ∧ s.lock b = some p then some (.ok { s with lock := update s.lock b none }) else none
  | .change p b x =>
    if s.pc p = .idle ∧ s.lock b = some p then some (.ok { s with buf := update s.buf b x }) else none
  | .iderw p b =>
    if s.pc p = .idle ∧ s.lock b = some p ∧ (s.buf b).dev = 1 then some (iderw havedisk1 s p b) else none
  | .advance p =>
    match s.pc p with
    | .waiting b => some (.ok (await s p b))
    | _ => none
  | .kill p =>
    match s.pc p with
    | .asleep b => some (.ok { s with pc := update s.pc p (.waiting b) })
    | _ => none
  | .serve => (serve s).map .ok
  | .interrupt =>
    match s.device with
    | .done data => some (ideintr s data)
    | _ => none

def boot (disk : Disk) (buf : B → Buf) : Ide P B where
  buf := buf
  lock _ := none
  next _ := none
  disk := disk
  device := .idle
  pc _ := .idle
  queued := []
  started := []
  completed := []
  handled := []

structure Mem (B : Type) where
  buf : B → Buf
  disk : Disk

inductive MemEvent (B : Type)
  | change (b : B) (x : Buf)
  | iderw (b : B)

def memStep (s : Mem B) : MemEvent B → Option (Outcome (Mem B))
  | .change b x => some (.ok { s with buf := update s.buf b x })
  | .iderw b => some do
    let (disk, x) ← MemIde.iderw FSSIZE true s.disk (s.buf b)
    .ok { buf := update s.buf b x, disk := disk }

def view (s : Ide P B) : Mem B :=
  match s.device, s.next none with
  | .done data, some b => { buf := update s.buf b (finish data (s.buf b)), disk := s.disk }
  | _, _ => { buf := s.buf, disk := s.disk }

def synchronous (s : Ide P B) : Event P B → List (MemEvent B)
  | .change _ b x => [.change b x]
  | .serve => (s.next none).toList.map .iderw
  | _ => []

def trace [Fintype B] (havedisk1 : Bool) : Ide P B → List (Event P B) → List (MemEvent B)
  | _, [] => []
  | s, e :: es =>
    synchronous s e ++
      match ideStep havedisk1 s e with
      | some (.ok t) => trace havedisk1 t es
      | _ => []

end Xv6.IdeDriver
