import Xv6.Param
import Xv6.Transition

namespace Xv6.PipeCalls

open Transition

def PIPESIZE : ℕ := 512

structure Pipe where
  data : ℕ → UInt8
  nread : UInt32
  nwrite : UInt32
  readopen : Bool
  writeopen : Bool

def Pipe.isFull (p : Pipe) : Prop := p.nwrite = p.nread + UInt32.ofNat PIPESIZE

def Pipe.isEmpty (p : Pipe) : Prop := p.nread = p.nwrite

instance (p : Pipe) : Decidable p.isFull := inferInstanceAs (Decidable (_ = _))

instance (p : Pipe) : Decidable p.isEmpty := inferInstanceAs (Decidable (_ = _))

def Pipe.put (p : Pipe) (b : UInt8) : Pipe :=
  { p with data := Function.update p.data (p.nwrite.toNat % PIPESIZE) b, nwrite := p.nwrite + 1 }

def Pipe.front (p : Pipe) : UInt8 := p.data (p.nread.toNat % PIPESIZE)

def Pipe.drop (p : Pipe) : Pipe := { p with nread := p.nread + 1 }

def Pipe.closeEnd (p : Pipe) (writable : Bool) : Pipe :=
  if writable then { p with writeopen := false } else { p with readopen := false }

inductive Chan
  | nread
  | nwrite
  deriving DecidableEq

inductive Pc
  | idle
  -- spinning in `acquire(&p->lock)`, at the start of a call or at the end of `sleep`
  | lockWrite (src : List UInt8)
  | lockRead (n : ℕ)
  | lockClose (writable : Bool)
  -- holding `p->lock`
  | write (src : List UInt8) (stored : ℕ)
  | sleepWrite (src : List UInt8)
  | read (n : ℕ)
  | copy (n : ℕ)
  | close (writable : Bool)
  | leave
  -- SLEEPING
  | asleepWrite (src : List UInt8)
  | asleepRead (n : ℕ)
  deriving DecidableEq

def Pc.holding : Pc → Bool
  | .write .. | .sleepWrite _ | .read _ | .copy _ | .close _ | .leave => true
  | _ => false

def Pc.chan : Pc → Option Chan
  | .asleepWrite _ => some .nwrite
  | .asleepRead _ => some .nread
  | _ => none

def Pc.resume : Pc → Pc
  | .asleepWrite src => .lockWrite src
  | .asleepRead n => .lockRead n
  | x => x

structure Sys (P : Type) where
  pipe : Pipe
  lock : Option P
  pc : P → Pc
  killed : P → Bool
  stored : List UInt8
  delivered : List UInt8

variable {P : Type} [DecidableEq P]

def goto (s : Sys P) (p : P) (x : Pc) : Sys P := { s with pc := Function.update s.pc p x }

def release (s : Sys P) : Sys P := { s with lock := none }

def wakeup (s : Sys P) (chan : Chan) : Sys P :=
  { s with pc := fun q => if (s.pc q).chan = some chan then (s.pc q).resume else s.pc q }

def kill (s : Sys P) (q : P) : Sys P :=
  goto { s with killed := Function.update s.killed q true } q (s.pc q).resume

def writeByte (s : Sys P) (p : P) (b : UInt8) (src : List UInt8) (stored : ℕ) : Sys P :=
  if s.pipe.isFull then
    if s.pipe.readopen = false ∨ s.killed p = true then release (goto s p .idle)
    else goto (wakeup s .nread) p (.sleepWrite (b :: src))
  else goto { s with pipe := s.pipe.put b, stored := s.stored ++ [b] } p (.write src (stored + 1))

def readTest (s : Sys P) (p : P) (n : ℕ) : Sys P :=
  if s.pipe.isEmpty ∧ s.pipe.writeopen = true then
    if s.killed p = true then release (goto s p .idle) else release (goto s p (.asleepRead n))
  else goto s p (.copy n)

def readByte (s : Sys P) (p : P) (n : ℕ) : Sys P :=
  if n = 0 ∨ s.pipe.isEmpty then goto (wakeup s .nwrite) p .leave
  else goto { s with pipe := s.pipe.drop, delivered := s.delivered ++ [s.pipe.front] } p (.copy (n - 1))

def closeEnd (s : Sys P) (p : P) (writable : Bool) : Sys P :=
  goto (wakeup { s with pipe := s.pipe.closeEnd writable } (if writable then .nread else .nwrite)) p .leave

def holderStep (s : Sys P) (p : P) : Option (Sys P) :=
  match s.pc p with
  | .write (b :: src) stored => some (writeByte s p b src stored)
  | .write [] _ => some (goto (wakeup s .nread) p .leave)
  | .sleepWrite src => some (release (goto s p (.asleepWrite src)))
  | .read n => some (readTest s p n)
  | .copy n => some (readByte s p n)
  | .close writable => some (closeEnd s p writable)
  | .leave => some (release (goto s p .idle))
  | _ => none

inductive Event (P : Type)
  | write (p : P) (src : List UInt8)
  | read (p : P) (n : ℕ)
  | close (p : P) (writable : Bool)
  | acquire (p : P)
  | advance (p : P)
  | kill (p : P)
  deriving DecidableEq

def call (s : Sys P) (p : P) (x : Pc) : Option (Outcome (Sys P)) :=
  if s.pc p = .idle then some (.ok (goto s p x)) else none

def acquire (s : Sys P) (p : P) (x : Pc) : Option (Outcome (Sys P)) :=
  if s.lock = none then some (.ok (goto { s with lock := some p } p x)) else none

def pipeStep (s : Sys P) : Event P → Option (Outcome (Sys P))
  | .write p src => call s p (.lockWrite src)
  | .read p n => call s p (.lockRead n)
  | .close p writable => call s p (.lockClose writable)
  | .acquire p =>
    match s.pc p with
    | .lockWrite src => acquire s p (.write src 0)
    | .lockRead n => acquire s p (.read n)
    | .lockClose writable => acquire s p (.close writable)
    | _ => none
  | .advance p => if s.lock = some p then (holderStep s p).map .ok else none
  | .kill p => some (.ok (kill s p))

def opened (data : ℕ → UInt8) : Sys P :=
  ⟨⟨data, 0, 0, true, true⟩, none, fun _ => .idle, fun _ => false, [], []⟩

end Xv6.PipeCalls
