import Xv6.Param
import Xv6.Transition

namespace Xv6.SleepWakeup

open Transition
open Function (update)

inductive Lock
  | ptable
  | other
  deriving DecidableEq

inductive ProcState
  | runnable
  | running
  | sleeping
  deriving DecidableEq

inductive Mode
  | before
  | after
  | inside
  deriving DecidableEq

inductive Pc
  | idle
  -- acquire(lk); while(!cond) sleep(chan, lk); use the condition; release(lk)
  | consumerAcquire
  | test
  | sleepAcquire
  | sleepRelease
  | sleepChan
  | sleepState
  | sched
  | asleep
  | tidy
  | wakeRelease
  | wakeAcquire
  | use
  | consumerRelease
  -- acquire(lk); cond = 1; release(lk), with wakeup(chan) in one of the places of `Mode`
  | producerAcquire (m : Mode)
  | makeTrue (m : Mode)
  | wakeupAcquire (m : Mode)
  | wakeup1 (m : Mode)
  | wakeupRelease (m : Mode)
  | producerRelease (m : Mode)
  -- switched out by `yield`, and back again with `ptable.lock` still to be released
  | parked (x : Pc)
  | resumed (x : Pc)
  deriving DecidableEq

structure Sys (P K : Type) where
  locked : Lock → Option K
  proc : K → Option P
  scanning : K → Bool
  state : P → ProcState
  chan : P → Bool
  pc : P → Pc
  cond : Bool

variable {P K : Type} [DecidableEq P] [DecidableEq K]

def goto (s : Sys P K) (p : P) (x : Pc) : Sys P K := { s with pc := update s.pc p x }

def setState (s : Sys P K) (p : P) (x : ProcState) : Sys P K := { s with state := update s.state p x }

def setChan (s : Sys P K) (p : P) (b : Bool) : Sys P K := { s with chan := update s.chan p b }

def setLock (s : Sys P K) (l : Lock) (k : Option K) : Sys P K := { s with locked := update s.locked l k }

def acquire (s : Sys P K) (k : K) (l : Lock) : Option (Outcome (Sys P K)) :=
  match s.locked l with
  | none => some (.ok (setLock s l (some k)))
  | some k' => if k' = k then some (.error "acquire") else none

def release (s : Sys P K) (k : K) (l : Lock) : Outcome (Sys P K) :=
  if s.locked l = some k then .ok (setLock s l none) else .error "release"

def wakeup1 (s : Sys P K) : Sys P K :=
  { s with state := fun q => if s.state q = .sleeping ∧ s.chan q = true then .runnable else s.state q }

def swtch (s : Sys P K) (k : K) (p : P) (x : Pc) : Sys P K :=
  goto { s with proc := update s.proc k none, scanning := update s.scanning k true } p x

def sched (lk : Lock) (s : Sys P K) (k : K) (p : P) : Outcome (Sys P K) :=
  if s.locked .ptable ≠ some k then .error "sched ptable.lock"
  else if lk ≠ .ptable ∧ s.locked lk = some k then .error "sched locks"
  else if s.state p = .running then .error "sched running"
  else .ok (swtch s k p .asleep)

def sleepStart (lk : Lock) : Pc := if lk = .ptable then .sleepChan else .sleepAcquire

def sleepEnd (lk : Lock) : Pc := if lk = .ptable then .test else .wakeRelease

@[simp] def afterTrue : Mode → Pc
  | .before => .wakeupAcquire .before
  | .after => .producerRelease .after
  | .inside => .wakeup1 .inside

@[simp] def afterWakeup1 : Mode → Pc
  | .inside => .producerRelease .inside
  | m => .wakeupRelease m

@[simp] def afterWakeup : Mode → Pc
  | .before => .producerRelease .before
  | _ => .idle

@[simp] def afterRelease : Mode → Pc
  | .after => .wakeupAcquire .after
  | _ => .idle

def thenGoto (p : P) (x : Pc) : Outcome (Sys P K) → Outcome (Sys P K) := Except.map fun s => goto s p x

def procStep (lk : Lock) (s : Sys P K) (k : K) (p : P) (b : Bool) : Option (Outcome (Sys P K)) :=
  match s.pc p with
  | .consumerAcquire => (acquire s k lk).map (thenGoto p .test)
  | .test => some (.ok (goto s p (if s.cond then .use else sleepStart lk)))
  | .sleepAcquire => (acquire s k .ptable).map (thenGoto p .sleepRelease)
  | .sleepRelease => some (thenGoto p .sleepChan (release s k lk))
  | .sleepChan => some (.ok (goto (setChan s p true) p .sleepState))
  | .sleepState => some (.ok (goto (setState s p .sleeping) p .sched))
  | .sched => some (sched lk s k p)
  | .tidy => some (.ok (goto (setChan s p false) p (sleepEnd lk)))
  | .wakeRelease => some (thenGoto p .wakeAcquire (release s k .ptable))
  | .wakeAcquire => (acquire s k lk).map (thenGoto p .test)
  | .use => some (.ok (goto { s with cond := s.cond && b } p .consumerRelease))
  | .consumerRelease => some (thenGoto p .idle (release s k lk))
  | .producerAcquire m => (acquire s k lk).map (thenGoto p (.makeTrue m))
  | .makeTrue m => some (.ok (goto { s with cond := true } p (afterTrue m)))
  | .wakeupAcquire m => (acquire s k .ptable).map (thenGoto p (.wakeup1 m))
  | .wakeup1 m => some (.ok (goto (wakeup1 s) p (afterWakeup1 m)))
  | .wakeupRelease m => some (thenGoto p (afterWakeup m) (release s k .ptable))
  | .producerRelease m => some (thenGoto p (afterRelease m) (release s k lk))
  | .resumed x => some (thenGoto p x (release s k .ptable))
  | .idle | .asleep | .parked _ => none

@[simp] def Pc.holdsLk : Pc → Bool
  | .test | .sleepAcquire | .sleepRelease | .use | .consumerRelease | .makeTrue _ | .wakeupAcquire .before
  | .wakeup1 .before | .wakeup1 .inside | .wakeupRelease .before | .producerRelease _ => true
  | _ => false

@[simp] def Pc.holdsPtable : Pc → Bool
  | .sleepRelease | .sleepChan | .sleepState | .sched | .tidy | .wakeRelease | .wakeup1 .before | .wakeup1 .after
  | .wakeupRelease _ | .resumed _ => true
  | _ => false

@[simp] def Pc.switchedOut : Pc → Bool
  | .asleep | .parked _ => true
  | _ => false

def Pc.switchIn : Pc → Option Pc
  | .asleep => some .tidy
  | .parked x => some (.resumed x)
  | _ => none

inductive Event (P K : Type)
  | consume (k : K)
  | produce (k : K) (m : Mode)
  | run (k : K) (b : Bool)
  | preempt (k : K)
  | scan (k : K)
  | dispatch (k : K) (p : P)
  | endScan (k : K)

def start (s : Sys P K) (k : K) (x : Pc) : Option (Outcome (Sys P K)) :=
  match s.proc k with
  | some p => if s.pc p = .idle then some (.ok (goto s p x)) else none
  | none => none

def preempt (s : Sys P K) (k : K) (p : P) : Option (Outcome (Sys P K)) :=
  if (s.pc p).holdsLk = false ∧ (s.pc p).holdsPtable = false ∧ (s.pc p).switchedOut = false then
    (acquire s k .ptable).map (Except.map fun s => swtch (setState s p .runnable) k p (.parked (s.pc p)))
  else none

def dispatch (s : Sys P K) (k : K) (p : P) : Option (Outcome (Sys P K)) :=
  if s.proc k = none ∧ s.scanning k = true ∧ s.state p = .runnable then
    (s.pc p).switchIn.map fun x => .ok (goto { setState s p .running with proc := update s.proc k (some p) } p x)
  else none

def scan (s : Sys P K) (k : K) : Option (Outcome (Sys P K)) :=
  if s.proc k = none ∧ s.scanning k = false then
    (acquire s k .ptable).map (Except.map fun s => { s with scanning := update s.scanning k true })
  else none

def endScan (s : Sys P K) (k : K) : Option (Outcome (Sys P K)) :=
  if s.proc k = none ∧ s.scanning k = true then
    some ((release s k .ptable).map fun s => { s with scanning := update s.scanning k false })
  else none

def step (lk : Lock) (s : Sys P K) : Event P K → Option (Outcome (Sys P K))
  | .consume k => start s k .consumerAcquire
  | .produce k m => if m = .inside ∧ lk ≠ .ptable then none else start s k (.producerAcquire m)
  | .run k b =>
    match s.proc k with
    | some p => procStep lk s k p b
    | none => none
  | .preempt k =>
    match s.proc k with
    | some p => preempt s k p
    | none => none
  | .scan k => scan s k
  | .dispatch k p => dispatch s k p
  | .endScan k => endScan s k

def boot (cond : Bool) : Sys P K :=
  ⟨fun _ => none, fun _ => none, fun _ => false, fun _ => .runnable, fun _ => false, fun _ => .parked .idle, cond⟩

end Xv6.SleepWakeup
