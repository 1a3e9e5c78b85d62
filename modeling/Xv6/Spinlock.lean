import Xv6.Param
import Xv6.Transition

/-!
Spinlocks, the nesting of `pushcli` and `popcli`, and `sched`, which carries `intena` from one run of a thread to the
next.
-/

namespace Xv6.Spinlock

open Transition
open Function (update)

structure Cpu where
  ncli : ℤ
  intena : Bool
  flIf : Bool

structure Lock (K : Type) where
  locked : Bool
  cpu : Option K

inductive Context
  | running
  | forkret
  | sched (intena : Bool)
  deriving DecidableEq

structure Machine (K P L : Type) where
  cpu : K → Cpu
  lock : L → Lock K
  proc : K → Option P
  context : P → Context
  isRunning : P → Bool
  before : P ⊕ K → Option Bool

def pushcli (c : Cpu) : Cpu where
  ncli := c.ncli + 1
  intena := if c.ncli = 0 then c.flIf else c.intena
  flIf := false

def popcli (c : Cpu) : Outcome Cpu :=
  if c.flIf then .error "popcli - interruptible"
  else if c.ncli - 1 < 0 then .error "popcli"
  else .ok { c with ncli := c.ncli - 1, flIf := decide (c.ncli - 1 = 0) && c.intena }

variable {K P L : Type} [DecidableEq K] [DecidableEq P] [DecidableEq L]

def setCpu (s : Machine K P L) (k : K) (c : Cpu) : Machine K P L := { s with cpu := update s.cpu k c }

def Holds (s : Machine K P L) (k : K) (l : L) : Prop := (s.lock l).locked = true ∧ (s.lock l).cpu = some k

instance (s : Machine K P L) (k : K) (l : L) : Decidable (Holds s k l) := inferInstanceAs (Decidable (_ ∧ _))

def holding (s : Machine K P L) (k : K) (l : L) : Outcome Bool :=
  if (s.lock l).locked = false then .ok false
  else if (s.cpu k).flIf then .error "mycpu called with interrupts enabled\n"
  else .ok (decide ((s.lock l).cpu = some k))

def acquire (s : Machine K P L) (k : K) (l : L) : Option (Outcome (Machine K P L)) :=
  let s := setCpu s k (pushcli (s.cpu k))
  match holding s k l with
  | .error e => some (.error e)
  | .ok true => some (.error "acquire")
  | .ok false =>
    if (s.lock l).locked then none else some (.ok { s with lock := update s.lock l ⟨true, some k⟩ })

def release (s : Machine K P L) (k : K) (l : L) : Outcome (Machine K P L) := do
  if ← holding s k l then
    let c ← popcli (s.cpu k)
    .ok { setCpu s k c with lock := update s.lock l ⟨false, none⟩ }
  else .error "release"

def myproc (s : Machine K P L) (k : K) : Outcome (Machine K P L) := do
  let c ← popcli (pushcli (s.cpu k))
  .ok (setCpu s k c)

def sched (ptable : L) (s : Machine K P L) (k : K) (p : P) : Outcome (Machine K P L) := do
  let s ← myproc s k
  if ← holding s k ptable then
    if (s.cpu k).ncli ≠ 1 then .error "sched locks"
    else if s.isRunning p then .error "sched running"
    else if (s.cpu k).flIf then .error "sched interruptible"
    else .ok { s with
      proc := update s.proc k none
      context := update s.context p (.sched (s.cpu k).intena) }
  else .error "sched ptable.lock"

def switchTo (s : Machine K P L) (k : K) (p : P) : Machine K P L :=
  { s with
    cpu := update s.cpu k
      (match s.context p with
      | .sched intena => { s.cpu k with intena := intena }
      | _ => s.cpu k)
    proc := update s.proc k (some p)
    context := update s.context p .running
    isRunning := update s.isRunning p true
    before := update s.before (.inr k) none }

def thread (s : Machine K P L) (k : K) : P ⊕ K :=
  match s.proc k with
  | some p => .inl p
  | none => .inr k

inductive Event (K P L : Type)
  | acquire (k : K) (l : L)
  | release (k : K) (l : L)
  | myproc (k : K)
  | setIf (k : K) (on : Bool)
  | setState (k : K)
  | sched (k : K)
  | switchTo (k : K) (p : P)
  | fork (p : P)

def step (ptable : L) (s : Machine K P L) : Event K P L → Option (Outcome (Machine K P L))
  | .acquire k l => (acquire s k l).map (Except.map fun t =>
    if (s.cpu k).ncli = 0 then { t with before := update s.before (thread s k) (some (s.cpu k).flIf) } else t)
  | .release k l => some ((release s k l).map fun t =>
    if (t.cpu k).ncli = 0 then { t with before := update s.before (thread s k) none } else t)
  | .myproc k => some (myproc s k)
  | .setIf k on => if (s.cpu k).ncli = 0 then some (.ok (setCpu s k { s.cpu k with flIf := on })) else none
  | .setState k => (s.proc k).map fun p => .ok { s with isRunning := update s.isRunning p false }
  | .sched k => (s.proc k).map fun p => sched ptable s k p
  | .switchTo k p =>
    if s.proc k = none ∧ Holds s k ptable ∧ s.context p ≠ .running then some (.ok (switchTo s k p)) else none
  | .fork p =>
    if s.context p ≠ .running then
      some (.ok { s with
        context := update s.context p .forkret
        before := update s.before (.inl p) none })
    else none

structure Start (s : Machine K P L) : Prop where
  ncli : ∀ k, (s.cpu k).ncli = 0
  lock : ∀ l, s.lock l = ⟨false, none⟩
  running : ∀ k p, s.proc k = some p → s.context p = .running
  one : ∀ k k' p, s.proc k = some p → s.proc k' = some p → k = k'
  before : ∀ x, s.before x = none

def held (s : Machine K P L) (k : K) : Set L := {l | Holds s k l}

end Xv6.Spinlock
