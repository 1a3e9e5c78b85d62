import Xv6.ProcTable

/-!
The CPUs, each in its `scheduler` or in the process it runs, and the code of `proc.c` that holds `ptable.lock`, a
statement at a time.
-/

namespace Xv6.Scheduler

open ProcTable (ProcState Slot)
open Function (update)

inductive Chan
  | proc (p : Slot)
  | other (a : ℕ)
  deriving DecidableEq

structure Proc where
  state : ProcState
  pid : Int32
  parent : Option Slot
  chan : Option Chan
  killed : Bool
  kstack : Bool
  pgdir : Bool

inductive Call
  | yield
  | sleep (chan : Chan)
  | exit
  | wait
  | wakeup (chan : Chan)
  | kill (pid : Int32)
  | allocproc
  | forkRun (np : Slot)
  deriving DecidableEq

inductive Resume
  | release
  | tidy
  | again
  | zombie
  deriving DecidableEq

inductive Pc
  | user
  | acquire (c : Call)
  | setChan (chan : Chan) (r : Resume)
  | setState (st : ProcState) (r : Resume)
  | sched (r : Resume)
  | out (r : Resume)
  | tidy (again : Bool)
  | exitWake
  | exitReparent
  | zombieExit
  | waitScan
  | freeStack (c : Slot)
  | freeVm (c : Slot)
  | freeSlot (c : Slot)
  | wakeup1 (chan : Chan)
  | kill1 (pid : Int32)
  | alloc
  | setRunnable (np : Slot)
  | release
  deriving DecidableEq

inductive Place
  | idle
  | intr (chan : Chan)
  | intrRelease
  | scan (i : ℕ)
  | setProc (p : Slot)
  | setRunning (p : Slot)
  | switchIn (p : Slot)
  | inProc (p : Slot)
  | back (p : Slot)
  deriving DecidableEq

structure Sys (K : Type) where
  lock : Option K
  proc : Slot → Proc
  nextpid : Int32
  initproc : Slot
  cproc : K → Option Slot
  place : K → Place
  pc : Slot → Pc
  forking : Slot → Option Slot

variable {K : Type} [DecidableEq K]

def goto (s : Sys K) (p : Slot) (x : Pc) : Sys K := { s with pc := update s.pc p x }

def jump (s : Sys K) (k : K) (x : Place) : Sys K := { s with place := update s.place k x }

def setProc (s : Sys K) (p : Slot) (x : Proc) : Sys K := { s with proc := update s.proc p x }

def setState (s : Sys K) (p : Slot) (st : ProcState) : Sys K := setProc s p { s.proc p with state := st }

def acquire (s : Sys K) (k : K) : Option (Outcome (Sys K)) :=
  match s.lock with
  | none => some (.ok { s with lock := some k })
  | some k' => if k' = k then some (.error "acquire") else none

def release (s : Sys K) (k : K) : Outcome (Sys K) :=
  if s.lock = some k then .ok { s with lock := none } else .error "release"

def findSlot (s : Sys K) (f : Proc → Bool) : Option Slot := (List.finRange NPROC).find? (fun i => f (s.proc i))

def wakeup1 (s : Sys K) (chan : Chan) : Sys K :=
  { s with proc := fun q =>
      if (s.proc q).state = .sleeping ∧ (s.proc q).chan = some chan then { s.proc q with state := .runnable }
      else s.proc q }

def kill (s : Sys K) (pid : Int32) : Sys K :=
  match findSlot s (fun p => p.pid = pid) with
  | some q =>
    setProc s q { s.proc q with
      killed := true
      state := if (s.proc q).state = .sleeping then .runnable else (s.proc q).state }
  | none => s

def reparent (p : Slot) (s : Sys K) (q : Slot) : Sys K :=
  if (s.proc q).parent = some p then
    let t := setProc s q { s.proc q with parent := some s.initproc }
    if (s.proc q).state = .zombie then wakeup1 t (.proc s.initproc) else t
  else s

def exitWake (s : Sys K) (p : Slot) : Sys K :=
  match (s.proc p).parent with
  | some q => wakeup1 s (.proc q)
  | none => s

def waitScan (s : Sys K) (p : Slot) : Pc :=
  match findSlot s (fun q => q.parent = some p ∧ q.state = .zombie) with
  | some c => .freeStack c
  | none =>
    if findSlot s (fun q => q.parent = some p) = none ∨ (s.proc p).killed then .release else .setChan (.proc p) .again

def alloc (s : Sys K) (p : Slot) : Sys K :=
  match findSlot s (fun q => q.state = .unused) with
  | some np =>
    { setProc s np { s.proc np with state := .embryo, pid := s.nextpid } with
      nextpid := s.nextpid + 1, forking := update s.forking p (some np) }
  | none => s

def sched (s : Sys K) (k : K) (p : Slot) (r : Resume) : Outcome (Sys K) :=
  if s.lock ≠ some k then .error "sched ptable.lock"
  else if (s.proc p).state = .running then .error "sched running"
  else .ok (jump (goto s p (.out r)) k (.back p))

def Call.body : Call → Pc
  | .yield => .setState .runnable .release
  | .sleep chan => .setChan chan .tidy
  | .exit => .exitWake
  | .wait => .waitScan
  | .wakeup chan => .wakeup1 chan
  | .kill pid => .kill1 pid
  | .allocproc => .alloc
  | .forkRun np => .setRunnable np

def Resume.pc : Resume → Pc
  | .release => .release
  | .tidy => .tidy false
  | .again => .tidy true
  | .zombie => .zombieExit

def procStep (s : Sys K) (k : K) (p : Slot) : Option (Outcome (Sys K)) :=
  match s.pc p with
  | .user => none
  | .acquire c => (acquire s k).map (Except.map fun s => goto s p c.body)
  | .setChan chan r => some (.ok (goto (setProc s p { s.proc p with chan := some chan }) p (.setState .sleeping r)))
  | .setState st r => some (.ok (goto (setState s p st) p (.sched r)))
  | .sched r => some (sched s k p r)
  | .out _ => none
  | .tidy again =>
    some (.ok (goto (setProc s p { s.proc p with chan := none }) p (if again then .waitScan else .release)))
  | .exitWake => some (.ok (goto (exitWake s p) p .exitReparent))
  | .exitReparent => some (.ok (goto ((List.finRange NPROC).foldl (reparent p) s) p (.setState .zombie .zombie)))
  | .zombieExit => some (.error "zombie exit")
  | .waitScan => some (.ok (goto s p (waitScan s p)))
  | .freeStack c => some (.ok (goto (setProc s c { s.proc c with kstack := false }) p (.freeVm c)))
  | .freeVm c => some (.ok (goto (setProc s c { s.proc c with pgdir := false }) p (.freeSlot c)))
  | .freeSlot c =>
    some (.ok (goto (setProc s c { s.proc c with pid := 0, parent := none, killed := false, state := .unused }) p
      .release))
  | .wakeup1 chan => some (.ok (goto (wakeup1 s chan) p .release))
  | .kill1 pid => some (.ok (goto (kill s pid) p .release))
  | .alloc => some (.ok (goto (alloc s p) p .release))
  | .setRunnable np =>
    some (.ok (goto { setState s np .runnable with forking := update s.forking p none } p .release))
  | .release => some ((release s k).map fun s => goto s p .user)

def schedStep (s : Sys K) (k : K) : Option (Outcome (Sys K)) :=
  match s.place k with
  | .idle => (acquire s k).map (Except.map fun s => jump s k (.scan 0))
  | .intr chan => some (.ok (jump (wakeup1 s chan) k .intrRelease))
  | .intrRelease => some ((release s k).map fun s => jump s k .idle)
  | .scan i =>
    if h : i < NPROC then
      some (.ok (jump s k (if (s.proc ⟨i, h⟩).state = .runnable then .setProc ⟨i, h⟩ else .scan (i + 1))))
    else some ((release s k).map fun s => jump s k .idle)
  | .setProc p => some (.ok (jump { s with cproc := update s.cproc k (some p) } k (.setRunning p)))
  | .setRunning p => some (.ok (jump (setState s p .running) k (.switchIn p)))
  | .switchIn p =>
    match s.pc p with
    | .out r => some (.ok (jump (goto s p r.pc) k (.inProc p)))
    | _ => none
  | .inProc _ => none
  | .back p => some (.ok (jump { s with cproc := update s.cproc k none } k (.scan (p + 1))))

inductive Event (K : Type)
  | sched (k : K)
  | intr (k : K) (chan : Chan)
  | call (k : K) (c : Call)
  | run (k : K)
  | forkCopy (k : K) (ok : Bool)

def current (s : Sys K) (k : K) : Option Slot :=
  match s.place k with
  | .inProc p => some p
  | _ => none

def startCall (s : Sys K) (p : Slot) (c : Call) : Option (Outcome (Sys K)) :=
  if s.pc p ≠ .user then none
  else match c with
    | .yield => some (.ok (goto s p (.acquire .yield)))
    | .wakeup chan => some (.ok (goto s p (.acquire (.wakeup chan))))
    | .forkRun _ => none
    | c =>
      if s.forking p ≠ none then none
      else if c = .exit ∧ p = s.initproc then some (.error "init exiting")
      else some (.ok (goto s p (.acquire c)))

def forkCopy (s : Sys K) (p np : Slot) (ok : Bool) : Sys K :=
  if ok then
    goto (goto (setProc s np { s.proc np with kstack := true, pgdir := true, parent := some p }) np (.out .release)) p
      (.acquire (.forkRun np))
  else { setProc s np { s.proc np with kstack := false, state := .unused } with
    forking := update s.forking p none }

def cpuStep (s : Sys K) : Event K → Option (Outcome (Sys K))
  | .sched k => schedStep s k
  | .intr k chan =>
    if s.place k = .idle then (acquire s k).map (Except.map fun s => jump s k (.intr chan)) else none
  | .call k c => (current s k).bind fun p => startCall s p c
  | .run k => (current s k).bind fun p => procStep s k p
  | .forkCopy k ok => (current s k).bind fun p =>
    match s.pc p, s.forking p with
    | .user, some np => some (.ok (forkCopy s p np ok))
    | _, _ => none

def empty : Proc := ⟨.unused, 0, none, none, false, false, false⟩

def boot : Sys K where
  lock := none
  proc := update (fun _ => empty) ⟨0, NPROC_pos⟩ ⟨.runnable, 1, none, none, false, true, true⟩
  nextpid := 2
  initproc := ⟨0, NPROC_pos⟩
  cproc := fun _ => none
  place := fun _ => .idle
  pc := fun _ => .out .release
  forking := fun _ => none

end Xv6.Scheduler
