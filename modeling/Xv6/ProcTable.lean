import Xv6.Param
import Xv6.Transition

namespace Xv6.ProcTable

open Transition

inductive ProcState
  | unused
  | embryo
  | sleeping
  | runnable
  | running
  | zombie
  deriving DecidableEq

abbrev Slot := Fin NPROC

structure Proc where
  state : ProcState
  pid : Int32
  parent : Option Slot
  chan : Option Slot
  killed : Bool
  kstack : Bool
  deriving DecidableEq

inductive Thread
  | user
  | allocated (np : Slot)
  | stacked (np : Slot)
  | copied (np : Slot)
  | waiting
  deriving DecidableEq

structure Ptable where
  proc : Slot → Proc
  thread : Slot → Thread
  nextpid : Int32
  initproc : Slot

def Ptable.set (t : Ptable) (i : Slot) (p : Proc) : Ptable := { t with proc := Function.update t.proc i p }

def Ptable.goto (t : Ptable) (c : Slot) (x : Thread) : Ptable := { t with thread := Function.update t.thread c x }

@[simp] theorem Ptable.set_thread (t : Ptable) (i : Slot) (p : Proc) : (t.set i p).thread = t.thread := rfl

@[simp] theorem Ptable.goto_proc (t : Ptable) (c : Slot) (x : Thread) : (t.goto c x).proc = t.proc := rfl

theorem Ptable.set_proc (t : Ptable) (i j : Slot) (p : Proc) :
    (t.set i p).proc j = if j = i then p else t.proc j := by
  simp [Ptable.set, Function.update_apply]

def findSlot (t : Ptable) (f : Proc → Bool) : Option Slot := (List.finRange NPROC).find? (fun i => f (t.proc i))

def allocproc (t : Ptable) (c : Slot) : Ptable :=
  match findSlot t (fun p => p.state = .unused) with
  | none => t
  | some i =>
    { (t.set i { t.proc i with state := .embryo, pid := t.nextpid }).goto c (.allocated i) with
      nextpid := t.nextpid + 1 }

def allocStack (t : Ptable) (c np : Slot) (ok : Bool) : Ptable :=
  if ok then (t.set np { t.proc np with kstack := true }).goto c (.stacked np)
  else (t.set np { t.proc np with kstack := false, state := .unused }).goto c .user

def forkCopy (t : Ptable) (c np : Slot) (ok : Bool) : Ptable :=
  if ok then (t.set np { t.proc np with parent := some c }).goto c (.copied np)
  else (t.set np { t.proc np with kstack := false, state := .unused }).goto c .user

def forkRun (t : Ptable) (c np : Slot) : Ptable :=
  (t.set np { t.proc np with state := .runnable }).goto c .user

def wakeup1 (chan : Slot) (p : Proc) : Proc :=
  if p.state = .sleeping ∧ p.chan = some chan then { p with state := .runnable } else p

def wakeupAll (t : Ptable) (chan : Slot) : Ptable := { t with proc := fun i => wakeup1 chan (t.proc i) }

def reparent (c : Slot) (t : Ptable) (i : Slot) : Ptable :=
  if (t.proc i).parent = some c then
    let t' := t.set i { t.proc i with parent := some t.initproc }
    if (t.proc i).state = .zombie then wakeupAll t' t.initproc else t'
  else t

def exit (t : Ptable) (c : Slot) : Outcome Ptable :=
  if c = t.initproc then .error "init exiting"
  else
    let t1 := match (t.proc c).parent with
      | some q => wakeupAll t q
      | none => t
    let t2 := (List.finRange NPROC).foldl (reparent c) t1
    .ok (t2.set c { t2.proc c with state := .zombie })

def wait (t : Ptable) (c : Slot) : Ptable × Option Int32 :=
  let t := t.set c { t.proc c with chan := none }
  match findSlot t (fun p => p.parent = some c ∧ p.state = .zombie) with
  | some i =>
    ((t.set i { t.proc i with kstack := false, pid := 0, parent := none, killed := false, state := .unused }).goto
      c .user, some (t.proc i).pid)
  | none =>
    if findSlot t (fun p => p.parent = some c) = none ∨ (t.proc c).killed then (t.goto c .user, some (-1))
    else ((t.set c { t.proc c with chan := some c, state := .sleeping }).goto c .waiting, none)

def kill (t : Ptable) (pid : Int32) : Ptable × Int32 :=
  match findSlot t (fun p => p.pid = pid) with
  | some i =>
    (t.set i { t.proc i with
      killed := true
      state := if (t.proc i).state = .sleeping then .runnable else (t.proc i).state }, 0)
  | none => (t, -1)

inductive Event
  | schedule (c : Slot)
  | yield (c : Slot)
  | allocproc (c : Slot)
  | allocStack (c : Slot) (ok : Bool)
  | forkCopy (c : Slot) (ok : Bool)
  | forkRun (c : Slot)
  | exit (c : Slot)
  | wait (c : Slot)
  | kill (c : Slot) (pid : Int32)
  deriving DecidableEq

def Event.slot : Event → Slot
  | .schedule c | .yield c | .allocproc c | .allocStack c _ | .forkCopy c _ | .forkRun c | .exit c | .wait c
  | .kill c _ => c

def act (t : Ptable) : Event → Option (Outcome Ptable)
  | .schedule _ => none
  | .yield c => some (.ok (t.set c { t.proc c with state := .runnable }))
  | .allocproc c => if t.thread c = .user then some (.ok (allocproc t c)) else none
  | .allocStack c ok =>
    match t.thread c with
    | .allocated np => some (.ok (allocStack t c np ok))
    | _ => none
  | .forkCopy c ok =>
    match t.thread c with
    | .stacked np => some (.ok (forkCopy t c np ok))
    | _ => none
  | .forkRun c =>
    match t.thread c with
    | .copied np => some (.ok (forkRun t c np))
    | _ => none
  | .exit c => if t.thread c = .user then some (exit t c) else none
  | .wait c => if t.thread c = .user ∨ t.thread c = .waiting then some (.ok (wait t c).1) else none
  | .kill c pid => if t.thread c = .user then some (.ok (kill t pid).1) else none

def step (t : Ptable) (e : Event) : Option (Outcome Ptable) :=
  match e with
  | .schedule c =>
    if (t.proc c).state = .runnable then some (.ok (t.set c { t.proc c with state := .running })) else none
  | e => if (t.proc e.slot).state = .running then act t e else none

def empty : Proc := ⟨.unused, 0, none, none, false, false⟩

def boot : Ptable :=
  ⟨Function.update (fun _ => empty) ⟨0, NPROC_pos⟩ ⟨.runnable, 1, none, none, false, true⟩,
    fun _ => .user, 2, ⟨0, NPROC_pos⟩⟩

end Xv6.ProcTable
