import Xv6.Param
import Xv6.RingBuffer
import Xv6.Transition

/-!
The console's input buffer, and the line editor that it is meant to be.
What `consputc` and `procdump` print is left out.
-/

namespace Xv6.Console

open RingBuffer Transition
open Function (update)

def INPUT_BUF : ℕ := 128

def ctrlP : UInt8 := 16
def ctrlU : UInt8 := 21
def ctrlH : UInt8 := 8
def ctrlD : UInt8 := 4
def del : UInt8 := 127
def newline : UInt8 := 10
def carriageReturn : UInt8 := 13

structure Input where
  buf : ℕ → UInt8
  r : UInt32
  w : UInt32
  e : UInt32

def killLoop : ℕ → Input → Input
  | 0, i => i
  | k + 1, i =>
    if i.e ≠ i.w ∧ i.buf ((i.e - 1).toNat % INPUT_BUF) ≠ newline then killLoop k { i with e := i.e - 1 } else i

def Input.typed (i : Input) (c : UInt8) : Input × Bool :=
  if c = ctrlP then (i, false)
  else if c = ctrlU then (killLoop (i.e - i.w).toNat i, false)
  else if c = ctrlH ∨ c = del then (if i.e ≠ i.w then { i with e := i.e - 1 } else i, false)
  else if c ≠ 0 ∧ (i.e - i.r).toNat < INPUT_BUF then
    let c := if c = carriageReturn then newline else c
    let i := { i with buf := update i.buf (i.e.toNat % INPUT_BUF) c, e := i.e + 1 }
    if c = newline ∨ c = ctrlD ∨ i.e = i.r + UInt32.ofNat INPUT_BUF then ({ i with w := i.e }, true) else (i, false)
  else (i, false)

inductive Reading
  | done (ret : ℕ) (dst : List UInt8)
  | failed
  | asleep (n : ℕ) (dst : List UInt8)
  deriving DecidableEq

def Input.read (killed : Bool) (target : ℕ) : ℕ → Input → List UInt8 → Input × Reading
  | 0, i, dst => (i, .done target dst)
  | n + 1, i, dst =>
    if i.r = i.w then (i, if killed then .failed else .asleep (n + 1) dst)
    else
      let c := i.buf (i.r.toNat % INPUT_BUF)
      let i := { i with r := i.r + 1 }
      if c = ctrlD then (if n + 1 < target then { i with r := i.r - 1 } else i, .done (target - (n + 1)) dst)
      else if c = newline then (i, .done (target - n) (dst ++ [c]))
      else Input.read killed target n i (dst ++ [c])

structure Editor where
  queue : List UInt8
  line : List UInt8

def Editor.typed (k : Editor) (c : UInt8) : Editor × Bool :=
  if c = ctrlP ∨ c = 0 then (k, false)
  else if c = ctrlU then ({ k with line := [] }, false)
  else if c = ctrlH ∨ c = del then ({ k with line := k.line.dropLast }, false)
  else if k.queue.length + k.line.length < INPUT_BUF then
    let c := if c = carriageReturn then newline else c
    let line := k.line ++ [c]
    if c = newline ∨ c = ctrlD ∨ k.queue.length + line.length = INPUT_BUF then (⟨k.queue ++ line, []⟩, true)
    else (⟨k.queue, line⟩, false)
  else (k, false)

def Editor.read (killed : Bool) : ℕ → Editor → List UInt8 → Editor × Reading
  | 0, k, dst => (k, .done dst.length dst)
  | n + 1, k, dst =>
    match k.queue with
    | [] => (k, if killed then .failed else .asleep (n + 1) dst)
    | c :: queue =>
      if c = ctrlD then (if dst = [] then { k with queue := queue } else k, .done dst.length dst)
      else if c = newline then ({ k with queue := queue }, .done (dst.length + 1) (dst ++ [c]))
      else Editor.read killed n { k with queue := queue } (dst ++ [c])

structure Device (K : Type) where
  typed : K → UInt8 → K × Bool
  read : Bool → ℕ → ℕ → K → List UInt8 → K × Reading

def input : Device Input := ⟨Input.typed, Input.read⟩

def editor : Device Editor := ⟨Editor.typed, fun killed _ => Editor.read killed⟩

inductive Pc
  | idle
  | asleep (n target : ℕ) (dst : List UInt8)
  | woken (n target : ℕ) (dst : List UInt8)
  deriving DecidableEq

def Pc.wake : Pc → Pc
  | .asleep n target dst => .woken n target dst
  | x => x

structure Sys (P K : Type) where
  input : K
  pc : P → Pc
  killed : P → Bool
  results : List (P × Option (ℕ × List UInt8))

variable {P K : Type} [DecidableEq P]

def typeChar (D : Device K) (s : Sys P K) (c : UInt8) : Sys P K :=
  let (i, wakes) := D.typed s.input c
  { s with input := i, pc := if wakes then fun p => (s.pc p).wake else s.pc }

def consoleintr (D : Device K) (s : Sys P K) (cs : List UInt8) : Sys P K := cs.foldl (typeChar D) s

def consoleread (D : Device K) (s : Sys P K) (p : P) (target n : ℕ) (dst : List UInt8) : Sys P K :=
  match D.read (s.killed p) target n s.input dst with
  | (i, .done ret dst) =>
    { s with input := i, pc := update s.pc p .idle, results := s.results ++ [(p, some (ret, dst))] }
  | (i, .failed) => { s with input := i, pc := update s.pc p .idle, results := s.results ++ [(p, none)] }
  | (i, .asleep n dst) => { s with input := i, pc := update s.pc p (.asleep n target dst) }

inductive Event (P : Type)
  | intr (cs : List UInt8)
  | read (p : P) (n : ℕ)
  | resume (p : P)
  | kill (p : P)

def consoleStep (D : Device K) (s : Sys P K) : Event P → Option (Outcome (Sys P K))
  | .intr cs => some (.ok (consoleintr D s cs))
  | .read p n => if s.pc p = .idle then some (.ok (consoleread D s p n n [])) else none
  | .resume p =>
    match s.pc p with
    | .woken n target dst => some (.ok (consoleread D s p target n dst))
    | _ => none
  | .kill p =>
    some (.ok { s with killed := update s.killed p true, pc := update s.pc p (s.pc p).wake })

def boot (i : K) : Sys P K := ⟨i, fun _ => .idle, fun _ => false, []⟩

end Xv6.Console
