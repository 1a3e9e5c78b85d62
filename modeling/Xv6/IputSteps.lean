import Xv6.InodeLife
import Xv6.Transition

/-!
Processes that hold references to cached inodes, at the grain of the critical sections of
`iput`: the test under `ip->lock`, the reading of `ref` under `icache.lock`, the freeing, the
release of `ip->lock` and the decrement of `ref`.
-/

namespace Xv6.Fs

open Contract Transition
open Function (update)

variable {P : Type} [DecidableEq P]

inductive Phase where
  | readRef | free | release | drop
  deriving DecidableEq, Repr

structure Cache (P : Type) where
  fs : State
  lock : ℕ → Option P
  tokens : List (P × ℕ)
  pc : P → Option (ℕ × Phase)
  seen : ℕ → Bool

inductive CacheEvent (P : Type) where
  | iget (p : P) (i : ℕ)
  | idup (p : P) (i : ℕ)
  | give (p q : P) (i : ℕ)
  | ialloc (p : P) (type : FType)
  | ilock (p : P) (i : ℕ)
  | iunlock (p : P) (i : ℕ)
  | setNlink (p : P) (i : ℕ) (nlink : Int16)
  | writei (p : P) (i off : ℕ) (src : List UInt8)
  | iput (p : P) (i : ℕ)
  | resume (p : P)

def CacheEvent.proc : CacheEvent P → P
  | iget p _ | idup p _ | give p _ _ | ialloc p _ | ilock p _ | iunlock p _ | setNlink p _ _ | writei p _ _ _ | iput p _
  | resume p => p

def callStep (s : Cache P) : CacheEvent P → Option (Outcome (Cache P))
  | .iget p i => some do
    let fs ← iget s.fs i
    let seen := if s.fs.ref i = 0 then update s.seen i false else s.seen
    .ok { s with fs := fs, tokens := (p, i) :: s.tokens, seen := seen }
  | .idup p i =>
    if (p, i) ∈ s.tokens then some (.ok { s with fs := idup s.fs i, tokens := (p, i) :: s.tokens }) else none
  | .give p q i =>
    if (p, i) ∈ s.tokens ∧ s.lock i ≠ some p then
      some (.ok { s with tokens := (q, i) :: s.tokens.erase (p, i) })
    else none
  | .ialloc p type =>
    if type = .free then none else some do
      let (i, fs) ← ialloc s.fs type
      .ok { s with fs := fs, tokens := (p, i) :: s.tokens, seen := update s.seen i false }
  | .ilock p i =>
    if (p, i) ∈ s.tokens ∧ s.lock i = none then some do
      let fs ← ilock s.fs i
      .ok { s with fs := fs, lock := update s.lock i (some p), seen := update s.seen i true }
    else none
  | .iunlock p i => if s.lock i = some p then some (.ok { s with lock := update s.lock i none }) else none
  | .setNlink p i nlink =>
    if s.lock i = some p then
      some (.ok { s with fs := commit s.fs i { s.fs.inode i with nlink := nlink } })
    else none
  | .writei p i off src =>
    if s.lock i = some p then some do
      let (_, fs) ← writei s.fs i src off
      .ok { s with fs := fs }
    else none
  | .iput p i =>
    if (p, i) ∈ s.tokens ∧ s.lock i = none then
      let next := if s.fs.valid i ∧ (s.fs.inode i).nlink = 0 then .readRef else .release
      some (.ok { s with lock := update s.lock i (some p), pc := update s.pc p (some (i, next)) })
    else none
  | .resume _ => none

def iputStep (s : Cache P) (p : P) (i : ℕ) : Phase → Outcome (Cache P)
  | .readRef =>
    let next := if s.fs.ref i = 1 then .free else .release
    .ok { s with pc := update s.pc p (some (i, next)) }
  | .free => do
    let fs ← ifree s.fs i
    .ok { s with fs := fs, pc := update s.pc p (some (i, .release)) }
  | .release => .ok { s with lock := update s.lock i none, pc := update s.pc p (some (i, .drop)) }
  | .drop => .ok { s with fs := dropRef s.fs i, tokens := s.tokens.erase (p, i), pc := update s.pc p none }

def cacheStep (s : Cache P) (e : CacheEvent P) : Option (Outcome (Cache P)) :=
  match s.pc e.proc, e with
  | none, e => callStep s e
  | some (i, ph), .resume p => some (iputStep s p i ph)
  | some _, _ => none

def Calm (s : Cache P) : CacheEvent P → Prop
  | .iput _ i => ∀ q, s.pc q ≠ some (i, .drop)
  | .iget _ i => ∀ q, s.pc q ≠ some (i, .free)
  | _ => True

end Xv6.Fs
