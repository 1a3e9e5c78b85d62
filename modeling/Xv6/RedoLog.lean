import Xv6.ByteMemory
import Xv6.CrashWrites
import Xv6.Param

namespace Xv6.RedoLog

open ByteMemory

structure Buf where
  data : Bytes
  dirty : Bool

structure Log where
  start : UInt32
  size : ℤ
  outstanding : ℤ
  committing : Bool
  block : List UInt32

structure State where
  disk : UInt32 → Bytes
  cache : UInt32 → Option Buf
  log : Log
  writes : List (UInt32 × Bytes)

def bread (s : State) (b : UInt32) : Bytes × State :=
  match s.cache b with
  | some buf => (buf.data, s)
  | none => (s.disk b, { s with cache := Function.update s.cache b (some ⟨s.disk b, false⟩) })

def bwrite (s : State) (b : UInt32) (data : Bytes) : State :=
  { s with
    disk := Function.update s.disk b data
    cache := Function.update s.cache b (some ⟨data, false⟩)
    writes := s.writes ++ [(b, data)] }

def slot (start : UInt32) (tail : ℕ) : UInt32 := start + UInt32.ofNat (tail + 1)

def installTransLoop (s : State) (tail : ℕ) : List UInt32 → State
  | [] => s
  | b :: bs =>
    let l := bread s (slot s.log.start tail)
    let d := bread l.2 b
    installTransLoop (bwrite d.2 b l.1) (tail + 1) bs

def installTrans (s : State) : State := installTransLoop s 0 s.log.block

def headerCount (h : Bytes) : ℕ := if word h 0 < 2 ^ 31 then word h 0 else 0

def getHeader (h : Bytes) : List UInt32 :=
  (List.range (headerCount h)).map (fun i => UInt32.ofNat (word h (i + 1)))

def putBlocks (h : Bytes) (i : ℕ) : List UInt32 → Bytes
  | [] => h
  | b :: bs => putBlocks (setWord h (i + 1) b.toNat) (i + 1) bs

def putHeader (h : Bytes) (bs : List UInt32) : Bytes := putBlocks (setWord h 0 bs.length) 0 bs

def readHead (s : State) : State :=
  let h := bread s s.log.start
  { h.2 with log := { h.2.log with block := getHeader h.1 } }

def writeHead (s : State) : State :=
  let h := bread s s.log.start
  bwrite h.2 s.log.start (putHeader h.1 s.log.block)

def clearHead (s : State) : State := { s with log := { s.log with block := [] } }

def recoverFromLog (s : State) : State := writeHead (clearHead (installTrans (readHead s)))

def writeLogLoop (s : State) (tail : ℕ) : List UInt32 → State
  | [] => s
  | b :: bs =>
    let t := bread s (slot s.log.start tail)
    let f := bread t.2 b
    writeLogLoop (bwrite f.2 (slot s.log.start tail) f.1) (tail + 1) bs

def writeLog (s : State) : State := writeLogLoop s 0 s.log.block

def commit (s : State) : State :=
  if 0 < s.log.block.length then
    writeHead (clearHead (installTrans (writeHead (writeLog s))))
  else s

def absorb (bs : List UInt32) (b : UInt32) : List UInt32 := if b ∈ bs then bs else bs ++ [b]

theorem absorb_length (bs : List UInt32) (b : UInt32) : (absorb bs b).length ≤ bs.length + 1 := by
  unfold absorb
  split_ifs <;> simp

theorem mem_absorb (bs : List UInt32) (b c : UInt32) : c ∈ absorb bs b ↔ c ∈ bs ∨ c = b := by
  unfold absorb
  split_ifs with hb
  · constructor
    · exact Or.inl
    · rintro (hc | rfl)
      · exact hc
      · exact hb
  · simp

theorem absorb_nodup {bs : List UInt32} (h : bs.Nodup) (b : UInt32) : (absorb bs b).Nodup := by
  unfold absorb
  split_ifs with hb
  · exact h
  · exact List.nodup_append.mpr ⟨h, by simp, by rintro c hc _ hd rfl; simp at hd; exact hb (hd ▸ hc)⟩

def logWrite (s : State) (b : UInt32) (data : Bytes) : Outcome State :=
  if LOGSIZE ≤ s.log.block.length ∨ s.log.size - 1 ≤ s.log.block.length then
    .error "too big a transaction"
  else if s.log.outstanding < 1 then
    .error "log_write outside of trans"
  else
    .ok { s with
      log := { s.log with block := absorb s.log.block b }
      cache := Function.update s.cache b (some ⟨data, true⟩) }

def logWriteAll (s : State) : List (UInt32 × Bytes) → Outcome State
  | [] => .ok s
  | u :: us => do logWriteAll (← logWrite s u.1 u.2) us

def boot (start : UInt32) (size : ℤ) (disk : UInt32 → Bytes) : State :=
  ⟨disk, fun _ => none, ⟨start, size, 0, false, []⟩, []⟩

end Xv6.RedoLog
