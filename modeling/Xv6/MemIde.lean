import Xv6.ByteMemory
import Xv6.Param

namespace Xv6.MemIde

open ByteMemory

structure Buf where
  valid : Bool
  dirty : Bool
  dev : ℕ
  blockno : ℕ
  refcnt : ℕ
  data : Bytes

abbrev Disk := ℕ → Bytes

def sync (disk : Disk) (b : Buf) : Disk × Buf :=
  if b.dirty then (Function.update disk b.blockno b.data, { b with dirty := false, valid := true })
  else (disk, { b with data := disk b.blockno, valid := true })

def iderw (disksize : ℕ) (locked : Bool) (disk : Disk) (b : Buf) : Outcome (Disk × Buf) :=
  if locked = false then .error "iderw: buf not locked"
  else if b.valid = true ∧ b.dirty = false then .error "iderw: nothing to do"
  else if b.dev ≠ 1 then .error "iderw: request not for disk 1"
  else if disksize ≤ b.blockno then .error "iderw: block out of range"
  else .ok (sync disk b)

theorem iderw_ok {disksize : ℕ} {locked : Bool} {disk : Disk} {b : Buf} {q : Disk × Buf}
    (h : iderw disksize locked disk b = .ok q) : (b.valid = true → b.dirty = true) ∧ q = sync disk b := by
  simp only [iderw] at h
  split_ifs at h with _ hv
  cases h
  refine ⟨fun hb => ?_, rfl⟩
  by_contra hd
  exact hv ⟨hb, by simpa using hd⟩

end Xv6.MemIde
