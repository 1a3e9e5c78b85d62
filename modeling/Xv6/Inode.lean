import Xv6.ByteMemory
import Xv6.Dirent

/-!
Blocks, inodes and directories of `fs.c`. The free map and the inode blocks are kept
decoded, one bit for each block and one `Dinode` for each inode number; file and indirect
blocks are bytes. `inode`, `valid` and `ref` are the cache entries, which `iget` keeps at one
for each inode number. Locks are left to the models that interleave processes.
-/

namespace Xv6.Fs

open ByteMemory
open Function (update)

inductive FType where
  | free | dir | file | dev
  deriving DecidableEq, Repr

structure Superblock where
  size : ℕ
  nblocks : ℕ
  ninodes : ℕ
  deriving DecidableEq, Repr

def Superblock.nmeta (sb : Superblock) : ℕ := sb.size - sb.nblocks

structure Dinode where
  type : FType
  major : Int16
  minor : Int16
  nlink : Int16
  size : ℕ
  addrs : ℕ → ℕ

structure State where
  sb : Superblock
  bitmap : ℕ → Bool
  dinode : ℕ → Dinode
  data : ℕ → Bytes
  inode : ℕ → Dinode
  valid : ℕ → Bool
  ref : ℕ → ℕ

variable (fs : State) (i : ℕ)

def balloc : Outcome (ℕ × State) :=
  match (List.range fs.sb.size).find? (fun b => !fs.bitmap b) with
  | some b => .ok (b, { fs with bitmap := update fs.bitmap b true, data := update fs.data b zero })
  | none => .error "balloc: out of blocks"

def bfree (b : ℕ) : Outcome State :=
  if fs.bitmap b then .ok { fs with bitmap := update fs.bitmap b false }
  else .error "freeing free block"

def setInode (d : Dinode) : State := { fs with inode := update fs.inode i d }

def setAddr (k b : ℕ) : State :=
  setInode fs i { fs.inode i with addrs := update (fs.inode i).addrs k b }

def setData (b : ℕ) (bs : Bytes) : State := { fs with data := update fs.data b bs }

def iupdate : State := { fs with dinode := update fs.dinode i (fs.inode i) }

def commit (d : Dinode) : State := iupdate (setInode fs i d) i

def cached : List ℕ := (List.range fs.sb.ninodes).filter (fun j => 0 < fs.ref j)

def iget : Outcome State :=
  if 0 < fs.ref i then .ok { fs with ref := update fs.ref i (fs.ref i + 1) }
  else if NINODE ≤ (cached fs).length then .error "iget: no inodes"
  else .ok { fs with ref := update fs.ref i 1, valid := update fs.valid i false }

def idup : State := { fs with ref := update fs.ref i (fs.ref i + 1) }

def ialloc (type : FType) : Outcome (ℕ × State) :=
  match ((List.range fs.sb.ninodes).drop 1).find? (fun inum => (fs.dinode inum).type = .free) with
  | some inum => do
    let d : Dinode := ⟨type, 0, 0, 0, 0, fun _ => 0⟩
    let fs ← iget { fs with dinode := update fs.dinode inum d } inum
    .ok (inum, fs)
  | none => .error "ialloc: no inodes"

def ilock : Outcome State :=
  if fs.ref i < 1 then .error "ilock"
  else if fs.valid i then .ok fs
  else if (fs.dinode i).type = .free then .error "ilock: no type"
  else .ok { setInode fs i (fs.dinode i) with valid := update fs.valid i true }

def bmapEntry (ind j : ℕ) : Outcome (ℕ × State) :=
  if word (fs.data ind) j = 0 then do
    let (addr, fs) ← balloc fs
    .ok (addr, setData fs ind (setWord (fs.data ind) j addr))
  else .ok (word (fs.data ind) j, fs)

def bmap (bn : ℕ) : Outcome (ℕ × State) :=
  if bn < NDIRECT then
    if (fs.inode i).addrs bn = 0 then do
      let (addr, fs) ← balloc fs
      .ok (addr, setAddr fs i bn addr)
    else .ok ((fs.inode i).addrs bn, fs)
  else if bn - NDIRECT < NINDIRECT then
    if (fs.inode i).addrs NDIRECT = 0 then do
      let (addr, fs) ← balloc fs
      bmapEntry (setAddr fs i NDIRECT addr) addr (bn - NDIRECT)
    else bmapEntry fs ((fs.inode i).addrs NDIRECT) (bn - NDIRECT)
  else .error "bmap: out of range"

def truncDirect (fs : State) (i : ℕ) : List ℕ → Outcome State
  | [] => .ok fs
  | k :: ks =>
    if (fs.inode i).addrs k ≠ 0 then do
      let fs ← bfree fs ((fs.inode i).addrs k)
      truncDirect (setAddr fs i k 0) i ks
    else truncDirect fs i ks

def truncIndirect (a : Bytes) (fs : State) : List ℕ → Outcome State
  | [] => .ok fs
  | j :: js =>
    if word a j ≠ 0 then do
      let fs ← bfree fs (word a j)
      truncIndirect a fs js
    else truncIndirect a fs js

def itrunc : Outcome State := do
  let fs ← truncDirect fs i (List.range NDIRECT)
  let ind := (fs.inode i).addrs NDIRECT
  let fs ←
    if ind ≠ 0 then do
      let fs ← truncIndirect (fs.data ind) fs (List.range NINDIRECT)
      let fs ← bfree fs ind
      .ok (setAddr fs i NDIRECT 0)
    else .ok fs
  .ok (commit fs i { fs.inode i with size := 0 })

def ifree : Outcome State := do
  let fs ← itrunc fs i
  let fs := commit fs i { fs.inode i with type := .free }
  .ok { fs with valid := update fs.valid i false }

def dropRef : State := { fs with ref := update fs.ref i (fs.ref i - 1) }

def iput : Outcome State := do
  let fs ← if fs.valid i ∧ (fs.inode i).nlink = 0 ∧ fs.ref i = 1 then ifree fs i else .ok fs
  .ok (dropRef fs i)

def slice (b : Bytes) (off m : ℕ) : List UInt8 := (List.range m).map fun k => b (off + k)

def readLoop (fs : State) (i off n : ℕ) : Outcome (List UInt8 × State) :=
  if n = 0 then .ok ([], fs)
  else do
    let (addr, fs) ← bmap fs i (off / BSIZE)
    let m := min n (BSIZE - off % BSIZE)
    let (rest, fs) ← readLoop fs i (off + m) (n - m)
    .ok (slice (fs.data addr) (off % BSIZE) m ++ rest, fs)
termination_by n
decreasing_by
  have : off % 512 < 512 := Nat.mod_lt _ (by norm_num)
  simp only [BSIZE]
  omega

def readi (off n : ℕ) : Outcome (Option (List UInt8) × State) :=
  if (fs.inode i).type = .dev then .ok (none, fs)
  else if (fs.inode i).size < off ∨ 2 ^ 32 ≤ off + n then .ok (none, fs)
  else do
    let n := if (fs.inode i).size < off + n then (fs.inode i).size - off else n
    let (bs, fs) ← readLoop fs i off n
    .ok (some bs, fs)

def writeLoop (fs : State) (i off : ℕ) (src : List UInt8) : Outcome State :=
  if src.length = 0 then .ok fs
  else do
    let (addr, fs) ← bmap fs i (off / BSIZE)
    let m := min src.length (BSIZE - off % BSIZE)
    let fs := setData fs addr (store (fs.data addr) (off % BSIZE) (src.take m))
    writeLoop fs i (off + m) (src.drop m)
termination_by src.length
decreasing_by
  have : off % 512 < 512 := Nat.mod_lt _ (by norm_num)
  simp only [List.length_drop, BSIZE]
  omega

def writei (src : List UInt8) (off : ℕ) : Outcome (Option ℕ × State) :=
  if (fs.inode i).type = .dev then .ok (none, fs)
  else if (fs.inode i).size < off ∨ 2 ^ 32 ≤ off + src.length then .ok (none, fs)
  else if MAXFILE * BSIZE < off + src.length then .ok (none, fs)
  else do
    let fs ← writeLoop fs i off src
    let off := off + src.length
    if 0 < src.length ∧ (fs.inode i).size < off then
      .ok (some src.length, commit fs i { fs.inode i with size := off })
    else .ok (some src.length, fs)

def offsets (size : ℕ) : List ℕ := (List.range ((size + sizeofDirent - 1) / sizeofDirent)).map (· * sizeofDirent)

def readEntry (dp off : ℕ) (msg : String) : Outcome (Dirent × State) := do
  let (r, fs) ← readi fs dp off sizeofDirent
  match r with
  | some bs => if bs.length = sizeofDirent then .ok (Dirent.ofBytes bs, fs) else .error msg
  | none => .error msg

def scan (fs : State) (dp : ℕ) (msg : String) (p : Dirent → Bool) : List ℕ → Outcome (Option (ℕ × Dirent) × State)
  | [] => .ok (none, fs)
  | off :: offs => do
    let (de, fs) ← readEntry fs dp off msg
    if p de then .ok (some (off, de), fs) else scan fs dp msg p offs

def dirlookup (dp : ℕ) (name : List UInt8) : Outcome (Option (ℕ × ℕ) × State) :=
  if (fs.inode dp).type ≠ .dir then .error "dirlookup not DIR"
  else do
    let (r, fs) ← scan fs dp "dirlookup read" (fun de => de.inum ≠ 0 ∧ namecmp name de.name = 0)
      (offsets (fs.inode dp).size)
    match r with
    | some (off, de) => do
      let fs ← iget fs de.inum
      .ok (some (off, de.inum), fs)
    | none => .ok (none, fs)

def emptySlot (dp : ℕ) : Outcome (ℕ × State) := do
  let offs := offsets (fs.inode dp).size
  let (r, fs) ← scan fs dp "dirlink read" (fun de => de.inum = 0) offs
  match r with
  | some (off, _) => .ok (off, fs)
  | none => .ok (offs.length * sizeofDirent, fs)

def dirlink (dp : ℕ) (name : List UInt8) (inum : ℕ) : Outcome (Bool × State) := do
  let (r, fs) ← dirlookup fs dp name
  match r with
  | some (_, next) =>
    if next = dp then .error "dirlink sleeps on its own lock"
    else do
      let fs ← iput fs next
      .ok (false, fs)
  | none => do
    let (off, fs) ← emptySlot fs dp
    let de : Dirent := ⟨inum % 65536, strncpy name DIRSIZ⟩
    let (r, fs) ← writei fs dp de.bytes off
    if r = some sizeofDirent then .ok (true, fs) else .error "dirlink"

end Xv6.Fs
