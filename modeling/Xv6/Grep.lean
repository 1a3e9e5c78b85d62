import Xv6.ByteMemory

/-!
`grep.c`. A string is the list of its characters before the NUL, and a pointer into it is what is left from there on.
The buffer of `grep` is memory, since its lines are terminated in place.
-/

namespace Xv6.Grep

open ByteMemory

abbrev Str := List UInt8

def matchstar (here : Str → Bool) (c : UInt8) : Str → Bool
  | [] => here []
  | t :: text => here (t :: text) || (decide (t = c ∨ c = '.'.toUInt8) && matchstar here c text)

def matchhere : Str → Str → Bool
  | [], _ => true
  | [c], text =>
    if c = '$'.toUInt8 then text.isEmpty
    else match text with
      | [] => false
      | t :: text => decide (c = '.'.toUInt8 ∨ c = t) && matchhere [] text
  | c :: d :: re, text =>
    if d = '*'.toUInt8 then matchstar (matchhere re) c text
    else match text with
      | [] => false
      | t :: text => decide (c = '.'.toUInt8 ∨ c = t) && matchhere (d :: re) text

def matchFrom (re : Str) : Str → Bool
  | [] => matchhere re []
  | t :: text => matchhere re (t :: text) || matchFrom re text

def matchRe (re text : Str) : Bool :=
  if re.head? = some '^'.toUInt8 then matchhere re.tail text else matchFrom re text

def sizeofBuf : ℕ := 1024

def strchr (buf : Bytes) (c : UInt8) : ℕ → ℕ → Option ℕ
  | 0, _ => none
  | n + 1, s => if buf s = 0 then none else if buf s = c then some s else strchr buf c n (s + 1)

def string (buf : Bytes) : ℕ → ℕ → Str
  | 0, _ => []
  | n + 1, s => if buf s = 0 then [] else buf s :: string buf n (s + 1)

def memmove (buf : Bytes) (dst src : ℕ) : ℕ → Bytes
  | 0 => buf
  | n + 1 => memmove (Function.update buf dst (buf src)) (dst + 1) (src + 1) n

def slice (buf : Bytes) (p n : ℕ) : List UInt8 := (List.range n).map fun i => buf (p + i)

structure Lines where
  buf : Bytes
  p : ℕ
  out : List UInt8

def line (pattern : Str) (s : Lines) (q : ℕ) : Lines :=
  let buf := Function.update s.buf q 0
  if matchRe pattern (string buf (sizeofBuf - s.p) s.p) then
    let buf := Function.update buf q '\n'.toUInt8
    ⟨buf, q + 1, s.out ++ slice buf s.p (q + 1 - s.p)⟩
  else ⟨buf, q + 1, s.out⟩

def lineLoop (pattern : Str) : ℕ → Lines → Lines
  | 0, s => s
  | n + 1, s =>
    match strchr s.buf '\n'.toUInt8 (sizeofBuf - s.p) s.p with
    | none => s
    | some q => lineLoop pattern n (line pattern s q)

structure State where
  buf : Bytes
  m : ℕ
  out : List UInt8

def State.request (s : State) : ℕ := sizeofBuf - s.m - 1

def turn (pattern : Str) (s : State) (chunk : List UInt8) : State :=
  let m := s.m + chunk.length
  let l := lineLoop pattern sizeofBuf ⟨Function.update (store s.buf s.m chunk) m 0, 0, s.out⟩
  let m := if l.p = 0 then 0 else m
  if 0 < m then ⟨memmove l.buf 0 l.p (m - l.p), m - l.p, l.out⟩ else ⟨l.buf, m, l.out⟩

def start : State := ⟨zero, 0, []⟩

def grep (pattern : Str) (chunks : List (List UInt8)) : List UInt8 := (chunks.foldl (turn pattern) start).out

def Reads (pattern : Str) : State → List (List UInt8) → Prop
  | _, [] => True
  | s, chunk :: chunks => chunk ≠ [] ∧ chunk.length ≤ s.request ∧ Reads pattern (turn pattern s chunk) chunks

instance Reads.decidable (pattern : Str) : ∀ (chunks : List (List UInt8))
    (s : State), Decidable (Reads pattern s chunks)
  | [], _ => isTrue trivial
  | chunk :: chunks, s =>
    @instDecidableAnd _ _ inferInstance
      (@instDecidableAnd _ _ inferInstance (Reads.decidable pattern chunks (turn pattern s chunk)))

end Xv6.Grep
