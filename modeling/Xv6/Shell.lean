import Xv6.Fueled
import Xv6.ShellGrammar

/-!
The parser of `sh.c`. A pointer into the command line is what is left of it from there on, so that the empty list is
`es`.
-/

namespace Xv6.Shell

open Fueled

abbrev Ptr := List UInt8

def byte (c : Char) : UInt8 := c.toNat.toUInt8

def bytes (s : String) : List UInt8 := s.toList.map byte

def whitespace : List UInt8 := [' ', '\t', '\r', '\n', '\x0b'].map byte

def symbols : List UInt8 := bytes "<|>&;()"

def strchr (s : List UInt8) (c : UInt8) : Bool := s.contains c

def deref : Ptr → UInt8
  | [] => 0
  | c :: _ => c

def skip (s : Ptr) : Ptr := s.dropWhile (strchr whitespace)

def inWord (c : UInt8) : Bool := !strchr whitespace c && !strchr symbols c

def scan : Ptr → UInt8 × Ptr
  | [] => (0, [])
  | c :: s =>
    if c = byte '|' ∨ c = byte '(' ∨ c = byte ')' ∨ c = byte ';' ∨ c = byte '&' ∨ c = byte '<' then (c, s)
    else if c = byte '>' then if deref s = byte '>' then (byte '+', s.tail) else (c, s)
    else (byte 'a', (c :: s).dropWhile inWord)

structure Gettoken where
  ret : UInt8
  q : Ptr
  eq : Ptr
  ps : Ptr

def gettoken (ps : Ptr) : Gettoken :=
  let s := skip ps
  ⟨(scan s).1, s, (scan s).2, skip (scan s).2⟩

def peek (ps : Ptr) (toks : String) : Bool × Ptr :=
  let s := skip ps
  (deref s ≠ 0 ∧ strchr (bytes toks) (deref s), s)

inductive Stop
  | panic (msg : String)
  | fault
  deriving DecidableEq

structure Exec where
  argv : Fin MAXARGS → Option Ptr
  eargv : Fin MAXARGS → Option Ptr

structure Redir where
  file : Ptr
  efile : Ptr
  mode : ℕ
  fd : ℕ

inductive Cmd
  | exec (cmd : Exec)
  | redir (cmd : Cmd) (r : Redir)
  | pipe (left right : Cmd)
  | list (left right : Cmd)
  | back (cmd : Cmd)

def execcmd : Exec := ⟨fun _ => none, fun _ => none⟩

def store (a : Fin MAXARGS → Option Ptr) (i : ℕ) (q : Option Ptr) : Res Stop (Fin MAXARGS → Option Ptr) :=
  if h : i < MAXARGS then .ok (Function.update a ⟨i, h⟩ q) else .stop .fault

def load (a : Fin MAXARGS → Option Ptr) (i : ℕ) : Res Stop (Option Ptr) :=
  if h : i < MAXARGS then .ok (a ⟨i, h⟩) else .stop .fault

def Exec.setArg (cmd : Exec) (argc : ℕ) (q eq : Option Ptr) : Res Stop Exec := do
  let argv ← store cmd.argv argc q
  let eargv ← store cmd.eargv argc eq
  return ⟨argv, eargv⟩

def redircmd (tok : UInt8) (q eq : Ptr) : Option Redir :=
  if tok = byte '<' then some ⟨q, eq, O_RDONLY, 0⟩
  else if tok = byte '>' then some ⟨q, eq, O_WRONLY ||| O_CREATE, 1⟩
  else if tok = byte '+' then some ⟨q, eq, O_WRONLY ||| O_CREATE, 1⟩
  else none

def Cmd.redirect (cmd : Cmd) (rs : List Redir) : Cmd := rs.foldl .redir cmd

def parseredirs : ℕ → List Redir → Ptr → Res Stop (List Redir × Ptr)
  | 0, _, _ => .more
  | n + 1, rs, ps =>
    let next := peek ps "<>"
    if next.1 then
      let tok := gettoken next.2
      let file := gettoken tok.ps
      if file.ret ≠ byte 'a' then .stop (.panic "missing file for redirection")
      else parseredirs n (rs ++ (redircmd tok.ret file.q file.eq).toList) file.ps
    else .ok (rs, next.2)

def Exec.finish (cmd : Exec) (argc : ℕ) (rs : List Redir) (ps : Ptr) : Res Stop (Cmd × Ptr) := do
  let cmd ← cmd.setArg argc none none
  return ((Cmd.exec cmd).redirect rs, ps)

def parseargs : ℕ → Exec → ℕ → List Redir → Ptr → Res Stop (Cmd × Ptr)
  | 0, _, _, _, _ => .more
  | n + 1, cmd, argc, rs, ps =>
    let next := peek ps "|)&;"
    if next.1 then cmd.finish argc rs next.2
    else
      let tok := gettoken next.2
      if tok.ret = 0 then cmd.finish argc rs tok.ps
      else if tok.ret ≠ byte 'a' then .stop (.panic "syntax")
      else do
        let cmd ← cmd.setArg argc (some tok.q) (some tok.eq)
        let argc := argc + 1
        if MAXARGS ≤ argc then .stop (.panic "too many args")
        else do
          let (rs, ps) ← parseredirs n rs tok.ps
          parseargs n cmd argc rs ps

def parsebacks : ℕ → Cmd → Ptr → Res Stop (Cmd × Ptr)
  | 0, _, _ => .more
  | n + 1, cmd, ps =>
    let next := peek ps "&"
    if next.1 then parsebacks n (.back cmd) (gettoken next.2).ps else .ok (cmd, next.2)

mutual

def parseline : ℕ → Ptr → Res Stop (Cmd × Ptr)
  | 0, _ => .more
  | n + 1, ps => do
    let (cmd, ps) ← parsepipe n ps
    let (cmd, ps) ← parsebacks n cmd ps
    let next := peek ps ";"
    if next.1 then
      let (right, ps) ← parseline n (gettoken next.2).ps
      return (.list cmd right, ps)
    else return (cmd, next.2)

def parsepipe : ℕ → Ptr → Res Stop (Cmd × Ptr)
  | 0, _ => .more
  | n + 1, ps => do
    let (cmd, ps) ← parseexec n ps
    let next := peek ps "|"
    if next.1 then
      let (right, ps) ← parsepipe n (gettoken next.2).ps
      return (.pipe cmd right, ps)
    else return (cmd, next.2)

def parseblock : ℕ → Ptr → Res Stop (Cmd × Ptr)
  | 0, _ => .more
  | n + 1, ps =>
    let next := peek ps "("
    if !next.1 then .stop (.panic "parseblock")
    else do
      let (cmd, ps) ← parseline n (gettoken next.2).ps
      let next := peek ps ")"
      if !next.1 then .stop (.panic "syntax - missing )")
      else
        let (rs, ps) ← parseredirs n [] (gettoken next.2).ps
        return (cmd.redirect rs, ps)

def parseexec : ℕ → Ptr → Res Stop (Cmd × Ptr)
  | 0, _ => .more
  | n + 1, ps =>
    let next := peek ps "("
    if next.1 then parseblock n next.2
    else do
      let (rs, ps) ← parseredirs n [] next.2
      parseargs n execcmd 0 rs ps

end

def poke (buf : List UInt8) (p : Ptr) : List UInt8 := buf.set (buf.length - 1 - p.length) 0

def nulargs (cmd : Exec) : ℕ → ℕ → List UInt8 → Res Stop (List UInt8)
  | 0, _, _ => .more
  | n + 1, i, buf => do
    match ← load cmd.argv i with
    | none => return buf
    | some _ =>
      match ← load cmd.eargv i with
      | none => .stop .fault
      | some eq => nulargs cmd n (i + 1) (poke buf eq)

def nulterminate : Cmd → List UInt8 → Res Stop (List UInt8)
  | .exec cmd, buf => nulargs cmd (MAXARGS + 1) 0 buf
  | .redir cmd r, buf => do
    let buf ← nulterminate cmd buf
    return poke buf r.efile
  | .pipe left right, buf => do
    let buf ← nulterminate left buf
    nulterminate right buf
  | .list left right, buf => do
    let buf ← nulterminate left buf
    nulterminate right buf
  | .back cmd, buf => nulterminate cmd buf

def parsecmd (n : ℕ) (s : List UInt8) : Res Stop (Cmd × List UInt8) := do
  let (cmd, ps) ← parseline n s
  if (peek ps "").2 ≠ [] then .stop (.panic "syntax")
  else
    let buf ← nulterminate cmd (s ++ [0])
    return (cmd, buf)

def cstr (buf : List UInt8) (p : Ptr) : List UInt8 := (buf.drop (buf.length - 1 - p.length)).takeWhile (· ≠ 0)

def Exec.args (cmd : Exec) (buf : List UInt8) : ℕ → ℕ → List (List UInt8)
  | 0, _ => []
  | n + 1, i =>
    match load cmd.argv i with
    | .ok (some q) => cstr buf q :: cmd.args buf n (i + 1)
    | _ => []

def Cmd.tree (buf : List UInt8) : Cmd → Tree
  | .exec cmd => .exec (cmd.args buf MAXARGS 0)
  | .redir cmd r => .redir (cmd.tree buf) (cstr buf r.file) r.mode r.fd
  | .pipe left right => .pipe (left.tree buf) (right.tree buf)
  | .list left right => .list (left.tree buf) (right.tree buf)
  | .back cmd => .back (cmd.tree buf)

end Xv6.Shell
