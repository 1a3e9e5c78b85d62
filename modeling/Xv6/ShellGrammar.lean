import Mathlib

/-!
The command language of the shell: its tokens, its commands, and the grammar that says which command a list of tokens
denotes.
-/

namespace Xv6.Shell

def MAXARGS : ℕ := 10

def O_RDONLY : ℕ := 0x000
def O_WRONLY : ℕ := 0x001
def O_CREATE : ℕ := 0x200

inductive Op
  | less
  | greater
  | append
  deriving DecidableEq

def Op.mode : Op → ℕ
  | .less => O_RDONLY
  | .greater | .append => O_WRONLY ||| O_CREATE

def Op.fd : Op → ℕ
  | .less => 0
  | .greater | .append => 1

inductive Token
  | bar
  | lparen
  | rparen
  | semi
  | amp
  | op (o : Op)
  | word (w : List UInt8)
  deriving DecidableEq

inductive Tree
  | exec (args : List (List UInt8))
  | redir (cmd : Tree) (file : List UInt8) (mode fd : ℕ)
  | pipe (left right : Tree)
  | list (left right : Tree)
  | back (cmd : Tree)
  deriving DecidableEq

def Tree.redirect (t : Tree) (rs : List (Op × List UInt8)) : Tree :=
  rs.foldl (fun t r => .redir t r.2 r.1.mode r.1.fd) t

inductive Redirs : List Token → List (Op × List UInt8) → Prop
  | nil : Redirs [] []
  | cons {ts : List Token} {rs : List (Op × List UInt8)} (o : Op) (w : List UInt8) (h : Redirs ts rs) :
      Redirs (.op o :: .word w :: ts) ((o, w) :: rs)

inductive Args : List Token → List (List UInt8) → List (Op × List UInt8) → Prop
  | nil : Args [] [] []
  | cons {ts us : List Token} {ws : List (List UInt8)} {rs rs' : List (Op × List UInt8)} (w : List UInt8)
      (h : Redirs ts rs) (h' : Args us ws rs') : Args (.word w :: ts ++ us) (w :: ws) (rs ++ rs')

inductive Symbol
  | line
  | pipe
  | exec

inductive Derives : Symbol → List Token → Tree → Prop
  -- line ::= pipe '&'* [';' line]
  | line {ts : List Token} {t : Tree} (k : ℕ) (h : Derives .pipe ts t) :
      Derives .line (ts ++ List.replicate k .amp) (Tree.back^[k] t)
  | seq {ts us : List Token} {t u : Tree} (k : ℕ) (h : Derives .pipe ts t) (h' : Derives .line us u) :
      Derives .line (ts ++ List.replicate k .amp ++ .semi :: us) (.list (Tree.back^[k] t) u)
  -- pipe ::= exec ['|' pipe]
  | pipe {ts : List Token} {t : Tree} (h : Derives .exec ts t) : Derives .pipe ts t
  | bar {ts us : List Token} {t u : Tree} (h : Derives .exec ts t) (h' : Derives .pipe us u) :
      Derives .pipe (ts ++ .bar :: us) (.pipe t u)
  -- exec ::= '(' line ')' redir* | redir* (word redir*)*
  | block {ts us : List Token} {t : Tree} {rs : List (Op × List UInt8)} (h : Derives .line ts t) (h' : Redirs us rs) :
      Derives .exec (.lparen :: ts ++ .rparen :: us) (t.redirect rs)
  | simple {ts us : List Token} {ws : List (List UInt8)} {rs rs' : List (Op × List UInt8)} (h : Redirs ts rs)
      (h' : Args us ws rs') (hw : ws.length ≤ MAXARGS - 1) :
      Derives .exec (ts ++ us) ((Tree.exec ws).redirect (rs ++ rs'))

end Xv6.Shell
