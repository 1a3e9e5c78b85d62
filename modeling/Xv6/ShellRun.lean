import Xv6.OpenFiles
import Xv6.Shell

/-!
`runcmd` of `sh.c`: the system calls that a process makes to run a command, and what they do to its descriptors.
-/

namespace Xv6.Shell

open Contract FileTable OpenFiles ProcTable

inductive Prog
  | exit
  | exec (argv : List (List UInt8)) (failed : Prog)
  | print (text : List UInt8) (next : Prog)
  | close (fd : ℕ) (next : Prog)
  | open (file : List UInt8) (mode : ℕ) (failed next : Prog)
  | dup (fd : ℕ) (next : Prog)
  | pipe (failed : Prog) (next : ℕ → ℕ → Prog)
  | fork (failed child parent : Prog)
  | wait (next : Prog)

def panic (msg : String) : Prog := .print (bytes msg ++ bytes "\n") .exit

def fork1 (child parent : Prog) : Prog := .fork (panic "fork") child parent

def runcmd : Tree → Prog
  | .exec [] => .exit
  | .exec (path :: args) => .exec (path :: args) (.print (bytes "exec " ++ path ++ bytes " failed\n") .exit)
  | .redir cmd file mode fd =>
    .close fd (.open file mode (.print (bytes "open " ++ file ++ bytes " failed\n") .exit) (runcmd cmd))
  | .list left right => fork1 (runcmd left) (.wait (runcmd right))
  | .pipe left right =>
    .pipe (panic "pipe") fun p0 p1 =>
      fork1 (.close 1 (.dup p1 (.close p0 (.close p1 (runcmd left)))))
        (fork1 (.close 0 (.dup p0 (.close p0 (.close p1 (runcmd right)))))
          (.close p0 (.close p1 (.wait (.wait .exit)))))
  | .back cmd => fork1 (runcmd cmd) .exit

inductive Final
  | executes (argv : List (List UInt8)) (s : Kernel)
  | exits (s : Kernel)
  | calls (next : Prog) (s : Kernel)

def run (lookup : List UInt8 → ℕ → Option ℕ) (p : Slot) :
    Prog → Kernel → List (List UInt8 × Bool) → Outcome (Final × List (List UInt8 × Bool))
  | .exit, s, log => .ok (.exits s, log)
  | .exec argv _, s, log => .ok (.executes argv s, log)
  | .print _ next, s, log => run lookup p next s log
  | .close fd next, s, log => do
    let (_, s) ← sysClose s p fd
    run lookup p next s log
  | .open file mode failed next, s, log => do
    let (fd, s) ← sysOpen s p (lookup file mode) mode
    if fd < 0 then run lookup p failed s (log ++ [(file, false)]) else run lookup p next s (log ++ [(file, true)])
  | .dup fd next, s, log => do
    let (_, s) ← sysDup s p fd
    run lookup p next s log
  | .pipe failed next, s, log => .ok (.calls (.pipe failed next) s, log)
  | .fork failed child parent, s, log => .ok (.calls (.fork failed child parent) s, log)
  | .wait next, s, log => .ok (.calls (.wait next) s, log)

end Xv6.Shell
