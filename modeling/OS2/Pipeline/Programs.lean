import OS2.Posix.Descriptors
import OS2.Text.Chars

namespace OS2.Pipeline

open OS2.Text OS2.Posix

variable {α : Type}

/-- What a descriptor refers to: what was open before the program, or an end of the pipe that was
    the n-th to be created. -/
inductive Object (α : Type) where
  | initial (x : α)
  | readEnd (pipe : Nat)
  | writeEnd (pipe : Nat)
  deriving DecidableEq, Repr

abbrev Descriptors (α : Type) := Table (Object α)

structure Exec (α : Type) where
  cmd : Str
  table : Descriptors α

def STDIN_FILENO : Nat := 0

def STDOUT_FILENO : Nat := 1

namespace Direct

def run (cmd : Str) (writefd readfd closefd : Nat) (table : Descriptors α) : Exec α :=
  let table := table.close closefd
  let table := if readfd ≠ STDIN_FILENO then (table.dup2 readfd STDIN_FILENO).close readfd else table
  let table := if writefd ≠ STDOUT_FILENO then (table.dup2 writefd STDOUT_FILENO).close writefd else table
  ⟨cmd, table⟩

structure Main (α : Type) where
  table : Descriptors α
  pipefds : Nat → Nat × Nat
  children : List (Exec α)

def start (table : Descriptors α) : Main α := { table := table, pipefds := fun _ => (0, 0), children := [] }

def pass (cmds : List Str) (s : Main α) (i : Nat) : Main α :=
  let (table, fds) := s.table.pipe (.readEnd i) (.writeEnd i)
  let pipefds := Function.update s.pipefds i fds
  let readfd := if i = 0 then STDIN_FILENO else (pipefds (i - 1)).1
  let child := run (cmds.getD i []) (pipefds i).2 readfd (pipefds i).1 table
  let table := table.close (pipefds i).2
  let table := if 0 < i then table.close (pipefds (i - 1)).1 else table
  { table := table, pipefds := pipefds, children := s.children ++ [child] }

def finish (cmds : List Str) (s : Main α) (i : Nat) : Main α :=
  let child := run (cmds.getD i []) STDOUT_FILENO (s.pipefds (i - 1)).1 (s.pipefds (i - 1)).2 s.table
  let table := (s.table.close (s.pipefds (i - 1)).1).close (s.pipefds (i - 1)).2
  { s with table := table, children := s.children ++ [child] }

def main (cmds : List Str) (table : Descriptors α) : Option (Main α) :=
  if cmds.length + 1 < 3 then none
  else
    let count := cmds.length
    some (finish cmds ((List.range (count - 1)).foldl (pass cmds) (start table)) (count - 1))

end Direct

namespace Nested

/-- `run(cmdlist, inpipeline)` of pipeline.c: the processes that reach their `execl`, and the table
    of the caller behind it. A pipe is created by the process in front of it, before that forks, so
    that `pipes` of them are there already. -/
def run : List Str → Bool → Nat → Descriptors α → List (Exec α) × Descriptors α
  | [], _, _, table => ([], table)
  | cmd :: cmdlist, false, pipes, table =>
    let (below, child) := run cmdlist true pipes table
    (⟨cmd, child⟩ :: below, table)
  | cmd :: cmdlist, true, pipes, table =>
    let (table, r, w) := table.pipe (.readEnd pipes) (.writeEnd pipes)
    let child := ((table.close w).dup2 r STDIN_FILENO).close r
    let (below, child) := run cmdlist true (pipes + 1) child
    (⟨cmd, child⟩ :: below, ((table.close r).dup2 w STDOUT_FILENO).close w)

def main (cmds : List Str) (table : Descriptors α) : Option (List (Exec α) × Descriptors α) :=
  if cmds.length + 1 < 2 then none else some (run cmds false 0 table)

end Nested

end OS2.Pipeline
