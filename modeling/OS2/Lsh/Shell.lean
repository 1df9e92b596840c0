import OS2.Lsh.Trim
import OS2.Regex.Pattern
import OS2.Symtab.Table
import OS2.Tokenise.Scanner

namespace OS2.Lsh

open OS2.Text OS2.Loop OS2.Regex OS2.Symtab OS2.Tokenise

inductive Handler where
  | halt
  | lshCd
  deriving DecidableEq, Repr

/-- What a line makes the shell do: call the function at an address, or run `external`, with the
    address that its child hands to `path_lookup` where `argv[0]` has no slash. -/
inductive Action where
  | call (f : Ptr Handler) (argc : Nat) (argv : List (Option Str))
  | external (argc : Nat) (argv : List (Option Str)) (path : Option (Ptr Handler))
  deriving DecidableEq, Repr

def isExternal : Action → Bool
  | .call _ _ _ => false
  | .external _ _ _ => true

/-- How a line can go wrong, beside hanging: `trim` writes in front of `buffer`, `tokens[0]` or
    `tokens[2]` is read behind the last token, `free` aborts, `argv[0]` is NULL where a string is read, a
    value that is no function is called, or no process is left to read the line. -/
inductive Fault where
  | underrun
  | tokenise (e : Tokenise.Fault)
  | tokenRange
  | badFree (heap : Heap Handler)
  | nullName
  | notAFunction
  | exited
  deriving DecidableEq, Repr

structure Shell where
  symtab : List (Symbol Handler)
  heap : Heap Handler
  running : Bool
  actions : List Action
  deriving DecidableEq, Repr

def PS1 : Str := ">> ".toList

def PATH : Str := "/usr/local/bin:/bin:/usr/bin".toList

def Shell.set (shell : Shell) (name : Str) (setting : Setting Handler) : Except Fault Shell := do
  let (symtab, heap) ← (symtabSet shell.symtab shell.heap name setting).mapError .badFree
  .ok { shell with symtab, heap }

def Shell.entered (shell : Shell) (name : Str) (setting : Setting Handler) : Shell :=
  { shell with
    symtab := (Symtab.entered shell.symtab shell.heap name setting).1
    heap := (Symtab.entered shell.symtab shell.heap name setting).2 }

def Shell.empty : Shell := { symtab := [], heap := .init, running := true, actions := [] }

def init : Shell :=
  (((Shell.empty.entered "PS1".toList (.var PS1)).entered "PATH".toList (.var PATH)).entered
    "exit".toList (.internal (.code .halt))).entered "cd".toList (.internal (.code .lshCd))

/-- The calls of `symtab_set` in `init()`. -/
theorem init_sets : (do
    let shell ← Shell.empty.set "PS1".toList (.var PS1)
    let shell ← shell.set "PATH".toList (.var PATH)
    let shell ← shell.set "exit".toList (.internal (.code .halt))
    shell.set "cd".toList (.internal (.code .lshCd))) = .ok init := by decide

def prompt (shell : Shell) : Ptr Handler := symtabFetch shell.symtab "PS1".toList (.text PS1)

def Shell.act (shell : Shell) (action : Action) : Shell := { shell with actions := shell.actions ++ [action] }

def callInternal (shell : Shell) (f : Ptr Handler) (argc : Nat) (argv : List (Option Str)) :
    Except Fault (Shell × Option Int) :=
  match f with
  | .code .halt => .ok ({ shell.act (.call f argc argv) with running := false }, none)
  | .code .lshCd => .ok (shell.act (.call f argc argv), some 0)
  | _ => .error .notAFunction

def internal (shell : Shell) (argc : Nat) (argv : List (Option Str)) :
    Except Fault (Shell × Option Int) :=
  match argv.head? with
  | some (some name) =>
    match symtabLookup shell.symtab name with
    | some symbol =>
      if symbol.type = .internal then callInternal shell symbol.value argc argv
      else .ok (shell, some (-1))
    | none => .ok (shell, some (-1))
  | _ => .error .nullName

/-- `external(argc, argv)`. Its status is that of another program, and `parse` drops it. -/
def external (shell : Shell) (argc : Nat) (argv : List (Option Str)) : Except Fault Shell :=
  match argv.head? with
  | some (some name) =>
    let path := if '/' ∈ name then none else some (symtabFetch shell.symtab "PATH".toList (.text PATH))
    .ok (shell.act (.external argc argv path))
  | _ => .error .nullName

def argvOf (tokens : List Token) : List (Option Str) := tokens.map (fun token => some token.value) ++ [none]

def fetch (fuel : Nat) (cmd : Str) : Except (Stop Fault) (List Token × Nat) :=
  (tokeniseFetch fuel cmd).mapError (Stop.map .tokenise)

def runCommand (shell : Shell) (argc : Nat) (argv : List (Option Str)) : Except Fault Shell := do
  let (shell, status) ← internal shell argc argv
  match status with
  | none => pure shell
  | some status => if status < 0 then external shell argc argv else pure shell

def dispatch (fuel : Nat) (shell : Shell) (cmd : Str) : Except (Stop Fault) Shell :=
  if cmd = [] then .ok shell
  else do
    let (tokens, argc) ← fetch fuel cmd
    (runCommand shell argc (argvOf tokens)).mapError .fault

def isLetter (c : Char) : Bool := ('a' ≤ c && c ≤ 'z') || ('A' ≤ c && c ≤ 'Z')

def isAlnum (c : Char) : Bool := isLetter c || ('0' ≤ c && c ≤ '9')

/-- `([a-zA-Z]+[a-zA-Z0-9]*)=(.*)`, where under `REG_NEWLINE` the dot is no newline. -/
def assignment : Pattern Char :=
  .seq (.seq (.plus (.cls isLetter)) (.star (.cls isAlnum)))
    (.seq (.cls (· == '=')) (.star (.cls (· != '\n'))))

def assign (fuel : Nat) (shell : Shell) (cmd : Str) : Except (Stop Fault) Shell := do
  let (tokens, _) ← fetch fuel cmd
  match tokens[0]?, tokens[2]? with
  | some name, some value => (shell.set name.value (.var value.value)).mapError .fault
  | _, _ => .error (.fault .tokenRange)

/-- `parse()` on a line in the buffer, with the byte `below` in front of it. -/
def parse (fuel : Nat) (below : Char) (shell : Shell) (line : Str) : Except (Stop Fault) Shell :=
  match trimLine below line with
  | none => .error (.fault .underrun)
  | some cmd =>
    if assignment.search cmd then assign fuel shell cmd
    else dispatch fuel shell cmd

def repl (fuel : Nat) (below : Char) (shell : Shell) (lines : List Str) : Except (Stop Fault) Shell :=
  match lines with
  | [] => .ok shell
  | line :: lines =>
    if shell.running then do
      let shell ← parse fuel below shell line
      repl fuel below shell lines
    else .error (.fault .exited)

example : repl 60 NUL init ["PS1=\"% \"\n".toList, " ls -l|wc\n".toList, "cd /\n".toList] = .ok
    { symtab := [⟨"cd".toList, .code .lshCd, .internal⟩, ⟨"exit".toList, .code .halt, .internal⟩,
        ⟨"PATH".toList, .dup 1 PATH, .var⟩, ⟨"PS1".toList, .dup 2 "% ".toList, .var⟩],
      heap := { dups := 3, freed := [.dup 0 PS1] }, running := true,
      actions := [
        .external 4 [some "ls".toList, some "-l".toList, some ['|'], some "wc".toList, none]
          (some (.dup 1 PATH)),
        .call (.code .lshCd) 2 [some "cd".toList, some ['/'], none]] } := by decide

end OS2.Lsh
