import OS2.Lsh.Script

namespace OS2.Lsh.Script

open OS2.Text OS2.Loop OS2.Symtab OS2.Tokenise
open OS2.Lsh.Console (Untouched start start_ready)

/-- What `getenv("HOME")` gives, and where `chdir` leads from a directory with a path in the file system that the
    `n`-th command finds. -/
structure Place (Dir : Type) where
  home : Option Str
  chdir : Nat → Dir → Str → Option Dir

variable {Dir : Type}

def Place.enter (place : Place Dir) (n : Nat) (dir : Dir) (path : Option Str) : Dir :=
  (path.bind (place.chdir n dir)).getD dir

/-- `lsh_cd(argc, argv)`; `none` where `argv[1]` is read behind the end of `argv`. -/
def lshCd (place : Place Dir) (n : Nat) (dir : Dir) (argv : List (Option Str)) : Option Dir :=
  argv[1]?.map fun arg => place.enter n dir (arg.or place.home)

def act (place : Place Dir) (n : Nat) (dir : Dir) : Action → Option Dir
  | .call (.code .lshCd) _ argv => lshCd place n dir argv
  | .call _ _ _ => some dir
  | .external _ _ _ => some dir

def walk (place : Place Dir) (n : Nat) (dir : Dir) : List Action → Option (List Dir)
  | [] => some [dir]
  | action :: actions => do
    let next ← act place n dir action
    let dirs ← walk place (n + 1) next actions
    some (dir :: dirs)

def moved (place : Place Dir) (n : Nat) (dir : Dir) (cmd : Str) : Dir :=
  match (grammar cmd).map Token.value with
  | name :: args => if name = "cd".toList then place.enter n dir (args.head?.or place.home) else dir
  | [] => dir

def directories (place : Place Dir) (n : Nat) (dir : Dir) : List Input → List Dir
  | [] => [dir]
  | .assign _ _ :: inputs => directories place n dir inputs
  | .command cmd :: inputs =>
    dir :: if (Input.command cmd).Exits then [dir] else directories place (n + 1) (moved place n dir cmd) inputs

variable {ARG_MAX rounds n : Nat} {place : Place Dir} {dir : Dir} {paths cmd : Str} {script : List (Str × Input)}
  {action : Action} {actions : List Action} {inputs : List Input} {child : Shell → Str → Str}

theorem lshCd_argv (place : Place Dir) (n : Nat) (dir : Dir) (name : Str) (args : List Str) :
    lshCd place n dir ((name :: args).map some ++ [none]) = some (place.enter n dir (args.head?.or place.home)) := by
  cases args <;> rfl

theorem act_performs (performs : Performs action (outcome paths cmd)) :
    act place n dir action = some (moved place n dir cmd) := by
  rw [outcome] at performs
  rw [moved]
  cases args : (grammar cmd).map Token.value with
  | nil =>
    rw [args] at performs
    cases performs
  | cons name rest =>
    rw [args] at performs
    simp only [List.head?_cons, Option.bind_some] at performs ⊢
    cases bound : internals name with
    | none =>
      rw [bound] at performs
      have other : name ≠ "cd".toList := by
        rintro rfl
        revert bound
        decide
      rw [if_neg other]
      cases performs
      rfl
    | some f =>
      rw [bound] at performs
      rcases installed_iff.mp (internals_eq_some.mp bound) with ⟨rfl, rfl⟩ | ⟨rfl, rfl⟩
      · rw [if_neg (by decide)]
        cases performs
        rfl
      · rw [if_pos rfl]
        cases performs
        exact lshCd_argv place n dir _ rest

theorem walk_meaning (performs : List.Forall₂ Performs actions (meaning paths inputs)) :
    walk place n dir actions = some (directories place n dir inputs) := by
  induction inputs generalizing actions paths n dir with
  | nil =>
    cases performs
    rfl
  | cons input inputs ih =>
    cases input with
    | assign name value => exact ih performs
    | command cmd =>
      cases performs with
      | cons first rest =>
      simp only [walk, act_performs first, directories, Bind.bind, Option.bind]
      split at rest
      · rename_i exits
        cases rest
        have still : moved place n dir cmd = dir := by
          have named : ((grammar cmd).map Token.value).head? = some "exit".toList := List.head?_map.trans exits
          obtain ⟨args, shape⟩ := List.head?_eq_some_iff.mp named
          simp only [moved, shape]
          exact if_neg (by decide)
        rw [if_pos exits, still]
        rfl
      · rename_i goesOn
        rw [if_neg goesOn, ih rest]

/-- In any script that no child touches `lsh_cd` reads no argument that is not there, and each command finds the
    shell in the directory that the `cd` commands before it lead to, whatever the commands between them make of
    the file system. -/
theorem script_moves (untouched : Untouched child) (below : Char) (cut : Chunked ARG_MAX (script.map Prod.fst))
    (said : ∀ entry ∈ script, Says entry.1 entry.2) (enough : script.length < rounds) :
    ∃ shell, Ends (fun fuel => (Console.repl child ARG_MAX fuel rounds
        (start ARG_MAX below (script.map Prod.fst).flatten)).map Console.State.shell) (.ok shell) ∧
      ∀ {Dir : Type} (place : Place Dir) (dir : Dir),
        walk place 0 dir shell.actions = some (directories place 0 dir (script.map Prod.snd)) := by
  have shows : Shows init [] := fun _ => rfl
  have free : NulFree (pathsOf []) := by decide
  obtain ⟨shell, actions, least, acted, outcomes, ends⟩ :=
    @script_runs _ _ below _ _ _ _ untouched cut said sound_init shows (by simp) free rfl enough
  obtain rfl : actions = shell.actions := acted.symm
  refine ⟨shell, ⟨least, ?_⟩, fun place dir => walk_meaning outcomes⟩
  intro fuel bound
  have whole := ends fuel bound _ (start_ready ARG_MAX below _) rfl rfl
  cases returned : Console.repl child ARG_MAX fuel rounds (start ARG_MAX below (script.map Prod.fst).flatten) with
  | error stop =>
    rw [returned] at whole
    cases whole
  | ok s =>
    rw [returned] at whole
    have same : s.shell = shell := congrArg Prod.fst (Except.ok.inj whole)
    simp only [returned, Except.map, same]

def wandering : List (Str × Input) :=
  [("cd x\n".toList, .command "cd x".toList), ("mkdir x\n".toList, .command "mkdir x".toList),
    ("cd x\n".toList, .command "cd x".toList), ("pwd\n".toList, .command "pwd".toList)]

theorem script_moves_mkdir : ∃ shell, Ends (fun fuel => (Console.repl (fun _ input => input) 32 fuel 5
      (start 32 NUL "cd x\nmkdir x\ncd x\npwd\n".toList)).map Console.State.shell) (.ok shell) ∧
    walk ⟨none, fun n _ path => if 2 ≤ n ∧ path = ['x'] then some "/x".toList else none⟩ 0 ['/'] shell.actions =
      some [['/'], ['/'], ['/'], "/x".toList, "/x".toList] := by
  have said : ∀ entry ∈ wandering, Says entry.1 entry.2 := by
    intro entry member
    simp only [wandering, List.mem_cons, List.not_mem_nil, or_false] at member
    rcases member with rfl | rfl | rfl | rfl
    · exact said_command "cd x".toList (by decide) (by decide) (by decide) (by decide) (by decide +kernel)
    · exact said_command "mkdir x".toList (by decide) (by decide) (by decide) (by decide) (by decide +kernel)
    · exact said_command "cd x".toList (by decide) (by decide) (by decide) (by decide) (by decide +kernel)
    · exact said_command "pwd".toList (by decide) (by decide) (by decide) (by decide) (by decide +kernel)
  have cut : Chunked 32 (wandering.map Prod.fst) :=
    .cons (by decide) (by decide) (.cons (by decide) (by decide) (.cons (by decide) (by decide)
      (.cons (by decide) (by decide) .nil)))
  have enough : wandering.length < 5 := by decide
  have text : (wandering.map Prod.fst).flatten = "cd x\nmkdir x\ncd x\npwd\n".toList := by decide
  obtain ⟨shell, ends, walks⟩ := @script_moves 32 5 wandering _ (fun _ _ => rfl) NUL cut said enough
  rw [text] at ends
  refine ⟨shell, ends, (walks _ _).trans ?_⟩
  decide +kernel

end OS2.Lsh.Script
