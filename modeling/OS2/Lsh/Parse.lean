import OS2.Lsh.Shell
import OS2.Tokenise.Items

namespace OS2.Lsh

open OS2.Text OS2.Loop OS2.Regex OS2.Symtab OS2.Tokenise

variable {shell shell' : Shell} {cmd : Str} {fuel argc : Nat} {argv : List (Option Str)}

theorem fetch_of_settles (free : NulFree cmd) (settles : Settles cmd) :
    Ends (fetch · cmd) (.ok (fetched cmd, (fetched cmd).length)) := by
  obtain ⟨least, returns⟩ := fetches_of_settles free settles
  exists least
  intro fuel bound
  have result : tokeniseFetch fuel cmd = .ok (fetched cmd, (fetched cmd).length) := returns fuel bound
  simp only [fetch, result, Except.mapError]

theorem fetch_hangs (free : NulFree cmd) (unsettled : ¬ Settles cmd) : Hangs (fetch · cmd) := by
  intro fuel
  have stuck : tokeniseFetch fuel cmd = .error .fuel := Tokenise.fetch_hangs free unsettled fuel
  simp only [fetch, stuck, Except.mapError, Stop.map]

theorem fetch_ok {result : List Token × Nat} (free : NulFree cmd) (h : fetch fuel cmd = .ok result) :
    Settles cmd ∧ result = (fetched cmd, (fetched cmd).length) := by
  unfold fetch at h
  cases returned : tokeniseFetch fuel cmd <;> simp only [returned, Except.mapError] at h
  · cases h
  · cases h
    exact fetched_of_tokeniseFetch free returned

theorem fetch_fault {e : Fault} (other : ∀ fault, e ≠ .tokenise fault) (fuel : Nat) (cmd : Str) :
    fetch fuel cmd ≠ .error (.fault e) := by
  unfold fetch
  cases tokeniseFetch fuel cmd with
  | ok result => simp [Except.mapError]
  | error stop =>
    cases stop with
    | fuel => simp [Except.mapError, Stop.map]
    | fault fault => simpa [Except.mapError, Stop.map] using (other fault).symm

theorem Shell.set_cases (shell : Shell) (name : Str) (setting : Setting Handler) :
    Yields shell.symtab (copyIn shell.heap setting).2 name ∧
        shell.set name setting = .ok (shell.entered name setting) ∨
      ¬ Yields shell.symtab (copyIn shell.heap setting).2 name ∧
        shell.set name setting = .error (.badFree (shell.entered name setting).heap) := by
  unfold Shell.set
  rcases symtabSet_cases shell.symtab shell.heap name setting with ⟨yields, returns⟩ | ⟨refused, faults⟩
  · rw [returns]
    exact .inl ⟨yields, rfl⟩
  · rw [faults]
    exact .inr ⟨refused, rfl⟩

theorem Shell.set_eq {name : Str} {setting : Setting Handler} (sets : shell.set name setting = .ok shell') :
    shell' = shell.entered name setting ∧ Yields shell.symtab (copyIn shell.heap setting).2 name := by
  rcases shell.set_cases name setting with ⟨yields, returns⟩ | ⟨_, faults⟩
  · exact ⟨Except.ok.inj (sets.symm.trans returns), yields⟩
  · rw [faults] at sets
    cases sets

def Shell.called (shell : Shell) (f : Handler) (argc : Nat) (argv : List (Option Str)) : Shell :=
  { shell.act (.call (.code f) argc argv) with running := shell.running && f != .halt }

def Shell.forked (shell : Shell) (name : Str) (argc : Nat) (argv : List (Option Str)) : Shell :=
  shell.act (.external argc argv
    (if '/' ∈ name then none else some (symtabFetch shell.symtab "PATH".toList (.text PATH))))

inductive Runs (shell : Shell) (argc : Nat) (argv : List (Option Str)) : Shell → Prop where
  | internal (name : Str) (symbol : Symbol Handler) (f : Handler)
      (head : argv.head? = some (some name)) (found : symtabLookup shell.symtab name = some symbol)
      (type : symbol.type = .internal) (value : symbol.value = .code f) :
      Runs shell argc argv (shell.called f argc argv)
  | external (name : Str) (head : argv.head? = some (some name))
      (other : ∀ symbol, symtabLookup shell.symtab name = some symbol → symbol.type ≠ .internal) :
      Runs shell argc argv (shell.forked name argc argv)

theorem runCommand_code {name : Str} {symbol : Symbol Handler} {f : Handler}
    (head : argv.head? = some (some name)) (found : symtabLookup shell.symtab name = some symbol)
    (type : symbol.type = .internal) (value : symbol.value = .code f) :
    runCommand shell argc argv = .ok (shell.called f argc argv) := by
  cases f <;>
    simp [runCommand, internal, head, found, type, value, callInternal, Shell.called, Shell.act, Bind.bind,
      Except.bind, Pure.pure, Except.pure]

theorem runCommand_external {name : Str} (head : argv.head? = some (some name))
    (other : ∀ symbol, symtabLookup shell.symtab name = some symbol → symbol.type ≠ .internal) :
    runCommand shell argc argv = .ok (shell.forked name argc argv) := by
  have missed : internal shell argc argv = .ok (shell, some (-1)) := by
    simp only [internal, head]
    cases found : symtabLookup shell.symtab name with
    | none => rfl
    | some symbol => simp only [other symbol found, if_false]
  simp [runCommand, missed, external, head, Shell.forked, Bind.bind, Except.bind]

/-- A command runs, or has no name, or its name is bound to a `SYM_INTERNAL` that is no function. -/
theorem runCommand_cases (shell : Shell) (argc : Nat) (argv : List (Option Str)) :
    (∃ shell', Runs shell argc argv shell' ∧ runCommand shell argc argv = .ok shell') ∨
    (runCommand shell argc argv = .error .nullName ∧ ∀ name, argv.head? ≠ some (some name)) ∨
    runCommand shell argc argv = .error .notAFunction ∧ ∃ name symbol,
      symtabLookup shell.symtab name = some symbol ∧ symbol.type = .internal ∧ ∀ f, symbol.value ≠ .code f := by
  cases head : argv.head? with
  | none => exact .inr (.inl ⟨by simp [runCommand, internal, head, Bind.bind, Except.bind], by simp⟩)
  | some first =>
    cases first with
    | none => exact .inr (.inl ⟨by simp [runCommand, internal, head, Bind.bind, Except.bind], by simp⟩)
    | some name =>
      by_cases bound : ∃ symbol, symtabLookup shell.symtab name = some symbol ∧ symbol.type = .internal
      · obtain ⟨symbol, found, type⟩ := bound
        by_cases code : ∃ f, symbol.value = .code f
        · obtain ⟨f, value⟩ := code
          exact .inl ⟨_, .internal name symbol f head found type value, runCommand_code head found type value⟩
        · have other : ∀ f, symbol.value ≠ .code f := fun f value => code ⟨f, value⟩
          refine .inr (.inr ⟨?_, name, symbol, found, type, other⟩)
          cases value : symbol.value with
          | code f => exact absurd value (other f)
          | _ => simp [runCommand, internal, head, found, type, value, callInternal, Bind.bind, Except.bind]
      · have other : ∀ symbol, symtabLookup shell.symtab name = some symbol → symbol.type ≠ .internal :=
          fun symbol found type => bound ⟨symbol, found, type⟩
        exact .inl ⟨_, .external name head other, runCommand_external head other⟩

theorem runs_of_runCommand (h : runCommand shell argc argv = .ok shell') : Runs shell argc argv shell' := by
  rcases runCommand_cases shell argc argv with ⟨_, runs, ran⟩ | ⟨ran, _⟩ | ⟨ran, _⟩
  · rw [h] at ran
    cases ran
    exact runs
  · rw [h] at ran
    cases ran
  · rw [h] at ran
    cases ran

theorem Runs.runCommand_eq (runs : Runs shell argc argv shell') : runCommand shell argc argv = .ok shell' := by
  cases runs with
  | internal name symbol f head found type value => exact runCommand_code head found type value
  | external name head other => exact runCommand_external head other

theorem Runs.frame (runs : Runs shell argc argv shell') :
    shell'.symtab = shell.symtab ∧ shell'.heap = shell.heap := by
  cases runs <;> exact ⟨rfl, rfl⟩

/-- What `parse` makes of the shell on a line whose trimmed text is `cmd`, if it returns. -/
inductive Parsed (shell : Shell) (cmd : Str) : Shell → Prop where
  | assign (name value : Token) (shell' : Shell) (found : assignment.search cmd = true) (settles : Settles cmd)
      (first : (fetched cmd)[0]? = some name) (third : (fetched cmd)[2]? = some value)
      (sets : shell.set name.value (.var value.value) = .ok shell') : Parsed shell cmd shell'
  | empty (nothing : cmd = []) : Parsed shell cmd shell
  | command (shell' : Shell) (other : assignment.search cmd = false) (settles : Settles cmd)
      (runs : Runs shell (fetched cmd).length (argvOf (fetched cmd)) shell') : Parsed shell cmd shell'

theorem assign_cases (free : NulFree cmd) (h : assign fuel shell cmd = .ok shell') :
    ∃ name value, Settles cmd ∧ (fetched cmd)[0]? = some name ∧ (fetched cmd)[2]? = some value ∧
      shell.set name.value (.var value.value) = .ok shell' := by
  unfold assign at h
  obtain ⟨result, returned, h⟩ := bind_ok h
  obtain ⟨settles, rfl⟩ := fetch_ok free returned
  cases first : (fetched cmd)[0]? <;> cases third : (fetched cmd)[2]? <;> simp only [first, third] at h
  · cases h
  · cases h
  · cases h
  · rename_i name value
    refine ⟨name, value, settles, rfl, rfl, ?_⟩
    cases sets : shell.set name.value (.var value.value) <;> rw [sets] at h <;> cases h
    rfl

theorem assign_ends (free : NulFree cmd) (settles : Settles cmd) {name value : Token}
    (first : (fetched cmd)[0]? = some name) (third : (fetched cmd)[2]? = some value) :
    Ends (assign · shell cmd) ((shell.set name.value (.var value.value)).mapError .fault) := by
  apply Ends.bind (fetch_of_settles free settles)
  simp only [first, third]
  exact Ends.const _

theorem dispatch_cases (free : NulFree cmd) (h : dispatch fuel shell cmd = .ok shell') :
    cmd = [] ∧ shell' = shell ∨
      Settles cmd ∧ Runs shell (fetched cmd).length (argvOf (fetched cmd)) shell' := by
  unfold dispatch at h
  split at h
  · rename_i nothing
    cases h
    exact .inl ⟨nothing, rfl⟩
  · obtain ⟨result, returned, h⟩ := bind_ok h
    obtain ⟨settles, rfl⟩ := fetch_ok free returned
    cases ran : runCommand shell (fetched cmd).length (argvOf (fetched cmd)) <;>
      simp only [ran, Except.mapError] at h <;> cases h
    exact .inr ⟨settles, runs_of_runCommand ran⟩

theorem dispatch_frame (free : NulFree cmd) (h : dispatch fuel shell cmd = .ok shell') :
    shell'.symtab = shell.symtab ∧ shell'.heap = shell.heap := by
  rcases dispatch_cases free h with ⟨_, rfl⟩ | ⟨_, runs⟩
  · exact ⟨rfl, rfl⟩
  · exact runs.frame

theorem dispatch_ends (free : NulFree cmd) (settles : Settles cmd) (nonempty : cmd ≠ [])
    (runs : Runs shell (fetched cmd).length (argvOf (fetched cmd)) shell') :
    Ends (dispatch · shell cmd) (.ok shell') := by
  have ran := runs.runCommand_eq
  obtain ⟨least, returns⟩ := fetch_of_settles free settles
  exists least
  intro fuel bound
  have result : fetch fuel cmd = .ok (fetched cmd, (fetched cmd).length) := returns fuel bound
  simp only [dispatch, if_neg nonempty, result, Bind.bind, Except.bind, ran, Except.mapError]

theorem parse_parsed {below : Char} {line : Str} (h : parse fuel below shell line = .ok shell') :
    Parsed shell (strip (cstr line 0)) shell' := by
  have free := nulFree_strip (cstr_terminated line).1
  unfold parse at h
  cases trimmed : trimLine below line <;> simp only [trimmed] at h
  · cases h
  · obtain rfl := trimLine_some trimmed
    split at h
    · rename_i found
      obtain ⟨name, value, settles, first, third, sets⟩ := assign_cases free h
      exact .assign name value _ found settles first third sets
    · rename_i other
      rcases dispatch_cases free h with ⟨nothing, rfl⟩ | ⟨settles, runs⟩
      · exact .empty nothing
      · exact .command _ (Bool.eq_false_iff.mpr other) settles runs

theorem repl_cons {below : Char} {line : Str} {lines : List Str}
    (h : repl fuel below shell (line :: lines) = .ok shell') :
    ∃ middle, parse fuel below shell line = .ok middle ∧ repl fuel below middle lines = .ok shell' := by
  unfold repl at h
  split at h
  · exact bind_ok h
  · cases h

theorem repl_append (fuel : Nat) (below : Char) (shell : Shell) (first second : List Str) :
    repl fuel below shell (first ++ second) =
      repl fuel below shell first >>= fun middle => repl fuel below middle second := by
  induction first generalizing shell with
  | nil => rfl
  | cons line first ih =>
    rw [List.cons_append, repl, repl]
    by_cases running : shell.running = true
    · simp only [running, if_true, Bind.bind]
      cases parse fuel below shell line with
      | error stop => rfl
      | ok next => exact ih next
    · simp only [running]
      rfl

theorem repl_append_ok {below : Char} {first second : List Str}
    (h : repl fuel below shell (first ++ second) = .ok shell') :
    ∃ middle, repl fuel below shell first = .ok middle ∧ repl fuel below middle second = .ok shell' := by
  rw [repl_append] at h
  exact bind_ok h

theorem repl_invariant (invariant : Shell → Prop) (allowed : Str → Prop)
    (step : ∀ shell cmd shell', allowed cmd → Parsed shell cmd shell' → invariant shell → invariant shell')
    {below : Char} {lines : List Str} (all : ∀ line ∈ lines, allowed (strip (cstr line 0)))
    (h : repl fuel below shell lines = .ok shell') (start : invariant shell) : invariant shell' := by
  induction lines generalizing shell with
  | nil =>
    cases h
    exact start
  | cons line lines ih =>
    obtain ⟨first, later⟩ := List.forall_mem_cons.mp all
    obtain ⟨middle, parsed, rest⟩ := repl_cons h
    exact ih later rest (step _ _ _ first (parse_parsed parsed) start)

end OS2.Lsh
