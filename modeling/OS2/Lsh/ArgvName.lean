import OS2.Lsh.Parse
import OS2.Tokenise.Escape

namespace OS2.Lsh

open OS2.Text OS2.Loop OS2.Regex OS2.Symtab OS2.Tokenise

variable {cmd : Str} {tokens : List Token}

/-- The line gives an `argv[0]`, and no function that reads it meets a NULL there. -/
structure HasName (below : Char) (line : Str) (tokens : List Token) : Prop where
  nonempty : tokens ≠ []
  name : ∃ name, (argvOf tokens).head? = some (some name)
  reads : ∀ fuel shell, parse fuel below shell line ≠ .error (.fault .nullName)

theorem noItem_trimmed_iff (trimmed : Trimmed cmd) (nonempty : cmd ≠ []) : NoItem cmd ↔ cmd = ['\\'] := by
  constructor
  · intro none
    rcases none with blank | ⟨gap, behind, blank, blank', rfl⟩
    · cases cmd with
      | nil => exact absurd rfl nonempty
      | cons c cs =>
        have black := trimmed.1 c rfl
        rw [blank c List.mem_cons_self] at black
        cases black
    · have noGap : gap = [] := by
        cases gap with
        | nil => rfl
        | cons c gap =>
          have black := trimmed.1 c rfl
          rw [blank c List.mem_cons_self] at black
          cases black
      have noBehind : behind = [] := by
        by_contra more
        have last : (gap ++ '\\' :: behind).getLast? = some (behind.getLast more) := by
          simp [List.getLast?_append, List.getLast?_cons, List.getLast?_eq_some_getLast more]
        have black := trimmed.2 _ last
        rw [blank' _ (List.getLast_mem more)] at black
        cases black
      rw [noGap, noBehind]
      rfl
  · intro lone
    subst lone
    exact .inr ⟨[], [], by simp [Blank], by simp [Blank], rfl⟩

theorem runCommand_named {shell : Shell} {argc : Nat} {argv : List (Option Str)} {name : Str}
    (head : argv.head? = some (some name)) : runCommand shell argc argv ≠ .error .nullName := by
  rcases runCommand_cases shell argc argv with ⟨_, _, ran⟩ | ⟨_, nameless⟩ | ⟨ran, _⟩
  · rw [ran]
    simp
  · exact absurd head (nameless name)
  · rw [ran]
    simp

theorem dispatch_named {shell : Shell} {fuel : Nat} {name : Str} (free : NulFree cmd)
    (head : (argvOf (fetched cmd)).head? = some (some name)) :
    dispatch fuel shell cmd ≠ .error (.fault .nullName) := by
  unfold dispatch
  split
  · simp
  · have reads := fetch_fault (e := .nullName) (by simp) fuel cmd
    cases returned : fetch fuel cmd with
    | error stop =>
      rw [returned] at reads
      simpa [Bind.bind, Except.bind] using reads
    | ok result =>
      obtain ⟨_, rfl⟩ := fetch_ok free returned
      have named : runCommand shell (fetched cmd).length _ ≠ .error .nullName := runCommand_named head
      simp only [Bind.bind, Except.bind]
      cases ran : runCommand shell (fetched cmd).length (argvOf (fetched cmd)) with
      | ok shell' => simp [Except.mapError]
      | error fault =>
        rw [ran] at named
        simpa [Except.mapError] using named

/-- A command line on which `tokenise_fetch` returns gives a name exactly where its text is not a lone
    backslash. -/
theorem command_has_name_iff {below : Char} {line : Str} (trimmed : trimLine below line = some cmd)
    (nonempty : cmd ≠ []) (command : assignment.search cmd = false) (returns : Fetches cmd tokens) :
    HasName below line tokens ↔ cmd ≠ ['\\'] := by
  have text := trimLine_some trimmed
  have free : NulFree cmd := by
    rw [text]
    exact nulFree_strip (cstr_terminated line).1
  have around : Trimmed cmd := by
    obtain ⟨_, _, _, _, _, around⟩ := strip_split (cstr line 0)
    rwa [text]
  obtain ⟨settles, rfl⟩ := fetched_of_fetches free returns
  have lone := noItem_trimmed_iff around nonempty
  constructor
  · intro named same
    exact named.nonempty (fetched_noItem (lone.mpr same))
  · intro other
    cases tokens : fetched cmd with
    | nil => exact absurd (lone.mp (noItem_of_fetched settles tokens)) other
    | cons first behind =>
      have head : (argvOf (fetched cmd)).head? = some (some first.value) := by rw [tokens]; rfl
      refine ⟨by simp, ⟨first.value, rfl⟩, fun fuel shell => ?_⟩
      have parsed : parse fuel below shell line = dispatch fuel shell cmd := by simp [parse, trimmed, command]
      rw [parsed]
      exact dispatch_named free head

theorem command_has_name_iff_ls : HasName NUL " ls -l\n".toList (fetched "ls -l".toList) ↔ "ls -l".toList ≠ ['\\'] :=
  command_has_name_iff (by decide) (by decide) (by decide) (fetches_of_settles (by decide) (by decide +kernel))

theorem lone_backslash_has_no_name :
    trimLine NUL "\\\n".toList = some ['\\'] ∧ assignment.search ['\\'] = false ∧ Fetches ['\\'] [] ∧
      parse 60 NUL init "\\\n".toList = .error (.fault .nullName) ∧ ¬ HasName NUL "\\\n".toList [] := by
  have returns : Fetches ['\\'] (fetched ['\\']) := fetches_of_settles (by decide) (by decide +kernel)
  refine ⟨by decide, by decide, by simpa [fetched, Ending.escaped] using returns, by decide, ?_⟩
  intro named
  exact named.nonempty rfl

end OS2.Lsh
