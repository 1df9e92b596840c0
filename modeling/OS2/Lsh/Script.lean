import OS2.Lsh.Console
import OS2.Lsh.Contract
import OS2.Lsh.External

namespace OS2.Lsh.Script

open OS2.Text OS2.Loop OS2.Symtab OS2.Tokenise
open OS2.Lsh.Console (Ready Untouched start start_ready repl_line)

/-- What a command comes to: a call of an internal command, or a child of `external`, where PATH has the
    value `paths`. -/
inductive Outcome where
  | internal (f : Handler) (args : List Str)
  | external (paths : Str) (args : List Str)
  deriving DecidableEq, Repr

def internals (name : Str) : Option Handler :=
  if name = "exit".toList then some .halt else if name = "cd".toList then some .lshCd else none

def outcome (paths cmd : Str) : Outcome :=
  let args := (grammar cmd).map Token.value
  match args.head?.bind internals with
  | some f => .internal f args
  | none => .external paths args

instance (input : Input) : Decidable input.Exits :=
  match input with
  | .assign _ _ => .isFalse not_false
  | .command cmd => inferInstanceAs (Decidable ((grammar cmd).head?.map Token.value = some "exit".toList))

def meaning (paths : Str) : List Input → List Outcome
  | [] => []
  | .assign name value :: inputs => meaning (if name = "PATH".toList then value else paths) inputs
  | .command cmd :: inputs =>
    outcome paths cmd :: if (Input.command cmd).Exits then [] else meaning paths inputs

def behindExit : List (Str × Input) → List Str
  | [] => []
  | (_, input) :: script => if input.Exits then script.map Prod.fst else behindExit script

/-- The file that a command runs is its name, or the first of that name in PATH; where there is none, the text
    of PATH is taken for it. With white space in front of its copy of a PATH that begins with a component of
    white space, `trim` writes there. -/
def resolve (fs : FileSystem) (below : Char) (paths name : Str) : Except (Stop LookupFault) Exec :=
  if '/' ∈ name then .ok (fs.execve name)
  else if isspace below = true ∧ LeadsBlank paths then .error (.fault .underrun)
  else .ok (fs.execve ((firstMatch name fs.stat (components ':' paths)).file paths))

/-- An action does what an outcome says, whatever files there are when it comes to run. -/
inductive Performs : Action → Outcome → Prop where
  | internal (f : Handler) (args : List Str) :
      Performs (.call (.code f) args.length (args.map some ++ [none])) (.internal f args)
  | external (name : Str) (args : List Str) (paths : Str) (path : Option (Ptr Handler))
      (readable : ∃ text, ∀ p, path = some p → p.chars = some text)
      (runs : ∀ text, (∀ p, path = some p → p.chars = some text) → ∀ pre post fs below,
        Ends (externalChild · below (pre ++ (text ++ NUL :: post)) pre.length name fs) (resolve fs below paths name)) :
      Performs (.external (name :: args).length ((name :: args).map some ++ [none]) path)
        (.external paths (name :: args))

variable {ARG_MAX rounds : Nat} {below : Char} {shell : Shell} {before : List Input} {script : List (Str × Input)}
  {paths cmd name value line : Str} {action : Action} {child : Shell → Str → Str}

theorem argvOf_eq (tokens : List Token) : argvOf tokens = (tokens.map Token.value).map some ++ [none] := by
  rw [argvOf, List.map_map]
  rfl

theorem internals_eq_some {f : Handler} : internals name = some f ↔ Installed name f := by
  rw [installed_iff, internals]
  by_cases exits : name = "exit".toList
  · rw [if_pos exits, exits]
    cases f <;> simp
  · rw [if_neg exits]
    by_cases moves : name = "cd".toList
    · rw [if_pos moves, moves]
      cases f <;> simp
    · rw [if_neg moves]
      simp only [reduceCtorEq, exits, moves, false_and, or_false]

theorem externalChild_resolve (free : NulFree paths) (pre post : List Char) (fs : FileSystem) (below : Char)
    (name : Str) : Ends (externalChild · below (pre ++ (paths ++ NUL :: post)) pre.length name fs)
      (resolve fs below paths name) := by
  rw [resolve]
  split
  · rename_i slash
    simp only [externalChild, if_pos slash]
    exact Ends.const _
  · rename_i plain
    split
    · rename_i blank
      exact externalChild_underruns pre post fs free plain blank.1 blank.2
    · rename_i stops
      exact externalChild_lookup pre post fs below free plain (by simpa [or_iff_not_imp_left] using stops)

theorem performs_of (free : NulFree paths) (one : ActionOf paths (grammar cmd) action) :
    Performs action (outcome paths cmd) := by
  cases one with
  | call name f first installed =>
    have bound : ((grammar cmd).map Token.value).head?.bind internals = some f := by
      rw [List.head?_map, first]
      exact internals_eq_some.mpr installed
    have performs := Performs.internal f ((grammar cmd).map Token.value)
    rw [← argvOf_eq, List.length_map] at performs
    simp only [outcome, bound]
    exact performs
  | external name path first other lookup =>
    obtain ⟨args, shape⟩ : ∃ args, (grammar cmd).map Token.value = name :: args := by
      rw [← List.head?_map] at first
      exact List.head?_eq_some_iff.mp first
    have unbound : internals name = none := by
      cases bound : internals name with
      | none => rfl
      | some f => exact absurd (internals_eq_some.mp bound) (other f)
    have readable : ∃ text, ∀ p, path = some p → p.chars = some text := by
      split at lookup
      · subst lookup
        exact ⟨[], by simp⟩
      · obtain ⟨block, rfl⟩ := lookup
        refine ⟨paths, ?_⟩
        intro p same
        cases same
        rfl
    have runs : ∀ text, (∀ p, path = some p → p.chars = some text) → ∀ pre post fs below,
        Ends (externalChild · below (pre ++ (text ++ NUL :: post)) pre.length name fs)
          (resolve fs below paths name) := by
      intro text holds pre post fs below
      split at lookup
      · rename_i slash
        simp only [resolve, externalChild, if_pos slash]
        exact Ends.const _
      · obtain ⟨block, rfl⟩ := lookup
        obtain rfl : paths = text := Option.some.inj (holds _ rfl)
        exact externalChild_resolve free pre post fs below name
    have performs := Performs.external name args paths path readable runs
    rw [← shape, ← argvOf_eq, List.length_map] at performs
    simp only [outcome, shape, List.head?_cons, Option.bind_some, unbound]
    rw [← shape]
    exact performs

theorem nulFree_value (said : Says line (.assign name value)) : NulFree value := by
  obtain ⟨text, spells, _⟩ := parse_said said
  cases spells with
  | assign _ q _ isName noExit noCd free writes =>
    cases writes with
    | quoted c _ quote outside newline =>
      simp only [nulFree_cons, nulFree_append] at free
      exact free.2.1
    | plain _ bare => exact free

def pathsOf (inputs : List Input) : Str := (lastValue "PATH".toList inputs).getD PATH

theorem pathsOf_assign (before : List Input) (name value : Str) : pathsOf (before ++ [.assign name value]) =
    if name = "PATH".toList then value else pathsOf before := by
  rw [pathsOf, lastValue_append, Input.value]
  split <;> rfl

theorem pathsOf_command (before : List Input) (cmd : Str) : pathsOf (before ++ [.command cmd]) = pathsOf before := by
  rw [pathsOf, lastValue_append]
  rfl

theorem parse_means (sound : Sound shell) (shows : Shows shell before) (all : ∀ input ∈ before, ∃ line, Says line input)
    (free : NulFree (pathsOf before)) (running : shell.running = true) {input : Input} (said : Says line input) :
    ∃ shell' actions, Ends (parse · below shell line) (.ok shell') ∧ Shows shell' (before ++ [input]) ∧
      shell'.actions = shell.actions ++ actions ∧ (shell'.running = true ↔ ¬ input.Exits) ∧
      NulFree (pathsOf (before ++ [input])) ∧ ∀ inputs outcomes,
        List.Forall₂ Performs outcomes (if input.Exits then [] else meaning (pathsOf (before ++ [input])) inputs) →
          List.Forall₂ Performs (actions ++ outcomes) (meaning (pathsOf before) (input :: inputs)) := by
  cases input with
  | assign name value =>
    refine ⟨shell.entered name (.var value), [], parse_assign said below sound, shows.set name value, ?_, ?_, ?_, ?_⟩
    · exact (List.append_nil _).symm
    · exact ⟨fun _ => not_false, fun _ => running⟩
    · rw [pathsOf_assign]
      split
      · exact nulFree_value said
      · exact free
    · intro inputs outcomes later
      rw [pathsOf_assign] at later
      exact later
  | command cmd =>
    obtain ⟨shell', action, parses, symtab, _, actions, one, exits⟩ := parse_command shows all said below
    rw [pathsOf_command]
    refine ⟨shell', [action], parses, shows.command symtab cmd, actions, ?_, free, ?_⟩
    · rw [exits]
      exact and_iff_right running
    · intro inputs outcomes later
      exact .cons (performs_of free one) later

theorem script_runs (untouched : Untouched child) (cut : Chunked ARG_MAX (script.map Prod.fst))
    (said : ∀ entry ∈ script, Says entry.1 entry.2)
    (sound : Sound shell) (shows : Shows shell before) (all : ∀ input ∈ before, ∃ line, Says line input)
    (free : NulFree (pathsOf before)) (running : shell.running = true) (enough : script.length < rounds) :
    ∃ shell' actions least, shell'.actions = shell.actions ++ actions ∧
      List.Forall₂ Performs actions (meaning (pathsOf before) (script.map Prod.snd)) ∧
      ∀ fuel, least ≤ fuel → ∀ s, Ready ARG_MAX below s → s.input = (script.map Prod.fst).flatten →
        s.shell = shell → (Console.repl child ARG_MAX fuel rounds s).map (fun t => (t.shell, t.input)) =
          .ok (shell', (behindExit script).flatten) := by
  induction script generalizing shell before rounds with
  | nil =>
    obtain ⟨rounds, rfl⟩ := Nat.exists_eq_succ_of_ne_zero (Nat.ne_of_gt enough)
    refine ⟨shell, [], 0, (List.append_nil _).symm, .nil, ?_⟩
    rintro fuel _ s ready input rfl
    have empty : s.input = [] := input
    have ended : fgets (ARG_MAX + 1) s.input = none := by rw [empty]; rfl
    rw [Console.repl, ended]
    show Except.ok (s.shell, s.input) = _
    rw [empty]
    rfl
  | cons entry script ih =>
    obtain ⟨line, input⟩ := entry
    obtain ⟨rounds, rfl⟩ := Nat.exists_eq_succ_of_ne_zero (Nat.ne_zero_of_lt enough)
    have here : Says line input := said (line, input) List.mem_cons_self
    obtain ⟨middle, first, ⟨least, parses⟩, shows', acted, runs, free', means⟩ :=
      @parse_means below _ _ _ sound shows all free running _ here
    have sound' := sound.parsed (parse_parsed (parses least (Nat.le_refl _)))
    by_cases exits : input.Exits
    · have halted : ¬ middle.running = true := fun still => runs.mp still exits
      refine ⟨middle, first, least, acted, ?_, ?_⟩
      · have whole := means (script.map Prod.snd) [] (by rw [if_pos exits]; exact .nil)
        rwa [List.append_nil] at whole
      · rintro fuel enough s ready text rfl
        have passage := @repl_line _ fuel _ _ _ _ _ untouched cut ready text rounds
        simp only [parses fuel enough] at passage
        obtain ⟨t, _, rest, rfl, goesOn⟩ := passage
        rw [goesOn, if_neg halted, behindExit, if_pos exits, ← rest]
        rfl
    · have all' : ∀ other ∈ before ++ [input], ∃ line, Says line other := by
        intro other member
        rcases List.mem_append.mp member with old | new
        · exact all other old
        · rw [List.mem_singleton.mp new]
          exact ⟨line, here⟩
      have later : ∀ entry ∈ script, Says entry.1 entry.2 :=
        fun entry member => said entry (List.mem_cons_of_mem _ member)
      have still := runs.mpr exits
      obtain ⟨shell', actions, least', acted', outcomes, ends⟩ :=
        ih cut.tail later sound' shows' all' free' still (Nat.lt_of_succ_lt_succ enough)
      refine ⟨shell', first ++ actions, max least least', ?_, ?_, ?_⟩
      · rw [acted', acted, List.append_assoc]
      · exact means _ _ (by rw [if_neg exits]; exact outcomes)
      · rintro fuel enough s ready text rfl
        have passage := @repl_line _ fuel _ _ _ _ _ untouched cut ready text rounds
        simp only [parses fuel (by omega)] at passage
        obtain ⟨t, ready', rest, rfl, goesOn⟩ := passage
        rw [goesOn, if_pos still, behindExit, if_neg exits]
        exact ends fuel (by omega) t ready' rest rfl

/-- The shell on the text of any script of settings and commands that no child touches: its actions are, one by
    one, what the script means, and it reads on to the end or to the first `exit`. -/
theorem script_means (untouched : Untouched child) (below : Char) (cut : Chunked ARG_MAX (script.map Prod.fst))
    (said : ∀ entry ∈ script, Says entry.1 entry.2) (enough : script.length < rounds) :
    ∃ shell, Ends (fun fuel => (Console.repl child ARG_MAX fuel rounds
        (start ARG_MAX below (script.map Prod.fst).flatten)).map fun s => (s.shell, s.input))
          (.ok (shell, (behindExit script).flatten)) ∧
      List.Forall₂ Performs shell.actions (meaning PATH (script.map Prod.snd)) := by
  have shows : Shows init [] := fun _ => rfl
  have free : NulFree (pathsOf []) := by decide
  obtain ⟨shell, actions, least, acted, outcomes, ends⟩ :=
    @script_runs _ _ below _ _ _ _ untouched cut said sound_init shows (by simp) free rfl enough
  obtain rfl : actions = shell.actions := acted.symm
  refine ⟨shell, ⟨least, ?_⟩, outcomes⟩
  intro fuel enough
  exact ends fuel enough _ (start_ready ARG_MAX below _) rfl rfl

def leaving : List (Str × Input) :=
  [("PATH=\"/opt\"\n".toList, .assign "PATH".toList "/opt".toList), ("ls -l\n".toList, .command "ls -l".toList),
    ("exit\n".toList, .command "exit".toList), ("pwd\n".toList, .command "pwd".toList)]

theorem said_command (cmd : Str) (free : NulFree cmd) (trimmed : Trimmed cmd) (nonempty : cmd ≠ [])
    (other : assignment.search cmd = false) (plain : NoEscape cmd) : Says (cmd ++ ['\n']) (.command cmd) :=
  ⟨[], cmd, ['\n'], rfl, by decide, by decide, .command cmd free trimmed nonempty other plain⟩

theorem script_means_exit : ∃ shell, Ends (fun fuel => (Console.repl (fun _ input => input) 32 fuel 5
      (start 32 NUL "PATH=\"/opt\"\nls -l\nexit\npwd\n".toList)).map fun s => (s.shell, s.input))
        (.ok (shell, "pwd\n".toList)) ∧
    List.Forall₂ Performs shell.actions
      [.external "/opt".toList ["ls".toList, "-l".toList], .internal .halt ["exit".toList]] := by
  have said : ∀ entry ∈ leaving, Says entry.1 entry.2 := by
    intro entry member
    simp only [leaving, List.mem_cons, List.not_mem_nil, or_false] at member
    rcases member with rfl | rfl | rfl | rfl
    · exact ⟨[], "PATH=\"/opt\"".toList, ['\n'], by decide, by decide, by decide,
        .assign "PATH".toList "\"/opt\"".toList _ (by decide) (by decide) (by decide) (by decide)
          (.quoted '"' "/opt".toList (by decide) (by decide) (by decide))⟩
    · exact said_command "ls -l".toList (by decide) (by decide) (by decide) (by decide) (by decide +kernel)
    · exact said_command "exit".toList (by decide) (by decide) (by decide) (by decide) (by decide +kernel)
    · exact said_command "pwd".toList (by decide) (by decide) (by decide) (by decide) (by decide +kernel)
  have cut : Chunked 32 (leaving.map Prod.fst) :=
    .cons (by decide) (by decide) (.cons (by decide) (by decide) (.cons (by decide) (by decide)
      (.cons (by decide) (by decide) .nil)))
  have enough : leaving.length < 5 := by decide
  have text : (leaving.map Prod.fst).flatten = "PATH=\"/opt\"\nls -l\nexit\npwd\n".toList := by decide
  have unread : (behindExit leaving).flatten = "pwd\n".toList := by decide +kernel
  have means : meaning PATH (leaving.map Prod.snd) =
      [.external "/opt".toList ["ls".toList, "-l".toList], .internal .halt ["exit".toList]] := by decide +kernel
  have run := @script_means 32 5 leaving _ (fun _ _ => rfl) NUL cut said enough
  rw [text, unread, means] at run
  exact run

end OS2.Lsh.Script
