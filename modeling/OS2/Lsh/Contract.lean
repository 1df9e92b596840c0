import OS2.Lsh.Assignment
import OS2.Lsh.TypeTags
import OS2.Symtab.Refinement
import OS2.Tokenise.RoundTrip

namespace OS2.Lsh

open OS2.Text OS2.Loop OS2.Regex OS2.Symtab OS2.Tokenise

inductive Writes : Str → Str → Prop where
  | quoted (q : Char) (v : Str) (quote : isQuote q = true) (outside : q ∉ v) (line : '\n' ∉ v) :
      Writes (q :: (v ++ [q])) v
  | plain (v : Str) (bare : BareWord v) : Writes v v

inductive Input where
  | assign (name value : Str)
  | command (cmd : Str)

inductive Spells : Str → Input → Prop where
  | assign (name q value : Str) (isName : IsName name) (noExit : name ≠ "exit".toList)
      (noCd : name ≠ "cd".toList) (free : NulFree q) (writes : Writes q value) :
      Spells (name ++ '=' :: q) (.assign name value)
  | command (cmd : Str) (free : NulFree cmd) (trimmed : Trimmed cmd) (nonempty : cmd ≠ [])
      (other : assignment.search cmd = false) (plain : NoEscape cmd) : Spells cmd (.command cmd)

def Says (line : Str) (input : Input) : Prop :=
  ∃ lead text trail, line = lead ++ (text ++ trail) ∧ Blank lead ∧ Blank trail ∧ Spells text input

def Input.value (name : Str) : Input → Option Str
  | .assign other value => if other = name then some value else none
  | .command _ => none

def lastValue (name : Str) (inputs : List Input) : Option Str := inputs.reverse.findSome? (Input.value name)

/-- The one action of a command: its tokens and a NULL go to the internal command that the first of
    them names, or else to `external`, whose child looks for a name without slash in `paths`. -/
inductive ActionOf (paths : Str) (tokens : List Token) : Action → Prop where
  | call (name : Str) (f : Handler) (first : tokens.head?.map Token.value = some name)
      (installed : Installed name f) :
      ActionOf paths tokens (.call (.code f) tokens.length (argvOf tokens))
  | external (name : Str) (path : Option (Ptr Handler)) (first : tokens.head?.map Token.value = some name)
      (other : ∀ f, ¬ Installed name f)
      (lookup : if '/' ∈ name then path = none else ∃ block, path = some (.dup block paths)) :
      ActionOf paths tokens (.external tokens.length (argvOf tokens) path)

inductive History : List Input → List Action → Prop where
  | start : History [] []
  | assign {inputs : List Input} {actions : List Action} (history : History inputs actions)
      (name value : Str) : History (inputs ++ [.assign name value]) actions
  | command {inputs : List Input} {actions : List Action} (history : History inputs actions) (cmd : Str)
      {action : Action} (one : ActionOf ((lastValue "PATH".toList inputs).getD PATH) (grammar cmd) action) :
      History (inputs ++ [.command cmd]) (actions ++ [action])

def Input.Exits : Input → Prop
  | .assign _ _ => False
  | .command cmd => (grammar cmd).head?.map Token.value = some "exit".toList

def Shows (shell : Shell) (inputs : List Input) : Prop :=
  ∀ name, match lastValue name inputs with
    | some value => ∃ symbol, symtabLookup shell.symtab name = some symbol ∧ symbol.Holds (.var value)
    | none => symtabLookup shell.symtab name = symtabLookup init.symtab name

/-- A shell behind a run in which these inputs were read. -/
structure Follows (below : Char) (inputs : List Input) (shell : Shell) : Prop where
  shows : Shows shell inputs
  history : History inputs shell.actions
  running : shell.running = true ↔ ∀ input ∈ inputs, ¬ input.Exits
  next : ∀ line cmd, Says line (.command cmd) → ∃ shell' action, Ends (parse · below shell line) (.ok shell') ∧
    shell'.symtab = shell.symtab ∧ shell'.heap = shell.heap ∧ shell'.actions = shell.actions ++ [action] ∧
    ActionOf ((lastValue "PATH".toList inputs).getD PATH) (grammar cmd) action

theorem fetched_writes {q value : Str} (writes : Writes q value) (free : NulFree q) :
    fetched q = [⟨value, .arg⟩] ∧ Settles q := by
  have back : ReadsBack q ⟨value, .arg⟩ := by
    cases writes with
    | quoted c _ quote outside line =>
      simp only [nulFree_cons, nulFree_append] at free
      exact readsBack_quoted quote outside free.2.1
    | plain _ bare => exact readsBack_bare bare free
  rw [fetched_of_noEscape back.plain]
  exact ⟨back.tokens, settles_of_noEscape back.plain⟩

theorem writes_last {q value : Str} (writes : Writes q value) :
    ∃ front c, q = front ++ [c] ∧ isspace c = false := by
  cases writes with
  | quoted c _ quote _ _ => exact ⟨c :: value, c, rfl, (quote_black quote).1⟩
  | plain _ bare =>
    have nonempty : q ≠ [] := by
      obtain ⟨c, cs, rfl, _⟩ := bare
      simp
    have inside := bare.all _ (List.getLast_mem nonempty)
    simp only [wordChar, Bool.and_eq_true, Bool.not_eq_true'] at inside
    exact ⟨q.dropLast, q.getLast nonempty, (List.dropLast_append_getLast nonempty).symm, inside.1⟩

theorem Spells.text {text : Str} {input : Input} (spells : Spells text input) :
    NulFree text ∧ Trimmed text ∧ text ≠ [] := by
  cases spells with
  | command _ free trimmed nonempty _ _ => exact ⟨free, trimmed, nonempty⟩
  | assign name q value isName _ _ free writes =>
    obtain ⟨front, last, rfl, black⟩ := writes_last writes
    refine ⟨by simp [isName.nulFree, free, NUL], ⟨?_, ?_⟩, by simp⟩
    · intro c head
      cases name with
      | nil => cases isName
      | cons d ds =>
        obtain rfl : d = c := by simpa using head
        exact isName.black d List.mem_cons_self
    · intro c behind
      rw [List.getLast?_append_of_ne_nil _ (by simp), ← List.cons_append, List.getLast?_concat] at behind
      cases behind
      exact black

theorem parse_said {line : Str} {input : Input} (said : Says line input) :
    ∃ text, Spells text input ∧ ∀ fuel below shell, parse fuel below shell line =
      if assignment.search text then assign fuel shell text else dispatch fuel shell text := by
  obtain ⟨lead, text, trail, rfl, leading, trailing, spells⟩ := said
  obtain ⟨free, trimmed, nonempty⟩ := spells.text
  exact ⟨text, spells, parse_around free leading trailing trimmed nonempty⟩

theorem installed_iff {name : Str} {f : Handler} :
    Installed name f ↔ name = "exit".toList ∧ f = .halt ∨ name = "cd".toList ∧ f = .lshCd := by
  have table : init.symtab = [⟨"cd".toList, .code .lshCd, .internal⟩, ⟨"exit".toList, .code .halt, .internal⟩,
      ⟨"PATH".toList, .dup 1 PATH, .var⟩, ⟨"PS1".toList, .dup 0 PS1, .var⟩] := by decide
  unfold Installed
  rw [table]
  simp only [List.mem_cons, Symbol.mk.injEq, Ptr.code.injEq, List.not_mem_nil]
  simp [or_comm]

theorem parse_assign {line name value : Str} (said : Says line (.assign name value)) (below : Char)
    {shell : Shell} (sound : Sound shell) :
    Ends (parse · below shell line) (.ok (shell.entered name (.var value))) := by
  obtain ⟨text, spells, parses⟩ := parse_said said
  have free := spells.text.1
  cases spells with
  | assign _ q _ isName noExit noCd freeValue writes =>
    have user : ∀ f, ¬ Installed name f := by
      intro f installed
      rcases installed_iff.mp installed with ⟨exit, _⟩ | ⟨cd, _⟩
      · exact noExit exit
      · exact noCd cd
    obtain ⟨tokens, settles⟩ := fetched_writes writes freeValue
    have found := search_of_isAssignment ⟨name, q, isName, rfl⟩
    have shape := fetched_assignment isName q
    rw [tokens] at shape
    simp only [parses, found, if_true]
    have first : (fetched (name ++ '=' :: q))[0]? = some ⟨name, .arg⟩ := by rw [shape]; rfl
    have third : (fetched (name ++ '=' :: q))[2]? = some ⟨value, .arg⟩ := by rw [shape]; rfl
    have ends := @assign_ends shell _ free ((settles_assignment isName q).mpr settles) _ _ first third
    rwa [sound.set_ok user] at ends

theorem grammar_ne_nil {cmd : Str} (trimmed : Trimmed cmd) (nonempty : cmd ≠ []) (plain : NoEscape cmd) :
    grammar cmd ≠ [] := by
  cases cmd with
  | nil => exact absurd rfl nonempty
  | cons c cs =>
    have noEscape : c ≠ '\\' := by
      intro escape
      rw [escape] at plain
      exact plain cs (ending_escape cs)
    rw [grammar_token (trimmed.1 c rfl) noEscape]
    simp

theorem lastValue_append (name : Str) (inputs : List Input) (input : Input) :
    lastValue name (inputs ++ [input]) = (input.value name).or (lastValue name inputs) := by
  simp only [lastValue, List.reverse_append, List.reverse_singleton, List.singleton_append, List.findSome?_cons]
  cases input.value name <;> rfl

theorem lastValue_installed {inputs : List Input} (all : ∀ input ∈ inputs, ∃ line, Says line input)
    {name : Str} {f : Handler} (installed : Installed name f) : lastValue name inputs = none := by
  unfold lastValue
  rw [List.findSome?_eq_none_iff]
  intro input member
  obtain ⟨line, lead, text, trail, _, _, _, spells⟩ := all input (List.mem_reverse.mp member)
  cases spells with
  | command => rfl
  | assign other q value _ noExit noCd _ _ =>
    have different : other ≠ name := by
      rcases installed_iff.mp installed with ⟨rfl, _⟩ | ⟨rfl, _⟩
      · exact noExit
      · exact noCd
    simp [Input.value, different]

section Shows

variable {shell shell' : Shell} {inputs : List Input}

theorem Shows.assigned (shows : Shows shell inputs) {name value : Str}
    (last : lastValue name inputs = some value) :
    ∃ symbol, symtabLookup shell.symtab name = some symbol ∧ symbol.Holds (.var value) := by
  have shown := shows name
  rwa [last] at shown

theorem Shows.unassigned (shows : Shows shell inputs) {name : Str} (last : lastValue name inputs = none) :
    symtabLookup shell.symtab name = symtabLookup init.symtab name := by
  have shown := shows name
  rwa [last] at shown

theorem Shows.internal (shows : Shows shell inputs) {name : Str} {f : Handler}
    (last : lastValue name inputs = none) (installed : Installed name f) :
    symtabLookup shell.symtab name = some ⟨name, .code f, .internal⟩ :=
  (shows.unassigned last).trans (lookup_installed installed)

theorem Shows.other (shows : Shows shell inputs) {name : Str} (other : ∀ f, ¬ Installed name f)
    (symbol : Symbol Handler) (found : symtabLookup shell.symtab name = some symbol) :
    symbol.type ≠ .internal := by
  intro type
  cases last : lastValue name inputs with
  | some value =>
    obtain ⟨symbol', found', holds⟩ := shows.assigned last
    obtain rfl : symbol = symbol' := Option.some.inj (found.symm.trans found')
    rw [holds.1] at type
    cases type
  | none =>
    obtain ⟨member, named⟩ := symtabLookup_some ((shows.unassigned last).symm.trans found)
    obtain ⟨f, _, installed⟩ := sound_init.value_of_internal member type
    rw [named] at installed
    exact other f installed

theorem Shows.paths (shows : Shows shell inputs) :
    ∃ block, symtabFetch shell.symtab "PATH".toList (.text PATH) =
      .dup block ((lastValue "PATH".toList inputs).getD PATH) := by
  cases last : lastValue "PATH".toList inputs with
  | some value =>
    obtain ⟨symbol, found, _, block, copy⟩ := shows.assigned last
    exact ⟨block, by simp only [symtabFetch, found, copy, Option.getD_some]⟩
  | none =>
    have start : symtabLookup init.symtab "PATH".toList = some ⟨"PATH".toList, .dup 1 PATH, .var⟩ := by decide
    exact ⟨1, by simp only [symtabFetch, (shows.unassigned last).trans start, Option.getD_none]⟩

theorem Shows.set (shows : Shows shell inputs) (name value : Str) :
    Shows (shell.entered name (.var value)) (inputs ++ [.assign name value]) := by
  intro other
  rw [lastValue_append]
  by_cases same : name = other
  · subst same
    simp only [Input.value, if_true, Option.some_or]
    exact ⟨_, symtabLookup_entered_self, rfl, _, rfl⟩
  · have kept : symtabLookup (shell.entered name (.var value)).symtab other = symtabLookup shell.symtab other :=
      symtabLookup_entered_other (Ne.symm same)
    simp only [Input.value, if_neg same, Option.none_or, kept]
    exact shows other

theorem Shows.command (shows : Shows shell inputs) (same : shell'.symtab = shell.symtab) (cmd : Str) :
    Shows shell' (inputs ++ [.command cmd]) := by
  intro name
  rw [lastValue_append, same]
  exact shows name

theorem Shows.runs (shows : Shows shell inputs)
    (kept : ∀ name f, Installed name f → lastValue name inputs = none) {tokens : List Token} {t : Token}
    (first : tokens.head? = some t) :
    ∃ shell' action, Runs shell tokens.length (argvOf tokens) shell' ∧
      shell'.actions = shell.actions ++ [action] ∧
      ActionOf ((lastValue "PATH".toList inputs).getD PATH) tokens action ∧
      (shell'.running = true ↔ shell.running = true ∧ t.value ≠ "exit".toList) := by
  have named : tokens.head?.map Token.value = some t.value := by rw [first]; rfl
  have head : (argvOf tokens).head? = some (some t.value) := by
    obtain ⟨ts, rfl⟩ := List.head?_eq_some_iff.mp first
    rfl
  by_cases bound : ∃ f, Installed t.value f
  · obtain ⟨f, installed⟩ := bound
    have found := shows.internal (kept _ f installed) installed
    refine ⟨_, _, .internal t.value _ f head found rfl rfl, rfl, .call t.value f named installed, ?_⟩
    rcases installed_iff.mp installed with ⟨name, rfl⟩ | ⟨name, rfl⟩
    · simp [Shell.called, name]
    · simp [Shell.called, name]
  · have other : ∀ f, ¬ Installed t.value f := fun f installed => bound ⟨f, installed⟩
    refine ⟨_, _, .external t.value head (shows.other other), rfl, .external t.value _ named other ?_, ?_⟩
    · obtain ⟨block, paths⟩ := shows.paths
      by_cases slash : '/' ∈ t.value
      · simp [slash]
      · simp only [slash, if_false, paths]
        exact ⟨block, rfl⟩
    · have noExit : t.value ≠ "exit".toList := fun name => other .halt (installed_iff.mpr (.inl ⟨name, rfl⟩))
      exact ⟨fun running => ⟨running, noExit⟩, fun running => running.1⟩

theorem parse_command (shows : Shows shell inputs) (all : ∀ input ∈ inputs, ∃ line, Says line input)
    {line cmd : Str} (said : Says line (.command cmd)) (below : Char) :
    ∃ shell' action, Ends (parse · below shell line) (.ok shell') ∧
      shell'.symtab = shell.symtab ∧ shell'.heap = shell.heap ∧
      shell'.actions = shell.actions ++ [action] ∧
      ActionOf ((lastValue "PATH".toList inputs).getD PATH) (grammar cmd) action ∧
      (shell'.running = true ↔ shell.running = true ∧ ¬ (Input.command cmd).Exits) := by
  obtain ⟨text, spells, parses⟩ := parse_said said
  cases spells with
  | command _ free trimmed nonempty other plain =>
    have tokens := fetched_of_noEscape plain
    have first := List.head?_eq_some_head (grammar_ne_nil trimmed nonempty plain)
    have kept : ∀ name f, Installed name f → lastValue name inputs = none :=
      fun _ _ installed => lastValue_installed all installed
    obtain ⟨shell', action, runs, actions, one, running⟩ := shows.runs kept first
    have ends := dispatch_ends free (settles_of_noEscape plain) nonempty (by rwa [tokens])
    simp only [parses, other]
    refine ⟨shell', action, ends, runs.frame.1, runs.frame.2, actions, one, ?_⟩
    simpa only [Input.Exits, first, Option.map_some, Option.some.injEq] using running

end Shows

section Run

variable {below : Char} {shell middle : Shell} {inputs : List Input} {lines : List Str} {line : Str}

theorem follows_of (shows : Shows shell inputs) (history : History inputs shell.actions)
    (running : shell.running = true ↔ ∀ input ∈ inputs, ¬ input.Exits)
    (all : ∀ input ∈ inputs, ∃ line, Says line input) : Follows below inputs shell := by
  refine ⟨shows, history, running, ?_⟩
  intro line cmd said
  obtain ⟨shell', action, parses, symtab, heap, actions, one, _⟩ := parse_command shows all said below
  exact ⟨shell', action, parses, symtab, heap, actions, one⟩

theorem follows_init (below : Char) : Follows below [] init :=
  follows_of (fun _ => rfl) .start (by simp [init, Shell.entered, Shell.empty]) (by simp)

theorem repl_snoc (first : Ends (repl · below shell lines) (.ok middle)) (running : middle.running = true)
    {shell' : Shell} (parses : Ends (parse · below middle line) (.ok shell')) :
    Ends (repl · below shell (lines ++ [line])) (.ok shell') := by
  simp only [repl_append]
  apply Ends.bind first
  simp only [repl, running, if_true]
  exact Ends.bind parses (Ends.const _)

theorem repl_snoc_halted (first : Ends (repl · below shell lines) (.ok middle))
    (halted : ¬ middle.running = true) :
    Ends (repl · below shell (lines ++ [line])) (.error (.fault .exited)) := by
  simp only [repl_append]
  apply Ends.bind first
  simp only [repl, halted]
  exact Ends.const _

theorem Follows.step (follows : Follows below inputs shell) (all : ∀ input ∈ inputs, ∃ line, Says line input)
    {input : Input} (said : Says line input) (sound : Sound shell) (running : shell.running = true) :
    ∃ shell', Ends (parse · below shell line) (.ok shell') ∧ Follows below (inputs ++ [input]) shell' := by
  have before := follows.running.mp running
  have all' : ∀ other ∈ inputs ++ [input], ∃ line, Says line other := by
    intro other member
    rcases List.mem_append.mp member with old | new
    · exact all other old
    · rw [List.mem_singleton.mp new]
      exact ⟨line, said⟩
  cases input with
  | assign name value =>
    have runs : ∀ other ∈ inputs ++ [.assign name value], ¬ other.Exits := by
      intro other member
      rcases List.mem_append.mp member with old | new
      · exact before other old
      · rw [List.mem_singleton.mp new]
        exact not_false
    refine ⟨_, parse_assign said below sound, follows_of (follows.shows.set name value) ?_ ?_ all'⟩
    · exact .assign follows.history name value
    · exact ⟨fun _ => runs, fun _ => running⟩
  | command cmd =>
    obtain ⟨shell', action, parses, symtab, _, actions, one, exits⟩ :=
      parse_command follows.shows all said below
    refine ⟨shell', parses, follows_of (follows.shows.command symtab cmd) ?_ ?_ all'⟩
    · rw [actions]
      exact .command follows.history cmd one
    · rw [exits]
      simp only [running, true_and, List.mem_append, List.mem_singleton]
      constructor
      · intro stays other member
        rcases member with old | rfl
        · exact before other old
        · exact stays
      · intro stays
        exact stays _ (.inr rfl)

end Run

/-- The contract of the shell: a run over assignments and commands ends in a shell that follows it,
    unless a line before the last was the command `exit`, behind which there is no shell to read on. -/
theorem shell_contract (below : Char) (script : List (Str × Input))
    (said : ∀ entry ∈ script, Says entry.1 entry.2) :
    (∃ shell, Ends (repl · below init (script.map Prod.fst)) (.ok shell) ∧
      Follows below (script.map Prod.snd) shell) ∨
    (∃ input ∈ (script.map Prod.snd).dropLast, input.Exits) ∧
      Ends (repl · below init (script.map Prod.fst)) (.error (.fault .exited)) := by
  induction script using List.reverseRecOn with
  | nil => exact .inl ⟨init, Ends.const _, follows_init below⟩
  | append_singleton script entry ih =>
    obtain ⟨line, input⟩ := entry
    have earlier : ∀ entry ∈ script, Says entry.1 entry.2 := fun entry member => said entry (by simp [member])
    have here : Says line input := said (line, input) (by simp)
    have all : ∀ input ∈ script.map Prod.snd, ∃ line, Says line input := by
      intro input member
      obtain ⟨entry, inside, rfl⟩ := List.mem_map.mp member
      exact ⟨entry.1, earlier entry inside⟩
    simp only [List.map_append, List.map_cons, List.map_nil, List.dropLast_concat]
    rcases ih earlier with ⟨shell, ends, follows⟩ | ⟨⟨input', member, exits⟩, ends⟩
    · by_cases running : shell.running = true
      · obtain ⟨least, returns⟩ := ends
        have sound := sound_of_repl (returns least (Nat.le_refl _))
        have ends : Ends (repl · below init (script.map Prod.fst)) (.ok shell) := ⟨least, returns⟩
        obtain ⟨shell', parses, follows'⟩ := follows.step all here sound running
        exact .inl ⟨shell', repl_snoc ends running parses, follows'⟩
      · refine .inr ⟨?_, repl_snoc_halted ends running⟩
        have halted := mt follows.running.mpr running
        simpa using halted
    · refine .inr ⟨⟨input', List.dropLast_subset _ member, exits⟩, ?_⟩
      simp only [repl_append]
      exact Ends.bind_error ends _

theorem shell_contract_prompt :
    (∃ shell, Ends (repl · NUL init ["PS1=\"% \"\n".toList, " ls -l|wc\n".toList]) (.ok shell) ∧
      Follows NUL [.assign "PS1".toList "% ".toList, .command "ls -l|wc".toList] shell) ∨
    (∃ input ∈ [Input.assign "PS1".toList "% ".toList], input.Exits) ∧
      Ends (repl · NUL init ["PS1=\"% \"\n".toList, " ls -l|wc\n".toList]) (.error (.fault .exited)) := by
  refine shell_contract NUL [("PS1=\"% \"\n".toList, .assign "PS1".toList "% ".toList),
    (" ls -l|wc\n".toList, .command "ls -l|wc".toList)] ?_
  intro entry member
  simp only [List.mem_cons, List.not_mem_nil, or_false] at member
  rcases member with rfl | rfl
  · exact ⟨[], "PS1=\"% \"".toList, ['\n'], by decide, by decide, by decide,
      .assign "PS1".toList "\"% \"".toList _ (by decide) (by decide) (by decide) (by decide)
        (.quoted '"' "% ".toList (by decide) (by decide) (by decide))⟩
  · exact ⟨[' '], "ls -l|wc".toList, ['\n'], by decide, by decide, by decide,
      .command _ (by decide) (by decide) (by decide) (by decide) (by decide +kernel)⟩

end OS2.Lsh
