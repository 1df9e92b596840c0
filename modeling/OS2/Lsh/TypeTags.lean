import OS2.Lsh.Parse
import OS2.Symtab.Ownership

namespace OS2.Lsh

open OS2.Text OS2.Loop OS2.Regex OS2.Symtab OS2.Tokenise

variable {shell shell' : Shell}

def Installed (name : Str) (f : Handler) : Prop := ⟨name, .code f, .internal⟩ ∈ init.symtab

instance (name : Str) (f : Handler) : Decidable (Installed name f) :=
  inferInstanceAs (Decidable (_ ∈ init.symtab))

/-- A call is of a function that `init` installs under the name called, and `path_lookup` is handed
    a copy that some `symtab_set` made. -/
def Action.Proper : Action → Prop
  | .call f _ argv => ∃ name h, argv.head? = some (some name) ∧ f = .code h ∧ Installed name h
  | .external _ _ path => ∀ p, path = some p → ∃ block s, p = .dup block s

def Shell.HasVar (shell : Shell) (name : Str) : Prop :=
  ∃ symbol, symtabLookup shell.symtab name = some symbol ∧ symbol.type = .var

structure Sound (shell : Shell) : Prop where
  owned : Owned shell.symtab shell.heap
  handlers : ∀ symbol ∈ shell.symtab, ∀ f, symbol.value = .code f → Installed symbol.name f
  kept : ∀ name f, Installed name f → symtabLookup shell.symtab name = some ⟨name, .code f, .internal⟩
  ps1 : shell.HasVar "PS1".toList
  path : shell.HasVar "PATH".toList
  actions : ∀ action ∈ shell.actions, action.Proper

theorem yields_fresh {symtab : List (Symbol Handler)} {heap : Heap Handler} (name : Str)
    (fresh : symtabLookup symtab name = none) : Yields symtab heap name := by
  intro symbol found
  rw [fresh] at found
  cases found

theorem owned_init_shell : Owned init.symtab init.heap := by
  have var : ∀ s, (Setting.var s : Setting Handler).Proper := fun _ => trivial
  have code : ∀ f : Handler, (Setting.internal (.code f)).Proper := fun f => ⟨f, rfl⟩
  have ps1 := owned_init.set (var PS1) (yields_fresh "PS1".toList rfl)
  have path := ps1.set (var PATH) (yields_fresh "PATH".toList (by decide))
  have exit := path.set (code .halt) (yields_fresh "exit".toList (by decide))
  exact exit.set (code .lshCd) (yields_fresh "cd".toList (by decide))

theorem lookup_installed {name : Str} {f : Handler} (installed : Installed name f) :
    symtabLookup init.symtab name = some ⟨name, .code f, .internal⟩ := by
  have unique : (names init.symtab).Nodup := by decide
  exact symtabLookup_of_mem unique installed

theorem sound_init : Sound init := by
  refine ⟨owned_init_shell, ?_, fun _ _ => lookup_installed, ?_, ?_, ?_⟩
  · intro symbol member f value
    have type : ∀ symbol ∈ init.symtab, symbol.value = .code f → symbol.type = .internal := by
      cases f <;> decide
    have shape : symbol = ⟨symbol.name, .code f, .internal⟩ := by rw [← value, ← type symbol member value]
    rw [shape] at member
    exact member
  · exact ⟨⟨"PS1".toList, .dup 0 PS1, .var⟩, by decide, rfl⟩
  · exact ⟨⟨"PATH".toList, .dup 1 PATH, .var⟩, by decide, rfl⟩
  · intro action member
    cases member

theorem Sound.value_of_var (sound : Sound shell) {name : Str} (bound : shell.HasVar name) :
    ∃ symbol block s, symtabLookup shell.symtab name = some symbol ∧ symbol.type = .var ∧
      symbol.value = .dup block s ∧ shell.heap.Owns symbol.value := by
  obtain ⟨symbol, found, type⟩ := bound
  obtain ⟨block, s, value, live⟩ := sound.owned.live (symtabLookup_some found).1 type
  exact ⟨symbol, block, s, found, type, value, live⟩

theorem Sound.value_of_internal (sound : Sound shell) {symbol : Symbol Handler}
    (member : symbol ∈ shell.symtab) (type : symbol.type = .internal) :
    ∃ f, symbol.value = .code f ∧ Installed symbol.name f := by
  obtain ⟨f, value⟩ := sound.owned.code member type
  exact ⟨f, value, sound.handlers symbol member f value⟩

theorem Sound.yields_iff (sound : Sound shell) (name : Str) (setting : Setting Handler) :
    Yields shell.symtab (copyIn shell.heap setting).2 name ↔ ∀ f, ¬ Installed name f := by
  rw [sound.owned.yields_iff]
  constructor
  · intro vars f installed
    have type := vars _ (sound.kept name f installed)
    cases type
  · intro user symbol found
    obtain ⟨member, rfl⟩ := symtabLookup_some found
    cases type : symbol.type with
    | var => rfl
    | internal =>
      obtain ⟨f, _, installed⟩ := sound.value_of_internal member type
      exact absurd installed (user f)

theorem Sound.set_ok (sound : Sound shell) {name : Str} (user : ∀ f, ¬ Installed name f)
    (setting : Setting Handler) : shell.set name setting = .ok (shell.entered name setting) := by
  rcases shell.set_cases name setting with ⟨_, returns⟩ | ⟨refused, _⟩
  · exact returns
  · exact absurd ((sound.yields_iff name setting).mpr user) refused

theorem Sound.set_aborts (sound : Sound shell) {name : Str} {f : Handler} (installed : Installed name f)
    (setting : Setting Handler) : shell.set name setting = .error (.badFree (shell.entered name setting).heap) := by
  rcases shell.set_cases name setting with ⟨yields, _⟩ | ⟨_, faults⟩
  · exact absurd installed ((sound.yields_iff name setting).mp yields f)
  · exact faults

theorem hasVar_entered {other : Str} (bound : shell.HasVar other) (name value : Str) :
    (shell.entered name (.var value)).HasVar other := by
  by_cases same : other = name
  · rw [same]
    exact ⟨_, symtabLookup_entered_self, rfl⟩
  · obtain ⟨symbol, found, type⟩ := bound
    exact ⟨symbol, (symtabLookup_entered_other same).trans found, type⟩

theorem Sound.set (sound : Sound shell) {name value : Str} (sets : shell.set name (.var value) = .ok shell') :
    Sound shell' := by
  obtain ⟨rfl, yields⟩ := Shell.set_eq sets
  refine ⟨sound.owned.set trivial yields, ?_, ?_, hasVar_entered sound.ps1 name value,
    hasVar_entered sound.path name value, sound.actions⟩
  · intro symbol member f code
    rcases mem_entered member with rfl | old
    · cases code
    · exact sound.handlers symbol old f code
  · intro other f installed
    have different : other ≠ name := by
      rintro rfl
      exact (sound.yields_iff _ _).mp yields f installed
    exact (symtabLookup_entered_other different).trans (sound.kept other f installed)

theorem Sound.act {action : Action} (sound : Sound shell) (proper : action.Proper) : Sound (shell.act action) := by
  refine ⟨sound.owned, sound.handlers, sound.kept, sound.ps1, sound.path, ?_⟩
  intro other member
  rcases List.mem_append.mp member with old | new
  · exact sound.actions other old
  · rw [List.mem_singleton.mp new]
    exact proper

theorem Sound.runs {argc : Nat} {argv : List (Option Str)} (sound : Sound shell)
    (runs : Runs shell argc argv shell') : Sound shell' := by
  cases runs with
  | internal name symbol f head found type value =>
    obtain ⟨member, rfl⟩ := symtabLookup_some found
    have proper : Action.Proper (.call (.code f) argc argv) :=
      ⟨symbol.name, f, head, rfl, sound.handlers symbol member f value⟩
    have called := sound.act proper
    exact ⟨called.owned, called.handlers, called.kept, called.ps1, called.path, called.actions⟩
  | external name head other =>
    apply sound.act
    intro p path
    split at path
    · cases path
    · cases path
      obtain ⟨symbol, block, s, found, _, value, _⟩ := sound.value_of_var sound.path
      exact ⟨block, s, by simp only [symtabFetch, found, value]⟩

theorem Sound.parsed {cmd : Str} (sound : Sound shell) (parsed : Parsed shell cmd shell') : Sound shell' := by
  cases parsed with
  | assign name value _ _ _ _ _ sets => exact sound.set sets
  | empty _ => exact sound
  | command _ _ _ runs => exact sound.runs runs

theorem sound_of_repl {fuel : Nat} {below : Char} {lines : List Str}
    (h : repl fuel below init lines = .ok shell) : Sound shell :=
  repl_invariant Sound (fun _ => True) (fun _ _ _ _ parsed sound => sound.parsed parsed)
    (fun _ _ => trivial) h sound_init

theorem Sound.runCommand_callable (sound : Sound shell) (argc : Nat) (argv : List (Option Str)) :
    runCommand shell argc argv ≠ .error .notAFunction := by
  intro h
  rcases runCommand_cases shell argc argv with ⟨_, _, ran⟩ | ⟨ran, _⟩ | ⟨_, name, symbol, found, type, other⟩
  · rw [h] at ran
    cases ran
  · rw [h] at ran
    cases ran
  · obtain ⟨f, value, _⟩ := sound.value_of_internal (symtabLookup_some found).1 type
    exact other f value

theorem Sound.parse_callable (sound : Sound shell) (fuel : Nat) (below : Char) (line : Str) :
    parse fuel below shell line ≠ .error (.fault .notAFunction) := by
  intro h
  unfold parse at h
  cases trimmed : trimLine below line with
  | none => simp [trimmed] at h
  | some cmd =>
    simp only [trimmed] at h
    have callable := fetch_fault (e := .notAFunction) (by simp) fuel cmd
    split at h
    · unfold assign at h
      cases returned : fetch fuel cmd <;> simp only [returned, Bind.bind, Except.bind] at h callable
      · cases h
        exact callable rfl
      · split at h
        · rename_i name value _ _
          rcases shell.set_cases name.value (.var value.value) with ⟨_, sets⟩ | ⟨_, sets⟩ <;> rw [sets] at h <;> cases h
        · cases h
    · unfold dispatch at h
      split at h
      · cases h
      · cases returned : fetch fuel cmd <;> simp only [returned, Bind.bind, Except.bind] at h callable
        · cases h
          exact callable rfl
        · rename_i result
          have runs := sound.runCommand_callable result.2 (argvOf result.1)
          cases ran : runCommand shell result.2 (argvOf result.1) <;> simp only [ran, Except.mapError] at h
          · rw [ran] at runs
            cases h
            exact runs rfl
          · cases h

theorem Sound.repl_callable {fuel : Nat} {below : Char} {lines : List Str} (sound : Sound shell) :
    repl fuel below shell lines ≠ .error (.fault .notAFunction) := by
  induction lines generalizing shell with
  | nil => simp [repl]
  | cons line lines ih =>
    unfold repl
    split
    · have callable := sound.parse_callable fuel below line
      cases parsed : parse fuel below shell line with
      | error stop =>
        rw [parsed] at callable
        simpa [Bind.bind, Except.bind] using callable
      | ok shell' => exact ih (sound.parsed (parse_parsed parsed))
    · simp

/-- In every state that the shell reaches, a node tagged `SYM_INTERNAL` holds a function that `init`
    installed under its name, a node tagged `SYM_VAR` holds a string that is not freed, and `PS1` and
    `PATH` are bound to such strings. No string was ever called, and neither a function nor the
    compiled-in default was handed to `path_lookup`. -/
theorem type_tags_sound (fuel : Nat) (below : Char) (lines : List Str) :
    (∀ shell, repl fuel below init lines = .ok shell →
      (∀ symbol ∈ shell.symtab, symbol.type = .internal →
        ∃ f, symbol.value = .code f ∧ Installed symbol.name f) ∧
      (∀ symbol ∈ shell.symtab, symbol.type = .var →
        ∃ s, symbol.value.chars = some s ∧ symbol.value ∉ shell.heap.freed) ∧
      (∃ symbol s, symtabLookup shell.symtab "PS1".toList = some symbol ∧ symbol.type = .var ∧
        symbol.value.chars = some s ∧ prompt shell = symbol.value ∧ prompt shell ≠ .text PS1) ∧
      (∃ symbol s, symtabLookup shell.symtab "PATH".toList = some symbol ∧ symbol.type = .var ∧
        symbol.value.chars = some s ∧
        ∀ fallback, symtabFetch shell.symtab "PATH".toList fallback = symbol.value) ∧
      ∀ action ∈ shell.actions, action.Proper) ∧
    repl fuel below init lines ≠ .error (.fault .notAFunction) := by
  refine ⟨?_, sound_init.repl_callable⟩
  intro shell h
  have sound := sound_of_repl h
  refine ⟨fun symbol => sound.value_of_internal, ?_, ?_, ?_, sound.actions⟩
  · intro symbol member type
    obtain ⟨block, s, value, live⟩ := sound.owned.live member type
    exact ⟨s, by rw [value]; rfl, live.not_freed⟩
  · obtain ⟨symbol, block, s, found, type, value, _⟩ := sound.value_of_var sound.ps1
    have shown : prompt shell = .dup block s := by simp only [prompt, symtabFetch, found, value]
    exact ⟨symbol, s, found, type, by rw [value]; rfl, by rw [shown, value], by rw [shown]; simp⟩
  · obtain ⟨symbol, block, s, found, type, value, _⟩ := sound.value_of_var sound.path
    exact ⟨symbol, s, found, type, by rw [value]; rfl, fun fallback => by simp only [symtabFetch, found]⟩

end OS2.Lsh
