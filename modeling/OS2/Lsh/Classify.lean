import OS2.Lsh.Assignment
import OS2.Lsh.TypeTags

namespace OS2.Lsh

open OS2.Text OS2.Loop OS2.Regex OS2.Symtab OS2.Tokenise

variable {shell shell' : Shell} {s : Str}

def Assigns (below : Char) (shell : Shell) (s name text : Str) : Prop :=
  ∃ shell', shell.set name (.var text) = .ok shell' ∧ Ends (parse · below shell s) (.ok shell')

/-- What the two forms of input ask of `parse`: it sets a variable exactly on the lines of the form
    `<name>=<value>`, that of the name and to the first token of the value, and every other line is a
    command, which leaves the symbol table alone. -/
structure Classified (below : Char) (shell : Shell) (s : Str) : Prop where
  performs : (∃ name text, Assigns below shell s name text) ↔ IsAssignment s
  named : ∀ name value, IsName name → s = name ++ '=' :: value →
    ∃ token, (fetched value)[0]? = some token ∧ Assigns below shell s name token.value
  others : ¬ IsAssignment s → assignment.search s = false ∧
    ∀ fuel, parse fuel below shell s = dispatch fuel shell s ∧
      ∀ shell', dispatch fuel shell s = .ok shell' → shell'.symtab = shell.symtab

theorem set_dups {name value : Str} (sets : shell.set name (.var value) = .ok shell') :
    shell'.heap.dups = shell.heap.dups + 1 := by
  obtain ⟨rfl, _⟩ := Shell.set_eq sets
  exact entered_dups shell.symtab shell.heap name (.var value)

theorem dispatch_assigns_not {name value : Str} (free : NulFree s) (sets : shell.set name (.var value) = .ok shell') :
    ¬ Ends (dispatch · shell s) (.ok shell') := by
  intro ⟨least, returns⟩
  have same := (dispatch_frame free (returns least (Nat.le_refl _))).2
  have more := set_dups sets
  rw [same] at more
  omega

theorem assignment_unique {name name' value value' : Str} (isName : IsName name) (isName' : IsName name')
    (same : name ++ '=' :: value = name' ++ '=' :: value') : name = name' ∧ value = value' := by
  have equals : isAlnum '=' = false := by decide
  have names := congrArg (List.takeWhile isAlnum) same
  rw [List.takeWhile_append_of_pos isName.all, List.takeWhile_append_of_pos isName'.all] at names
  obtain rfl : name = name' := by simpa [equals] using names
  exact ⟨rfl, List.cons.inj (List.append_cancel_left same) |>.2⟩

theorem assign_assigns_iff {name value : Str} (sound : Sound shell) (isName : IsName name)
    (free : NulFree (name ++ '=' :: value)) :
    (∃ token shell', (fetched value)[0]? = some token ∧ shell.set name (.var token.value) = .ok shell' ∧
        Ends (assign · shell (name ++ '=' :: value)) (.ok shell')) ↔
      Settles value ∧ ¬ NoItem value ∧ ∀ f, ¬ Installed name f := by
  have tokens := fetched_assignment isName value
  constructor
  · intro ⟨token, shell', some', sets, least, returns⟩
    obtain ⟨_, _, settles, _⟩ := assign_cases free (returns least (Nat.le_refl _))
    refine ⟨(settles_assignment isName value).mp settles, ?_, (sound.yields_iff _ _).mp (Shell.set_eq sets).2⟩
    intro none
    rw [fetched_noItem none] at some'
    cases some'
  · intro ⟨settles, item, user⟩
    cases values : fetched value with
    | nil => exact absurd (noItem_of_fetched settles values) item
    | cons token behind =>
      rw [values] at tokens
      have first : (fetched (name ++ '=' :: value))[0]? = some ⟨name, .arg⟩ := by rw [tokens]; rfl
      have third : (fetched (name ++ '=' :: value))[2]? = some token := by rw [tokens]; rfl
      have ends := @assign_ends shell _ free ((settles_assignment isName value).mpr settles) _ _ first third
      rw [sound.set_ok user] at ends
      exact ⟨token, _, rfl, sound.set_ok user _, ends⟩

/-- In every state that the shell reaches, the forms of input are told apart exactly on the variable settings
    whose value has a token and ends and whose name is not that of an internal command, and on the lines
    in which no name has an equals sign behind it. -/
theorem parse_classifies_iff (free : NulFree s) (trimmed : Trimmed s) (nonempty : s ≠ []) {fuel : Nat}
    {below : Char} {lines : List Str} (reached : repl fuel below init lines = .ok shell) :
    Classified below shell s ↔
      (∃ name value, IsName name ∧ s = name ++ '=' :: value ∧ Settles value ∧ ¬ NoItem value ∧
        ∀ f, ¬ Installed name f) ∨
      ¬ ∃ before name value, IsName name ∧ s = before ++ (name ++ '=' :: value) := by
  have sound := sound_of_repl reached
  have parses := fun fuel => parse_trimmed free trimmed nonempty fuel below shell
  by_cases found : assignment.search s = true
  · have somewhere := (search_assignment s).mp found
    simp only [found, if_true] at parses
    constructor
    · intro classified
      by_cases form : IsAssignment s
      · obtain ⟨name, value, isName, rfl⟩ := form
        obtain ⟨token, first, shell', sets, ends⟩ := classified.named name value isName rfl
        simp only [parses] at ends
        exact .inl ⟨name, value, isName, rfl,
          (assign_assigns_iff sound isName free).mp ⟨token, shell', first, sets, ends⟩⟩
      · have missed := (classified.others form).1
        rw [found] at missed
        cases missed
    · intro cases
      rcases cases with ⟨name, value, isName, rfl, whole⟩ | nowhere
      · have form : IsAssignment (name ++ '=' :: value) := ⟨name, value, isName, rfl⟩
        obtain ⟨token, shell', first, sets, ends⟩ := (assign_assigns_iff sound isName free).mpr whole
        have assigns : Assigns below shell (name ++ '=' :: value) name token.value :=
          ⟨shell', sets, by simpa only [parses] using ends⟩
        refine ⟨⟨fun _ => form, fun _ => ⟨name, token.value, assigns⟩⟩, ?_, fun other => absurd form other⟩
        intro name' value' isName' same
        obtain ⟨rfl, rfl⟩ := assignment_unique isName isName' same
        exact ⟨token, first, assigns⟩
      · exact absurd somewhere nowhere
  · have nowhere := fun somewhere => found ((search_assignment s).mpr somewhere)
    have other : ¬ IsAssignment s := fun form => found (search_of_isAssignment form)
    simp only [found] at parses
    have classified : Classified below shell s := by
      refine ⟨⟨?_, fun form => absurd form other⟩, ?_,
        fun _ => ⟨Bool.eq_false_iff.mpr found, fun fuel => ⟨parses fuel, ?_⟩⟩⟩
      · intro ⟨name, text, shell', sets, ends⟩
        simp only [parses] at ends
        exact absurd ends (dispatch_assigns_not free sets)
      · intro name value isName same
        exact absurd ⟨name, value, isName, same⟩ other
      · exact fun shell' done => (dispatch_frame free done).1
    exact ⟨fun _ => .inr nowhere, fun _ => classified⟩

theorem parse_classifies_iff_setting : Classified NUL init "PS1=1".toList := by
  have reached : repl 0 NUL init [] = .ok init := rfl
  apply (parse_classifies_iff (by decide) (by decide) (by decide) reached).mpr
  refine .inl ⟨"PS1".toList, ['1'], by decide, by decide, by decide +kernel, ?_, ?_⟩
  · intro none
    have tokens : fetched ['1'] ≠ [] := by decide +kernel
    exact tokens (fetched_noItem none)
  · intro f
    cases f <;> decide

theorem parse_misreads_argument :
    NulFree "ls a=b".toList ∧ Trimmed "ls a=b".toList ∧ ¬ Classified NUL init "ls a=b".toList := by
  refine ⟨by decide, by decide, ?_⟩
  intro classified
  have set : parse 60 NUL init "ls a=b".toList = .ok (init.entered "ls".toList (.var ['='])) := by decide
  have command : ¬ IsAssignment "ls a=b".toList := by decide
  obtain ⟨_, others⟩ := classified.others command
  have kept := (others 60).2 (init.entered "ls".toList (.var ['='])) (by rw [← (others 60).1, set])
  exact absurd kept (by decide)

end OS2.Lsh
