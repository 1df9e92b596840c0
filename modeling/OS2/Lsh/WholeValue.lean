import OS2.Lsh.Assignment
import OS2.Lsh.TypeTags

namespace OS2.Lsh

open OS2.Text OS2.Loop OS2.Regex OS2.Symtab OS2.Tokenise

def PlainValue (v : Str) : Prop :=
  NulFree v ∧ ∀ c ∈ v, isspace c = false ∧ isQuote c = false ∧ c ≠ '\\'

instance (v : Str) : Decidable (PlainValue v) :=
  decidable_of_iff (NulFree v ∧ v.all (fun c => !isspace c && !isQuote c && c != '\\') = true) (by
    simp [PlainValue, and_assoc])

def BoundTo (shell : Shell) (name v : Str) : Prop :=
  ∃ symbol, symtabLookup shell.symtab name = some symbol ∧ symbol.type = .var ∧ symbol.value.chars = some v

theorem boundTo_entered {shell : Shell} {name v w : Str} :
    BoundTo (shell.entered name (.var w)) name v ↔ w = v := by
  have found : symtabLookup (shell.entered name (.var w)).symtab name = _ := symtabLookup_entered_self
  constructor
  · intro ⟨symbol, bound, _, value⟩
    rw [found] at bound
    cases bound
    exact Option.some.inj value
  · intro same
    subst same
    exact ⟨_, found, rfl, rfl⟩

theorem noEscape_of_plain {v : Str} (plain : '\\' ∉ v) : NoEscape v := by
  induction v using token_induction with
  | nil => simp [NoEscape]
  | space c cs white ih =>
    exact (noEscape_space white cs).mpr (ih fun inside => plain (List.mem_cons_of_mem _ inside))
  | escape cs => exact absurd List.mem_cons_self plain
  | token c cs black other ih =>
    rw [noEscape_iff, escaped_token black other, ← noEscape_iff]
    exact ih fun inside => plain (List.mem_cons_of_mem _ (mem_of_mem_nextToken inside))

theorem PlainValue.settles {v : Str} (plain : PlainValue v) : Settles v :=
  settles_of_noEscape (noEscape_of_plain fun inside => (plain.2 _ inside).2.2 rfl)

theorem PlainValue.first {c : Char} {cs : Str} (plain : PlainValue (c :: cs)) :
    ∃ type behind, fetched (c :: cs) =
      ⟨if operatorType c = none then c :: cs.takeWhile wordChar else [c], type⟩ :: behind := by
  obtain ⟨black, noQuote, noEscape⟩ := plain.2 c List.mem_cons_self
  rw [fetched_token black noEscape]
  cases op : operatorType c with
  | some type =>
    rw [nextToken_operator op]
    exact ⟨type, _, rfl⟩
  | none =>
    have word : startsWord c = true := by simp [startsWord, wordChar, black, noQuote, noEscape, op]
    rw [nextToken_word word]
    exact ⟨.arg, _, rfl⟩

theorem PlainValue.word_iff {v : Str} (plain : PlainValue v) :
    (∀ c ∈ v, wordChar c = true) ↔ ∀ c ∈ v, operatorType c = none := by
  apply forall₂_congr
  intro c member
  simp [wordChar, (plain.2 c member).1]

/-- What is stored of a value is all of it, where it has no operator or is one operator. -/
theorem PlainValue.first_iff {c : Char} {cs : Str} (plain : PlainValue (c :: cs)) :
    (if operatorType c = none then c :: cs.takeWhile wordChar else [c]) = c :: cs ↔
      (c :: cs).length = 1 ∨ ∀ d ∈ c :: cs, operatorType d = none := by
  have later : PlainValue cs :=
    ⟨(nulFree_cons.mp plain.1).2, fun d member => plain.2 d (List.mem_cons_of_mem _ member)⟩
  rw [List.forall_mem_cons, ← later.word_iff]
  cases op : operatorType c with
  | some type => simp
  | none =>
    simp only [if_true, List.cons.injEq, true_and, List.takeWhile_eq_self_iff, List.length_cons]
    constructor
    · exact .inr
    · intro short
      rcases short with single | all
      · rw [List.length_eq_zero_iff.mp (show cs.length = 0 by omega)]
        simp
      · exact all

theorem parse_setting {name v trail : Str} (isName : IsName name) (plain : PlainValue v) (blank : Blank trail)
    (fuel : Nat) (below : Char) (shell : Shell) :
    parse fuel below shell (name ++ '=' :: (v ++ trail)) = assign fuel shell (name ++ '=' :: v) := by
  have equals : '=' ≠ NUL := by decide
  have free : NulFree (name ++ '=' :: v) := by simp [isName.nulFree, equals, plain.1]
  have black : ∀ c ∈ name ++ '=' :: v, isspace c = false := by
    intro c member
    rcases List.mem_append.mp member with inName | behind
    · exact isName.black c inName
    · rcases List.mem_cons.mp behind with rfl | inValue
      · decide
      · exact (plain.2 c inValue).1
  have trimmed : Trimmed (name ++ '=' :: v) :=
    ⟨fun c head => black c (List.mem_of_mem_head? head), fun c last => black c (List.mem_of_mem_getLast? last)⟩
  have form : assignment.search (name ++ '=' :: v) = true := search_of_isAssignment ⟨name, v, isName, rfl⟩
  have none : Blank [] := by simp [Blank]
  have parsed := parse_around free none blank trimmed (by simp) fuel below shell
  rw [form, if_pos rfl] at parsed
  simpa using parsed

theorem assign_first {name v : Str} {first : Token} {behind : List Token} {shell : Shell} (sound : Sound shell)
    (isName : IsName name) (user : ∀ f, ¬ Installed name f) (free : NulFree (name ++ '=' :: v)) (settles : Settles v)
    (shape : fetched v = first :: behind) :
    Ends (assign · shell (name ++ '=' :: v)) (.ok (shell.entered name (.var first.value))) := by
  have tokens := fetched_assignment isName v
  rw [shape] at tokens
  have names : (fetched (name ++ '=' :: v))[0]? = some ⟨name, .arg⟩ := by
    rw [tokens]
    rfl
  have values : (fetched (name ++ '=' :: v))[2]? = some first := by
    rw [tokens]
    rfl
  have ends := @assign_ends shell _ free ((settles_assignment isName v).mpr settles) _ _ names values
  rwa [sound.set_ok user] at ends

/-- In every state that the shell reaches, the whole value of a name that is not that of an internal command
    is stored exactly where it is not empty and has no operator in it, or is a single character. -/
theorem assignment_stores_iff {name v trail : Str} (isName : IsName name) (user : ∀ f, ¬ Installed name f)
    (plain : PlainValue v) (blank : Blank trail) {fuel : Nat} {below : Char} {lines : List Str} {shell : Shell}
    (reached : repl fuel below init lines = .ok shell) :
    (∃ shell', Ends (parse · below shell (name ++ '=' :: (v ++ trail))) (.ok shell') ∧ BoundTo shell' name v) ↔
      v.length = 1 ∨ v ≠ [] ∧ ∀ c ∈ v, operatorType c = none := by
  have free : NulFree (name ++ '=' :: v) := by simp [isName.nulFree, plain.1, NUL]
  simp only [parse_setting isName plain blank]
  cases v with
  | nil =>
    constructor
    · intro stored
      obtain ⟨shell', ⟨least, returns⟩, _⟩ := stored
      obtain ⟨_, _, _, _, third, _⟩ := assign_cases free (returns least (Nat.le_refl _))
      rw [fetched_assignment isName] at third
      simp [fetched, Ending.escaped] at third
    · simp
  | cons c cs =>
    obtain ⟨type, behind, shape⟩ := plain.first
    have stores := assign_first (sound_of_repl reached) isName user free plain.settles shape
    have whole := plain.first_iff
    constructor
    · intro stored
      obtain ⟨shell', ends, bound⟩ := stored
      rw [Except.ok.inj (ends.unique stores), boundTo_entered, whole] at bound
      simpa using bound
    · intro short
      refine ⟨_, stores, ?_⟩
      rw [boundTo_entered, whole]
      simpa using short

theorem assignment_stores_iff_prompt :
    (∃ shell', Ends (parse · NUL init ("PS1".toList ++ '=' :: ("$%".toList ++ ['\n']))) (.ok shell') ∧
      BoundTo shell' "PS1".toList "$%".toList) ↔
      "$%".toList.length = 1 ∨ "$%".toList ≠ [] ∧ ∀ c ∈ "$%".toList, operatorType c = none :=
  assignment_stores_iff (by decide) (by intro f; cases f <;> decide) (by decide) (by decide)
    (show repl 0 NUL init [] = .ok init from rfl)

theorem value_cut_at_equals :
    IsName "V".toList ∧ PlainValue "a=b".toList ∧
      ¬ ∃ shell', Ends (parse · NUL init ("V".toList ++ '=' :: ("a=b".toList ++ ['\n']))) (.ok shell') ∧
        BoundTo shell' "V".toList "a=b".toList := by
  have isName : IsName "V".toList := by decide
  have plain : PlainValue "a=b".toList := by decide
  have shape : fetched "a=b".toList = ⟨['a'], .arg⟩ :: fetched "=b".toList := by decide +kernel
  have user : ∀ f, ¬ Installed "V".toList f := by intro f; cases f <;> decide
  have stores := assign_first sound_init isName user (by decide) plain.settles shape
  refine ⟨isName, plain, ?_⟩
  intro ⟨shell', ends, bound⟩
  simp only [parse_setting isName plain (show Blank ['\n'] by decide)] at ends
  rw [Except.ok.inj (ends.unique stores), boundTo_entered] at bound
  exact absurd bound (by decide)

end OS2.Lsh
