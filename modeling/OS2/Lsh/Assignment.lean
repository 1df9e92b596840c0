import OS2.Lsh.Parse

namespace OS2.Lsh

open OS2.Text OS2.Loop OS2.Regex OS2.Symtab OS2.Tokenise

def IsName : Str → Prop
  | [] => False
  | c :: cs => isLetter c = true ∧ ∀ d ∈ cs, isAlnum d = true

instance : (s : Str) → Decidable (IsName s)
  | [] => inferInstanceAs (Decidable False)
  | c :: cs => decidable_of_iff (isLetter c = true ∧ cs.all isAlnum = true) (by simp [IsName])

def IsAssignment (s : Str) : Prop := ∃ name value, IsName name ∧ s = name ++ '=' :: value

theorem isAlnum_of_isLetter {c : Char} (letter : isLetter c = true) : isAlnum c = true := by
  simp [isAlnum, letter]

theorem isAlnum_isspace {c : Char} (white : isspace c = true) : isAlnum c = false := by
  simp only [isspace, Bool.or_eq_true, beq_iff_eq] at white
  rcases white with ((((rfl | rfl) | rfl) | rfl) | rfl) | rfl <;> decide

theorem isAlnum_operator {c : Char} {type : TType} (op : operatorType c = some type) : isAlnum c = false := by
  rcases operator_cases op with h | h | h | h | h <;> rw [h.1] <;> decide

theorem isAlnum_quote {c : Char} (quote : isQuote c = true) : isAlnum c = false := by
  rcases isQuote_cases quote with rfl | rfl <;> decide

theorem wordChar_of_isAlnum {c : Char} (alnum : isAlnum c = true) : wordChar c = true := by
  by_contra stop
  rcases not_wordChar_cases (Bool.eq_false_iff.mpr stop) with white | ⟨type, op⟩
  · rw [isAlnum_isspace white] at alnum
    cases alnum
  · rw [isAlnum_operator op] at alnum
    cases alnum

theorem startsWord_of_isAlnum {c : Char} (alnum : isAlnum c = true) : startsWord c = true := by
  have noQuote : isQuote c = false := by
    by_contra quote
    rw [isAlnum_quote (by simpa using quote)] at alnum
    cases alnum
  have noEscape : c ≠ '\\' := by
    intro escape
    rw [escape] at alnum
    exact absurd alnum (by decide)
  simp [startsWord, wordChar_of_isAlnum alnum, noQuote, noEscape]

theorem IsName.all {name : Str} (isName : IsName name) : ∀ c ∈ name, isAlnum c = true := by
  cases name with
  | nil => cases isName
  | cons c cs => exact List.forall_mem_cons.mpr ⟨isAlnum_of_isLetter isName.1, isName.2⟩

theorem IsName.nulFree {name : Str} (isName : IsName name) : NulFree name :=
  fun member => absurd (isName.all _ member) (by decide)

theorem IsName.black {name : Str} (isName : IsName name) : ∀ c ∈ name, isspace c = false := by
  intro c member
  exact (word_black (startsWord_of_isAlnum (isName.all c member))).1

theorem IsName.bare {name : Str} (isName : IsName name) : BareWord name := by
  have all := isName.all
  cases name with
  | nil => cases isName
  | cons c cs =>
    obtain ⟨first, later⟩ := List.forall_mem_cons.mp all
    exact ⟨c, cs, rfl, startsWord_of_isAlnum first, fun d member => wordChar_of_isAlnum (later d member)⟩

theorem isAssignment_iff {s : Str} : IsAssignment s ↔
    IsName (s.takeWhile isAlnum) ∧ (s.dropWhile isAlnum).head? = some '=' := by
  constructor
  · intro ⟨name, value, isName, split⟩
    have equals : isAlnum '=' = false := by decide
    rw [split, List.takeWhile_append_of_pos isName.all, List.dropWhile_append_of_pos isName.all]
    simp [equals, isName]
  · intro ⟨isName, equals⟩
    refine ⟨s.takeWhile isAlnum, (s.dropWhile isAlnum).tail, isName, ?_⟩
    rw [← List.eq_cons_of_mem_head? equals, List.takeWhile_append_dropWhile]

instance (s : Str) : Decidable (IsAssignment s) := decidable_of_iff _ isAssignment_iff.symm

/-- The search finds a name with an equals sign behind it, anywhere in the line. -/
theorem search_assignment (s : Str) : assignment.search s = true ↔
    ∃ before name value, IsName name ∧ s = before ++ (name ++ '=' :: value) := by
  rw [Pattern.search_iff]
  constructor
  · intro ⟨before, found, behind, split, member⟩
    obtain ⟨name, nameMember, value, valueMember, rfl⟩ := Pattern.mem_seq.mp member
    obtain ⟨letters, lettersMember, others, othersMember, rfl⟩ := Pattern.mem_seq.mp nameMember
    obtain ⟨nonempty, allLetters⟩ := Pattern.mem_plus_cls.mp lettersMember
    obtain ⟨equals, ⟨c, isEquals, rfl⟩, text, _, rfl⟩ := Pattern.mem_seq.mp valueMember
    obtain rfl : c = '=' := by simpa using isEquals
    cases letters with
    | nil => exact absurd rfl nonempty
    | cons c letters =>
      obtain ⟨first, later⟩ := List.forall_mem_cons.mp allLetters
      refine ⟨before, c :: letters ++ others, text ++ behind, ⟨first, ?_⟩, by simp [split]⟩
      intro d inside
      rcases List.mem_append.mp inside with inside | inside
      · exact isAlnum_of_isLetter (later d inside)
      · exact Pattern.mem_star_cls.mp othersMember d inside
  · intro ⟨before, name, value, isName, split⟩
    cases name with
    | nil => cases isName
    | cons c cs =>
      have letters : [c] ∈ (Pattern.plus (.cls isLetter)).lang :=
        Pattern.mem_plus_cls.mpr ⟨by simp, by simpa using isName.1⟩
      have others : cs ∈ (Pattern.star (.cls isAlnum)).lang := Pattern.mem_star_cls.mpr isName.2
      have equals : ['='] ∈ (Pattern.cls (· == '=') : Pattern Char).lang :=
        Pattern.mem_cls.mpr ⟨'=', by decide, rfl⟩
      have text : [] ∈ (Pattern.star (.cls (· != '\n')) : Pattern Char).lang :=
        Pattern.mem_star_cls.mpr (by simp)
      refine ⟨before, (c :: cs) ++ ['='], value, by simp [split], ?_⟩
      apply Pattern.mem_seq.mpr
      exact ⟨c :: cs, Pattern.mem_seq.mpr ⟨[c], letters, cs, others, rfl⟩, ['='],
        Pattern.mem_seq.mpr ⟨['='], equals, [], text, rfl⟩, rfl⟩

theorem search_of_isAssignment {s : Str} (form : IsAssignment s) : assignment.search s = true := by
  obtain ⟨name, value, isName, rfl⟩ := form
  exact (search_assignment _).mpr ⟨[], name, value, isName, rfl⟩

theorem operatorType_equals : operatorType '=' = some .assign := by decide

theorem stops_equals (value : Str) : Stops ('=' :: value) :=
  stops_cons (wordChar_operator operatorType_equals)

theorem fetched_assignment {name : Str} (isName : IsName name) (value : Str) :
    fetched (name ++ '=' :: value) = ⟨name, .arg⟩ :: ⟨['='], .assign⟩ :: fetched value := by
  rw [fetched_word isName.bare (stops_equals value), fetched_operator operatorType_equals]

theorem settles_assignment {name : Str} (isName : IsName name) (value : Str) :
    Settles (name ++ '=' :: value) ↔ Settles value := by
  have word : Item name ('=' :: value) := .word _ _ isName.bare (stops_equals value)
  have equals : Item ['='] value := .operator _ _ _ operatorType_equals
  rw [settles_item word]
  exact settles_item equals

theorem parse_around {lead text trail : Str} (free : NulFree text) (leading : Blank lead) (trailing : Blank trail)
    (trimmed : Trimmed text) (nonempty : text ≠ []) (fuel : Nat) (below : Char) (shell : Shell) :
    parse fuel below shell (lead ++ (text ++ trail)) =
      if assignment.search text then assign fuel shell text else dispatch fuel shell text := by
  have freeLine : NulFree (lead ++ (text ++ trail)) := by
    simp [free, nulFree_of_blank leading, nulFree_of_blank trailing]
  have same := strip_around leading trailing trimmed nonempty
  have shape : (lead ++ (text ++ trail)) ++ [NUL] = (lead ++ (text ++ trail)) ++ NUL :: [] := rfl
  have cut := trimLine_text shape freeLine (by rwa [same]) below
  simp only [parse, cut, same]

theorem parse_trimmed {s : Str} (free : NulFree s) (trimmed : Trimmed s) (nonempty : s ≠ [])
    (fuel : Nat) (below : Char) (shell : Shell) :
    parse fuel below shell s =
      if assignment.search s then assign fuel shell s else dispatch fuel shell s := by
  have none : Blank [] := by simp [Blank]
  simpa using parse_around free none none trimmed nonempty fuel below shell

end OS2.Lsh
