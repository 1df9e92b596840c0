import OS2.Tokenise.Scanner
import Mathlib.Data.List.TakeWhile

namespace OS2.Tokenise

open OS2.Text

def operatorType (c : Char) : Option TType :=
  [('|', TType.pipe), ('&', .background), ('<', .fromfile), ('>', .tofile), ('=', .assign)].lookup c

def isQuote (c : Char) : Bool := c == '"' || c == '\''

def wordChar (c : Char) : Bool := !isspace c && (operatorType c).isNone

def startsWord (c : Char) : Bool := wordChar c && !isQuote c && c != '\\'

def nextToken (c : Char) (cs : Str) : Token × Str :=
  if isQuote c then (⟨cs.takeWhile (· != c), .arg⟩, (cs.dropWhile (· != c)).drop 1)
  else match operatorType c with
    | some type => (⟨[c], type⟩, cs)
    | none => (⟨c :: cs.takeWhile wordChar, .arg⟩, cs.dropWhile wordChar)

theorem operator_cases {c : Char} {type : TType} (op : operatorType c = some type) :
    c = '|' ∧ type = .pipe ∨ c = '&' ∧ type = .background ∨ c = '<' ∧ type = .fromfile ∨
      c = '>' ∧ type = .tofile ∨ c = '=' ∧ type = .assign := by
  obtain ⟨before, after, split, _⟩ := List.lookup_eq_some_iff.mp op
  have member : (c, type) ∈ before ++ (c, type) :: after := by simp
  rw [← split] at member
  simpa using member

theorem nextToken_quote {c : Char} (quote : isQuote c = true) (cs : Str) :
    nextToken c cs = (⟨cs.takeWhile (· != c), .arg⟩, (cs.dropWhile (· != c)).drop 1) := by
  simp [nextToken, quote]

theorem isQuote_of_operatorType {c : Char} {type : TType} (op : operatorType c = some type) :
    isQuote c = false := by
  rcases operator_cases op with h | h | h | h | h <;> rw [h.1] <;> decide

theorem nextToken_operator {c : Char} {type : TType} (op : operatorType c = some type) (cs : Str) :
    nextToken c cs = (⟨[c], type⟩, cs) := by
  simp [nextToken, isQuote_of_operatorType op, op]

theorem nextToken_word {c : Char} (word : startsWord c = true) (cs : Str) :
    nextToken c cs = (⟨c :: cs.takeWhile wordChar, .arg⟩, cs.dropWhile wordChar) := by
  simp only [startsWord, wordChar, Bool.and_eq_true, Bool.not_eq_true', Option.isNone_iff_eq_none] at word
  simp [nextToken, word.1.2, word.1.1.2]

theorem token_start_cases {c : Char} (black : isspace c = false) (plain : c ≠ '\\') :
    isQuote c = true ∨ (∃ type, operatorType c = some type) ∨ startsWord c = true := by
  cases quote : isQuote c with
  | true => exact .inl rfl
  | false =>
    cases op : operatorType c with
    | some type => exact .inr (.inl ⟨type, rfl⟩)
    | none => exact .inr (.inr (by simp [startsWord, wordChar, black, quote, op, plain]))

theorem nextToken_length (c : Char) (cs : Str) : (nextToken c cs).2.length ≤ cs.length := by
  unfold nextToken
  split
  · have bound := (List.dropWhile_suffix (l := cs) (· != c)).length_le
    simp only [List.length_drop]
    omega
  · split
    · exact Nat.le_refl _
    · exact (List.dropWhile_suffix (l := cs) wordChar).length_le

theorem mem_of_mem_nextToken {c d : Char} {cs : Str} (member : d ∈ (nextToken c cs).2) : d ∈ cs := by
  unfold nextToken at member
  split at member
  · exact (List.dropWhile_suffix _).subset (List.mem_of_mem_drop member)
  · split at member
    · exact member
    · exact (List.dropWhile_suffix _).subset member

/-- The tokens of a text, from left to right, as far as a backslash at a token start. -/
def grammar : Str → List Token
  | [] => []
  | c :: cs =>
    if isspace c then grammar cs
    else if c = '\\' then []
    else (nextToken c cs).1 :: grammar (nextToken c cs).2
termination_by s => s.length
decreasing_by
  · simp
  · have bound := nextToken_length c cs
    simp only [List.length_cons]
    omega

/-- Where a left-to-right reading of a text stops: between two tokens, inside a word that the end
    of the text cuts off, inside an open quote, or at a backslash at a token start. -/
inductive Ending where
  | between
  | inWord
  | inQuote
  | escape (rest : Str)
  deriving DecidableEq, Repr

def ending : Str → Ending
  | [] => .between
  | c :: cs =>
    if isspace c then ending cs
    else if c = '\\' then .escape cs
    else if isQuote c ∧ c ∉ cs then .inQuote
    else if startsWord c ∧ cs.all wordChar then .inWord
    else ending (nextToken c cs).2
termination_by s => s.length
decreasing_by
  · simp
  · have bound := nextToken_length c cs
    simp only [List.length_cons]
    omega

def NoEscape (s : Str) : Prop := ∀ rest, ending s ≠ .escape rest

instance (s : Str) : Decidable (NoEscape s) :=
  match stop : ending s with
  | .escape rest => isFalse fun plain => plain rest stop
  | .between | .inWord | .inQuote => isTrue fun rest => by simp [stop]

/-- The induction that follows the grammar: by its items, the text behind an item left. -/
theorem token_induction {motive : Str → Prop} (nil : motive [])
    (space : ∀ c cs, isspace c = true → motive cs → motive (c :: cs))
    (escape : ∀ cs, motive ('\\' :: cs))
    (token : ∀ c cs, isspace c = false → c ≠ '\\' → motive (nextToken c cs).2 → motive (c :: cs))
    (s : Str) : motive s := by
  induction s using grammar.induct with
  | case1 => exact nil
  | case2 c cs white ih => exact space c cs white ih
  | case3 cs black => exact escape cs
  | case4 c cs black plain ih => exact token c cs (by simpa using black) plain ih

@[simp] theorem grammar_nil : grammar [] = [] := by rw [grammar]

theorem grammar_space {c : Char} (white : isspace c = true) (cs : Str) :
    grammar (c :: cs) = grammar cs := by
  rw [grammar, if_pos white]

@[simp] theorem grammar_escape (cs : Str) : grammar ('\\' :: cs) = [] := by
  rw [grammar, if_neg (by decide), if_pos rfl]

theorem grammar_token {c : Char} (black : isspace c = false) (plain : c ≠ '\\') (cs : Str) :
    grammar (c :: cs) = (nextToken c cs).1 :: grammar (nextToken c cs).2 := by
  rw [grammar, if_neg (by simp [black]), if_neg plain]

@[simp] theorem ending_nil : ending [] = .between := by rw [ending]

theorem ending_space {c : Char} (white : isspace c = true) (cs : Str) :
    ending (c :: cs) = ending cs := by
  rw [ending, if_pos white]

@[simp] theorem ending_escape (cs : Str) : ending ('\\' :: cs) = .escape cs := by
  rw [ending, if_neg (by decide), if_pos rfl]

theorem ending_token {c : Char} (black : isspace c = false) (plain : c ≠ '\\') (cs : Str) :
    ending (c :: cs) =
      if isQuote c ∧ c ∉ cs then .inQuote
      else if startsWord c ∧ cs.all wordChar then .inWord
      else ending (nextToken c cs).2 := by
  rw [ending, if_neg (by simp [black]), if_neg plain]

end OS2.Tokenise
