import OS2.Tokenise.Fetch

namespace OS2.Tokenise

open OS2.Text OS2.Loop

def Stops (s : Str) : Prop := ∀ c, s.head? = some c → wordChar c = false

theorem stops_nil : Stops [] := by simp [Stops]

theorem stops_cons {c : Char} {s : Str} (stop : wordChar c = false) : Stops (c :: s) := by
  intro d head
  obtain rfl : c = d := by simpa using head
  exact stop

theorem stops_dropWhile (s : Str) : Stops (s.dropWhile wordChar) := by
  intro c head
  have stop := List.head?_dropWhile_not wordChar s
  rwa [head] at stop

theorem quote_black {q : Char} (quote : isQuote q = true) : isspace q = false ∧ q ≠ '\\' := by
  rcases isQuote_cases quote with rfl | rfl <;> decide

theorem quote_starts_no_word {q : Char} (quote : isQuote q = true) : startsWord q = false := by
  simp [startsWord, quote]

theorem word_black {c : Char} (word : startsWord c = true) : isspace c = false ∧ c ≠ '\\' := by
  simp only [startsWord, wordChar, Bool.and_eq_true, Bool.not_eq_true', bne_iff_ne] at word
  exact ⟨word.1.1.1, word.2⟩

theorem word_no_quote {c : Char} (word : startsWord c = true) : isQuote c = false := by
  simp only [startsWord, Bool.and_eq_true, Bool.not_eq_true'] at word
  exact word.1.2

theorem wordChar_space {w : Char} (white : isspace w = true) : wordChar w = false := by
  simp [wordChar, white]

theorem wordChar_operator {c : Char} {type : TType} (op : operatorType c = some type) :
    wordChar c = false := by
  simp [wordChar, op]

theorem nextToken_closed {q : Char} {text : Str} (quote : isQuote q = true) (outside : q ∉ text)
    (rest : Str) : nextToken q (text ++ q :: rest) = (⟨text, .arg⟩, rest) := by
  have inside : ∀ c ∈ text, (c != q) = true := fun c member => bne_iff_ne.mpr fun same => outside (same ▸ member)
  rw [nextToken_quote quote, List.takeWhile_append_of_pos inside, List.dropWhile_append_of_pos inside]
  simp

theorem nextToken_run {c : Char} {word rest : Str} (starts : startsWord c = true)
    (inside : ∀ d ∈ word, wordChar d = true) (stop : Stops rest) :
    nextToken c (word ++ rest) = (⟨c :: word, .arg⟩, rest) := by
  rw [nextToken_word starts, List.takeWhile_append_of_pos inside, List.dropWhile_append_of_pos inside]
  cases rest with
  | nil => simp
  | cons d rest => simp [stop d rfl]

def Joins (p s : Str) : Prop := ending p = .between ∨ ending p = .inWord ∧ Stops s

theorem joins_of_stops {p s : Str} (plain : NoEscape p) (closed : ending p ≠ .inQuote) (stop : Stops s) :
    Joins p s := by
  cases h : ending p with
  | between => exact .inl h
  | inWord => exact .inr ⟨h, stop⟩
  | inQuote => exact absurd h closed
  | escape rest => exact absurd h (plain rest)

theorem joins_token {c : Char} {cs s : Str} (black : isspace c = false) (plain : c ≠ '\\')
    (joins : Joins (c :: cs) s) :
    Joins (nextToken c cs).2 s ∧
      nextToken c (cs ++ s) = ((nextToken c cs).1, (nextToken c cs).2 ++ s) := by
  simp only [Joins, ending_token black plain] at joins
  rcases token_start_cases black plain with quote | ⟨type, op⟩ | word
  · by_cases member : c ∈ cs
    · obtain ⟨text, rest, rfl, outside⟩ := List.eq_append_cons_of_mem member
      rw [List.append_assoc, List.cons_append, nextToken_closed quote outside, nextToken_closed quote outside]
      simpa [Joins, quote_starts_no_word quote, nextToken_closed quote outside] using joins
    · simp [quote, member] at joins
  · have noWord : startsWord c = false := by simp [startsWord, wordChar_operator op]
    rw [nextToken_operator op, nextToken_operator op]
    simpa [Joins, isQuote_of_operatorType op, noWord, nextToken_operator op] using joins
  · have whole := List.takeWhile_append_dropWhile (p := wordChar) (l := cs)
    have inside : ∀ d ∈ cs.takeWhile wordChar, wordChar d = true := fun d => List.mem_takeWhile_imp
    rw [nextToken_word word]
    have stop : Stops (cs.dropWhile wordChar ++ s) := by
      cases rest : cs.dropWhile wordChar with
      | cons d rest =>
        have head := stops_dropWhile cs
        rw [rest] at head
        exact stops_cons (head d rfl)
      | nil =>
        have all : cs.all wordChar = true := List.all_eq_true.mpr (List.dropWhile_eq_nil_iff.mp rest)
        simp only [word_no_quote word, word, all, Bool.false_eq_true, false_and, if_false, and_self,
          if_true, reduceCtorEq, true_and, false_or] at joins
        exact joins
    constructor
    · by_cases all : cs.all wordChar = true
      · have rest : cs.dropWhile wordChar = [] := List.dropWhile_eq_nil_iff.mpr (List.all_eq_true.mp all)
        simp [rest, Joins]
      · simpa [Joins, word_no_quote word, all, nextToken_word word] using joins
    · rw [← nextToken_run word inside stop, ← List.append_assoc, whole]

theorem grammar_append {p s : Str} (joins : Joins p s) : grammar (p ++ s) = grammar p ++ grammar s := by
  induction p using token_induction with
  | nil => simp
  | space c cs white ih =>
    rw [List.cons_append, grammar_space white, grammar_space white]
    exact ih (by simpa only [Joins, ending_space white] using joins)
  | escape cs => simp [Joins] at joins
  | token c cs black plain ih =>
    obtain ⟨later, next⟩ := joins_token black plain joins
    rw [List.cons_append, grammar_token black plain, grammar_token black plain, next, ih later,
      List.cons_append]

theorem escaped_append {p s : Str} (joins : Joins p s) :
    (ending (p ++ s)).escaped = (ending s).escaped := by
  induction p using token_induction with
  | nil => simp
  | space c cs white ih =>
    rw [List.cons_append, ending_space white]
    exact ih (by simpa only [Joins, ending_space white] using joins)
  | escape cs => simp [Joins] at joins
  | token c cs black plain ih =>
    obtain ⟨later, next⟩ := joins_token black plain joins
    rw [List.cons_append, escaped_token black plain, next, ih later]

theorem noEscape_iff {s : Str} : NoEscape s ↔ (ending s).escaped = none := by
  simp only [NoEscape, Option.eq_none_iff_forall_ne_some, ne_eq, escaped_eq_some]

theorem noEscape_append {p s : Str} (joins : Joins p s) : NoEscape (p ++ s) ↔ NoEscape s := by
  rw [noEscape_iff, noEscape_iff, escaped_append joins]

theorem noEscape_space {w : Char} (white : isspace w = true) (s : Str) :
    NoEscape (w :: s) ↔ NoEscape s := by
  rw [noEscape_iff, noEscape_iff, ending_space white]

theorem noEscape_operator {c : Char} {type : TType} (op : operatorType c = some type) (s : Str) :
    NoEscape (c :: s) ↔ NoEscape s := by
  rw [noEscape_iff, noEscape_iff, escaped_token (operator_black op).1 (operator_black op).2,
    nextToken_operator op]

theorem noEscape_quoted {q : Char} {text : Str} (quote : isQuote q = true) (outside : q ∉ text)
    (s : Str) : NoEscape (q :: (text ++ q :: s)) ↔ NoEscape s := by
  rw [noEscape_iff, noEscape_iff, escaped_token (quote_black quote).1 (quote_black quote).2,
    nextToken_closed quote outside]

theorem grammar_quoted {q : Char} {text : Str} (quote : isQuote q = true) (outside : q ∉ text)
    (s : Str) : grammar (q :: (text ++ q :: s)) = ⟨text, .arg⟩ :: grammar s := by
  rw [grammar_token (quote_black quote).1 (quote_black quote).2, nextToken_closed quote outside]

theorem fetches_of_noEscape {s : Str} (free : NulFree s) (plain : NoEscape s) : Fetches s (grammar s) := by
  rw [← fetched_of_noEscape plain]
  exact fetches_of_settles free (settles_of_noEscape plain)

end OS2.Tokenise
