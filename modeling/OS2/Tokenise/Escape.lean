import OS2.Tokenise.Compose

namespace OS2.Tokenise

open OS2.Text OS2.Loop

/-- A backslash behind `p` makes the character `c` the first one of a word, where the line with `x` for
    the two of them has a word that begins with `x`; everything else is as there. -/
def Escapes (p : Str) (c : Char) (s : Str) (x : Char) : Prop :=
  ∃ before word behind, Fetches p before ∧
    Fetches (p ++ x :: s) (before ++ ⟨x :: word, .arg⟩ :: behind) ∧
    Fetches (p ++ '\\' :: c :: s) (before ++ ⟨c :: word, .arg⟩ :: behind)

theorem fetched_of_fetches {s : Str} {tokens : List Token} (free : NulFree s) (fetches : Fetches s tokens) :
    Settles s ∧ tokens = fetched s := by
  obtain ⟨least, returns⟩ := fetches
  obtain ⟨settles, same⟩ := fetched_of_tokeniseFetch free (returns least (Nat.le_refl _))
  exact ⟨settles, congrArg Prod.fst same⟩

theorem escaped_behind {p : Str} (between : ending p = .between) (rest : Str) :
    ending (p ++ '\\' :: rest) = .escape rest ∧ fetched (p ++ '\\' :: rest) = grammar p ++ grammar rest := by
  have joins : Joins p ('\\' :: rest) := .inl between
  have escape : (ending (p ++ '\\' :: rest)).escaped = some rest := by
    rw [escaped_append joins, ending_escape]
    rfl
  refine ⟨escaped_eq_some.mp escape, ?_⟩
  rw [fetched, escape, grammar_append joins, grammar_escape]
  simp

theorem separators_no_arg {rest : Str} (separators : ∀ c ∈ rest, wordChar c = false) :
    ∀ t ∈ grammar rest, t.type ≠ .arg := by
  induction rest with
  | nil => simp
  | cons c cs ih =>
    obtain ⟨stop, later⟩ := List.forall_mem_cons.mp separators
    rcases not_wordChar_cases stop with white | ⟨type, op⟩
    · rw [grammar_space white]
      exact ih later
    · rw [grammar_operator op]
      exact List.forall_mem_cons.mpr ⟨operatorType_ne_arg op, ih later⟩

/-- No character is ever escaped: the scanner hangs in the first word behind the backslash, and what it
    returns where there is no word has no word either. -/
theorem never_escapes {p s : Str} {c : Char} (freeP : NulFree p) (between : ending p = .between)
    (present : c ≠ NUL) (freeS : NulFree s) (x : Char) : ¬ Escapes p c s x := by
  intro ⟨before, word, behind, fetchesP, _, fetches⟩
  have backslash : '\\' ≠ NUL := by decide
  have free : NulFree (p ++ '\\' :: c :: s) := by simp [freeP, freeS, present, backslash]
  have plain : NoEscape p := fun rest stop => by rw [between] at stop; cases stop
  obtain rfl : before = grammar p := by
    rw [← fetched_of_noEscape plain]
    exact (fetched_of_fetches freeP fetchesP).2
  obtain ⟨settles, tokens⟩ := fetched_of_fetches free fetches
  obtain ⟨escape, shape⟩ := escaped_behind between (c :: s)
  rw [shape] at tokens
  have literal : ⟨c :: word, .arg⟩ ∈ grammar (c :: s) := by
    rw [← List.append_cancel_left tokens]
    exact List.mem_cons_self
  exact separators_no_arg (settles _ escape) _ literal rfl

theorem never_escapes_letter : ¬ Escapes "ls ".toList 'a' "b c".toList 'x' :=
  never_escapes (by decide) (by decide +kernel) (by decide) (by decide) 'x'

theorem escaped_operator_is_operator :
    NulFree "ls ".toList ∧ ending "ls ".toList = .between ∧
      Fetches "ls \\|".toList [⟨"ls".toList, .arg⟩, ⟨['|'], .pipe⟩] ∧ ¬ Escapes "ls ".toList '|' [] 'x' := by
  have tokens : fetched "ls \\|".toList = [⟨"ls".toList, .arg⟩, ⟨['|'], .pipe⟩] := by decide +kernel
  have first : fetched "ls ".toList = [⟨"ls".toList, .arg⟩] := by decide +kernel
  refine ⟨by decide, by decide +kernel, ?_, ?_⟩
  · rw [← tokens]
    exact fetches_of_settles (by decide) (by decide +kernel)
  · intro ⟨before, word, behind, fetchesP, _, fetches⟩
    have whole := (fetched_of_fetches (by decide) fetches).2
    rw [(fetched_of_fetches (by decide) fetchesP).2, first] at whole
    have shape := whole.trans tokens
    simp at shape

end OS2.Tokenise
