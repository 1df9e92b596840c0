import OS2.Tokenise.Compose

namespace OS2.Tokenise

open OS2.Text OS2.Loop

/-- On a line without a backslash at a token start, `tokenise_fetch` returns the tokens of the
    grammar and writes their number through `count`. -/
theorem fetch_follows_grammar {s : Str} (free : NulFree s) (plain : NoEscape s) :
    Fetches s (grammar s) :=
  fetches_of_noEscape free plain

theorem fetch_follows_grammar_pipeline :
    Fetches "V='1 2' ls|wc".toList (grammar "V='1 2' ls|wc".toList) :=
  fetch_follows_grammar (by decide) (by decide +kernel)

example : grammar "V='1 2' ls|wc".toList =
    [⟨['V'], .arg⟩, ⟨['='], .assign⟩, ⟨"1 2".toList, .arg⟩, ⟨"ls".toList, .arg⟩, ⟨['|'], .pipe⟩,
      ⟨"wc".toList, .arg⟩] := by decide +kernel

/-- The main loop is left exactly when nothing but white space and operators follows the first
    backslash at a token start. -/
theorem fetch_terminates_iff {s : Str} (free : NulFree s) :
    (∃ fuel, tokeniseFetch fuel s ≠ .error .fuel) ↔ Settles s := by
  constructor
  · intro ⟨fuel, done⟩
    by_contra unsettled
    exact done (fetch_hangs free unsettled fuel)
  · intro settles
    obtain ⟨fuel, ends⟩ := fetches_of_settles free settles
    have result : tokeniseFetch fuel s = .ok (fetched s, (fetched s).length) := ends fuel (Nat.le_refl _)
    exact ⟨fuel, by rw [result]; simp⟩

theorem fetch_terminates_iff_lone_backslash :
    (∃ fuel, tokeniseFetch fuel "ls \\ |".toList ≠ .error .fuel) ↔ Settles "ls \\ |".toList :=
  fetch_terminates_iff (by decide)

theorem fetch_hangs_on_escaped_letter :
    NulFree "\\a".toList ∧ ¬ ∃ fuel, tokeniseFetch fuel "\\a".toList ≠ .error .fuel := by
  refine ⟨by decide, ?_⟩
  intro ⟨fuel, done⟩
  exact done (fetch_hangs (by decide) (by decide +kernel) fuel)

/-- The tokens of a line come apart at white space, at an operator and around a quoted text, and the
    quoted text shows in its own token only. -/
theorem fetch_compositional {p s : Str} (freeP : NulFree p) (freeS : NulFree s)
    (plainP : NoEscape p) (plainS : NoEscape s) (closed : ending p ≠ .inQuote) :
    ∃ before behind, Fetches p before ∧ Fetches s behind ∧
      (∀ w, isspace w = true → Fetches (p ++ w :: s) (before ++ behind)) ∧
      (∀ c type, operatorType c = some type →
        Fetches (p ++ c :: s) (before ++ ⟨[c], type⟩ :: behind)) ∧
      (ending p = .between → ∀ q text, isQuote q = true → NulFree text → q ∉ text →
        Fetches (p ++ q :: (text ++ q :: s)) (before ++ ⟨text, .arg⟩ :: behind) ∧
        ∀ text', NulFree text' → q ∉ text' →
          Fetches (p ++ q :: (text' ++ q :: s))
            ((before ++ ⟨text, .arg⟩ :: behind).set before.length ⟨text', .arg⟩)) := by
  have quoted : ending p = .between → ∀ q text, isQuote q = true → NulFree text → q ∉ text →
      Fetches (p ++ q :: (text ++ q :: s)) (grammar p ++ ⟨text, .arg⟩ :: grammar s) := by
    intro between q text quote freeText outside
    have joins : Joins p (q :: (text ++ q :: s)) := .inl between
    have present : q ≠ NUL := by rcases isQuote_cases quote with rfl | rfl <;> decide
    have free : NulFree (p ++ q :: (text ++ q :: s)) := by simp [freeP, freeS, freeText, present]
    have plain := (noEscape_append joins).mpr ((noEscape_quoted quote outside s).mpr plainS)
    rw [← grammar_quoted quote outside, ← grammar_append joins]
    exact fetches_of_noEscape free plain
  refine ⟨grammar p, grammar s, fetches_of_noEscape freeP plainP, fetches_of_noEscape freeS plainS, ?_, ?_, ?_⟩
  · intro w white
    have joins := joins_of_stops plainP closed (stops_cons (wordChar_space white) : Stops (w :: s))
    have free : NulFree (p ++ w :: s) := by simp [freeP, freeS, ne_NUL_of_isspace white]
    have plain := (noEscape_append joins).mpr ((noEscape_space white s).mpr plainS)
    rw [← grammar_space white s, ← grammar_append joins]
    exact fetches_of_noEscape free plain
  · intro c type op
    have joins := joins_of_stops plainP closed (stops_cons (wordChar_operator op) : Stops (c :: s))
    have present : c ≠ NUL := by rcases operator_cases op with h | h | h | h | h <;> rw [h.1] <;> decide
    have free : NulFree (p ++ c :: s) := by simp [freeP, freeS, present]
    have plain := (noEscape_append joins).mpr ((noEscape_operator op s).mpr plainS)
    rw [← grammar_operator op, ← grammar_append joins]
    exact fetches_of_noEscape free plain
  · intro between q text quote freeText outside
    refine ⟨quoted between q text quote freeText outside, fun text' freeText' outside' => ?_⟩
    simpa using quoted between q text' quote freeText' outside'

theorem fetch_compositional_ls_wc :
    ∃ before behind, Fetches "ls|".toList before ∧ Fetches "wc".toList behind ∧
      (∀ w, isspace w = true → Fetches ("ls|".toList ++ w :: "wc".toList) (before ++ behind)) ∧
      (∀ c type, operatorType c = some type →
        Fetches ("ls|".toList ++ c :: "wc".toList) (before ++ ⟨[c], type⟩ :: behind)) ∧
      (ending "ls|".toList = .between → ∀ q text, isQuote q = true → NulFree text → q ∉ text →
        Fetches ("ls|".toList ++ q :: (text ++ q :: "wc".toList)) (before ++ ⟨text, .arg⟩ :: behind) ∧
        ∀ text', NulFree text' → q ∉ text' →
          Fetches ("ls|".toList ++ q :: (text' ++ q :: "wc".toList))
            ((before ++ ⟨text, .arg⟩ :: behind).set before.length ⟨text', .arg⟩)) :=
  fetch_compositional (by decide) (by decide) (by decide +kernel) (by decide +kernel) (by decide +kernel)

end OS2.Tokenise
