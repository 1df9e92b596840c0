import OS2.Tokenise.Items

namespace OS2.Tokenise

open OS2.Text OS2.Loop

def Renderable (t : Token) : Prop :=
  (t.type = .arg ∧ NulFree t.value ∧ ('"' ∉ t.value ∨ '\'' ∉ t.value ∨ BareWord t.value)) ∨
    ∃ c, t.value = [c] ∧ operatorType c = some t.type

def renderToken (t : Token) : Str :=
  if t.type = .arg then
    if '"' ∉ t.value then '"' :: (t.value ++ ['"'])
    else if '\'' ∉ t.value then '\'' :: (t.value ++ ['\''])
    else t.value
  else t.value

/-- A command line for a list of tokens: one space between them, each argument quoted as it can be. -/
def render : List Token → Str
  | [] => []
  | [t] => renderToken t
  | t :: u :: ts => renderToken t ++ ' ' :: render (u :: ts)

structure ReadsBack (text : Str) (t : Token) : Prop where
  free : NulFree text
  tokens : grammar text = [t]
  plain : NoEscape text
  closed : ending text ≠ .inQuote

theorem readsBack_quoted {q : Char} {value : Str} (quote : isQuote q = true) (outside : q ∉ value)
    (free : NulFree value) : ReadsBack (q :: (value ++ [q])) ⟨value, .arg⟩ := by
  have present : q ≠ NUL := by rcases isQuote_cases quote with rfl | rfl <;> decide
  refine ⟨by simp [free, present], by rw [grammar_quoted quote outside, grammar_nil],
    (noEscape_quoted quote outside []).mpr (by simp [NoEscape]), ?_⟩
  rw [ending_token (quote_black quote).1 (quote_black quote).2, nextToken_closed quote outside]
  simp [quote_starts_no_word quote]

theorem readsBack_bare {value : Str} (bare : BareWord value) (free : NulFree value) :
    ReadsBack value ⟨value, .arg⟩ := by
  obtain ⟨c, cs, rfl, starts, inside⟩ := bare
  have next := nextToken_run starts inside stops_nil
  rw [List.append_nil] at next
  have black := word_black starts
  refine ⟨free, by rw [grammar_token black.1 black.2, next, grammar_nil], ?_, ?_⟩
  · rw [noEscape_iff, escaped_token black.1 black.2, next, ending_nil]
    rfl
  · rw [ending_token black.1 black.2, next]
    simp only [word_no_quote starts, Bool.false_eq_true, false_and, if_false]
    split <;> simp

theorem readsBack_operator {c : Char} {type : TType} (op : operatorType c = some type) :
    ReadsBack [c] ⟨[c], type⟩ := by
  have present : c ≠ NUL := by rcases operator_cases op with h | h | h | h | h <;> rw [h.1] <;> decide
  have noWord : startsWord c = false := by simp [startsWord, wordChar_operator op]
  refine ⟨by simp [present], by rw [grammar_operator op, grammar_nil],
    (noEscape_operator op []).mpr (by simp [NoEscape]), ?_⟩
  rw [ending_token (operator_black op).1 (operator_black op).2, nextToken_operator op]
  simp [isQuote_of_operatorType op, noWord]

theorem readsBack_renderToken {t : Token} (renderable : Renderable t) : ReadsBack (renderToken t) t := by
  obtain ⟨value, type⟩ := t
  unfold renderToken
  rcases renderable with ⟨arg, free, lacks⟩ | ⟨c, shape, op⟩
  · obtain rfl : type = .arg := arg
    simp only [if_true]
    split
    · exact readsBack_quoted (by decide) ‹_› free
    · split
      · exact readsBack_quoted (by decide) ‹_› free
      · have bare : BareWord value := by simp_all
        exact readsBack_bare bare free
  · obtain rfl : value = [c] := shape
    rw [if_neg (operatorType_ne_arg op)]
    exact readsBack_operator op

theorem grammar_render {ts : List Token} (renderable : ∀ t ∈ ts, Renderable t) :
    NulFree (render ts) ∧ NoEscape (render ts) ∧ grammar (render ts) = ts := by
  induction ts with
  | nil => simp [render, NoEscape]
  | cons t ts ih =>
    have head := readsBack_renderToken (renderable t (by simp))
    have tail := ih fun u member => renderable u (List.mem_cons_of_mem _ member)
    cases ts with
    | nil => exact ⟨head.free, head.plain, head.tokens⟩
    | cons u ts =>
      have space : isspace ' ' = true := by decide
      have joins := joins_of_stops head.plain head.closed
        (stops_cons (wordChar_space space) : Stops (' ' :: render (u :: ts)))
      refine ⟨?_, ?_, ?_⟩
      · simp [render, head.free, tail.1, NUL]
      · exact (noEscape_append joins).mpr ((noEscape_space space _).mpr tail.2.1)
      · rw [render, grammar_append joins, grammar_space space, head.tokens, tail.2.2, List.singleton_append]

theorem renderable_nextToken {c : Char} {cs : Str} (black : isspace c = false) (plain : c ≠ '\\')
    (free : NulFree (c :: cs)) : Renderable (nextToken c cs).1 := by
  rw [nulFree_cons] at free
  rcases token_start_cases black plain with quote | ⟨type, op⟩ | word
  · rw [nextToken_quote quote]
    have outside : c ∉ cs.takeWhile (· != c) := fun member => by
      simpa using List.mem_takeWhile_imp member
    have freeText : NulFree (cs.takeWhile (· != c)) := fun member => free.2 ((List.takeWhile_prefix _).subset member)
    refine .inl ⟨rfl, freeText, ?_⟩
    rcases isQuote_cases quote with rfl | rfl
    · exact .inl outside
    · exact .inr (.inl outside)
  · rw [nextToken_operator op]
    exact .inr ⟨c, rfl, op⟩
  · rw [nextToken_word word]
    have freeText : NulFree (cs.takeWhile wordChar) := fun member => free.2 ((List.takeWhile_prefix _).subset member)
    refine .inl ⟨rfl, by simp [free.1, freeText], .inr (.inr ?_)⟩
    exact ⟨c, cs.takeWhile wordChar, rfl, word, fun d => List.mem_takeWhile_imp⟩

theorem renderable_grammar {s : Str} (free : NulFree s) : ∀ t ∈ grammar s, Renderable t := by
  induction s using token_induction with
  | nil => simp
  | space c cs white ih =>
    rw [grammar_space white]
    exact ih (nulFree_cons.mp free).2
  | escape cs => simp
  | token c cs black plain ih =>
    rw [grammar_token black plain]
    intro t member
    rcases List.mem_cons.mp member with rfl | member
    · exact renderable_nextToken black plain free
    · exact ih (fun inside => (nulFree_cons.mp free).2 (mem_of_mem_nextToken inside)) t member

/-- `tokenise_fetch` inverts `render`, and `render` writes every list that `tokenise_fetch` returns
    on a line without a backslash at a token start. -/
theorem fetch_render_round_trip :
    (∀ ts : List Token, (∀ t ∈ ts, Renderable t) → Fetches (render ts) ts) ∧
    (∀ s : Str, NulFree s → NoEscape s →
      ∃ ts, Fetches s ts ∧ (∀ t ∈ ts, Renderable t) ∧ Fetches (render ts) ts) := by
  have back : ∀ ts : List Token, (∀ t ∈ ts, Renderable t) → Fetches (render ts) ts := by
    intro ts renderable
    obtain ⟨free, plain, tokens⟩ := grammar_render renderable
    have fetches := fetches_of_noEscape free plain
    rwa [tokens] at fetches
  refine ⟨back, fun s free plain => ?_⟩
  have renderable := renderable_grammar free
  exact ⟨grammar s, fetches_of_noEscape free plain, renderable, back _ renderable⟩

theorem fetch_render_round_trip_both_quotes :
    Fetches "a\"'b 'it\"s'".toList [⟨"a\"'b".toList, .arg⟩, ⟨"it\"s".toList, .arg⟩] := by
  refine fetch_render_round_trip.1 [⟨"a\"'b".toList, .arg⟩, ⟨"it\"s".toList, .arg⟩] ?_
  intro t member
  simp only [List.mem_cons, List.not_mem_nil, or_false] at member
  rcases member with rfl | rfl
  · exact .inl ⟨rfl, by decide, .inr (.inr ⟨'a', "\"'b".toList, rfl, by decide, List.all_eq_true.mp (by decide)⟩)⟩
  · exact .inl ⟨rfl, by decide, .inr (.inl (by decide))⟩

end OS2.Tokenise
