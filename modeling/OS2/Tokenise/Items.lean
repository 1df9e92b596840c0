import OS2.Tokenise.Compose

namespace OS2.Tokenise

open OS2.Text OS2.Loop

def BareWord (v : Str) : Prop := ∃ c cs, v = c :: cs ∧ startsWord c = true ∧ ∀ d ∈ cs, wordChar d = true

/-- A quoted item in front of a text. Without its closing quote it is the end of the line. -/
inductive QuotedItem : Str → Str → Prop where
  | closed (q : Char) (text rest : Str) (quote : isQuote q = true) (outside : q ∉ text) :
      QuotedItem (q :: (text ++ [q])) rest
  | unclosed (q : Char) (text : Str) (quote : isQuote q = true) (outside : q ∉ text) :
      QuotedItem (q :: text) []

inductive Item : Str → Str → Prop where
  | quoted (x rest : Str) (item : QuotedItem x rest) : Item x rest
  | operator (c : Char) (type : TType) (rest : Str) (op : operatorType c = some type) : Item [c] rest
  | word (w rest : Str) (bare : BareWord w) (stop : Stops rest) : Item w rest

def NoItem (s : Str) : Prop :=
  Blank s ∨ ∃ gap behind, Blank gap ∧ Blank behind ∧ s = gap ++ '\\' :: behind

theorem BareWord.all {v : Str} (bare : BareWord v) : ∀ c ∈ v, wordChar c = true := by
  obtain ⟨c, cs, rfl, starts, inside⟩ := bare
  simp only [startsWord, Bool.and_eq_true] at starts
  exact List.forall_mem_cons.mpr ⟨starts.1.1, inside⟩

theorem Item.next {x rest : Str} (item : Item x rest) :
    ∃ c cs, x ++ rest = c :: cs ∧ isspace c = false ∧ c ≠ '\\' ∧ (nextToken c cs).2 = rest := by
  cases item with
  | quoted _ _ item =>
    cases item with
    | closed q text _ quote outside =>
      have black := quote_black quote
      refine ⟨q, text ++ q :: rest, by simp, black.1, black.2, ?_⟩
      rw [nextToken_closed quote outside]
    | unclosed q text quote outside =>
      have black := quote_black quote
      refine ⟨q, text, by simp, black.1, black.2, ?_⟩
      have inside : ∀ c ∈ text, (c != q) = true :=
        fun c member => bne_iff_ne.mpr fun same => outside (same ▸ member)
      rw [nextToken_quote quote, List.dropWhile_eq_nil_iff.mpr inside]
      rfl
  | operator c type _ op =>
    have black := operator_black op
    exact ⟨c, rest, rfl, black.1, black.2, by rw [nextToken_operator op]⟩
  | word w _ bare stop =>
    obtain ⟨c, cs, rfl, starts, inside⟩ := bare
    have black := word_black starts
    exact ⟨c, cs ++ rest, rfl, black.1, black.2, by rw [nextToken_run starts inside stop]⟩

theorem item_of_token_start {c : Char} {cs : Str} (black : isspace c = false) (plain : c ≠ '\\') :
    ∃ x rest, c :: cs = x ++ rest ∧ Item x rest := by
  rcases token_start_cases black plain with quote | ⟨type, op⟩ | word
  · by_cases member : c ∈ cs
    · obtain ⟨text, rest, rfl, outside⟩ := List.eq_append_cons_of_mem member
      exact ⟨c :: (text ++ [c]), rest, by simp, .quoted _ _ (.closed c text rest quote outside)⟩
    · exact ⟨c :: cs, [], by simp, .quoted _ _ (.unclosed c cs quote member)⟩
  · exact ⟨[c], cs, rfl, .operator c type cs op⟩
  · have inside : ∀ d ∈ cs.takeWhile wordChar, wordChar d = true := fun d => List.mem_takeWhile_imp
    refine ⟨c :: cs.takeWhile wordChar, cs.dropWhile wordChar, ?_,
      .word _ _ ⟨c, _, rfl, word, inside⟩ (stops_dropWhile cs)⟩
    rw [List.cons_append, List.takeWhile_append_dropWhile]

theorem line_cases (s : Str) :
    Blank s ∨ (∃ gap cs, Blank gap ∧ s = gap ++ '\\' :: cs) ∨
      ∃ gap x rest, Blank gap ∧ Item x rest ∧ s = gap ++ (x ++ rest) := by
  have split := List.takeWhile_append_dropWhile (p := isspace) (l := s)
  have gap : Blank (s.takeWhile isspace) := fun c => List.mem_takeWhile_imp
  cases rest : s.dropWhile isspace with
  | nil => exact .inl (List.dropWhile_eq_nil_iff.mp rest)
  | cons c cs =>
    have black := List.head?_dropWhile_not isspace s
    rw [rest] at split black
    rw [← split]
    by_cases plain : c = '\\'
    · subst plain
      exact .inr (.inl ⟨_, cs, gap, rfl⟩)
    · obtain ⟨x, rest, shape, item⟩ := item_of_token_start black plain
      rw [shape]
      exact .inr (.inr ⟨_, x, rest, gap, item, rfl⟩)

theorem fetched_of_escaped {s t : Str} (tokens : grammar s = grammar t)
    (escape : (ending s).escaped = (ending t).escaped) : fetched s = fetched t := by
  rw [fetched, fetched, tokens, escape]

theorem settles_iff {s : Str} :
    Settles s ↔ ∀ rest, (ending s).escaped = some rest → ∀ c ∈ rest, wordChar c = false := by
  simp only [Settles, escaped_eq_some]

theorem settles_of_escaped {s t : Str} (escape : (ending s).escaped = (ending t).escaped) :
    Settles s ↔ Settles t := by
  rw [settles_iff, settles_iff, escape]

theorem grammar_blank {gap : Str} (blank : Blank gap) (s : Str) :
    grammar (gap ++ s) = grammar s ∧ ending (gap ++ s) = ending s := by
  induction gap with
  | nil => exact ⟨rfl, rfl⟩
  | cons c gap ih =>
    obtain ⟨white, later⟩ := List.forall_mem_cons.mp blank
    rw [List.cons_append, grammar_space white, ending_space white]
    exact ih later

theorem fetched_blank {gap : Str} (blank : Blank gap) (s : Str) : fetched (gap ++ s) = fetched s := by
  obtain ⟨tokens, same⟩ := grammar_blank blank s
  exact fetched_of_escaped tokens (by rw [same])

theorem settles_blank {gap : Str} (blank : Blank gap) (s : Str) : Settles (gap ++ s) ↔ Settles s := by
  apply settles_of_escaped
  rw [(grammar_blank blank s).2]

theorem fetched_escape (cs : Str) : fetched ('\\' :: cs) = grammar cs := by
  simp [fetched, Ending.escaped]

theorem settles_escape {cs : Str} : Settles ('\\' :: cs) ↔ ∀ c ∈ cs, wordChar c = false := by
  simp [settles_iff, Ending.escaped]

theorem fetched_token {c : Char} (black : isspace c = false) (plain : c ≠ '\\') (cs : Str) :
    fetched (c :: cs) = (nextToken c cs).1 :: fetched (nextToken c cs).2 := by
  rw [fetched, escaped_token black plain, grammar_token black plain, List.cons_append]
  rfl

theorem settles_token {c : Char} (black : isspace c = false) (plain : c ≠ '\\') (cs : Str) :
    Settles (c :: cs) ↔ Settles (nextToken c cs).2 :=
  settles_of_escaped (escaped_token black plain cs)

theorem fetched_item {x rest : Str} (item : Item x rest) : ∃ t, fetched (x ++ rest) = t :: fetched rest := by
  obtain ⟨c, cs, shape, black, plain, left⟩ := item.next
  exact ⟨(nextToken c cs).1, by rw [shape, fetched_token black plain, left]⟩

theorem settles_item {x rest : Str} (item : Item x rest) : Settles (x ++ rest) ↔ Settles rest := by
  obtain ⟨c, cs, shape, black, plain, left⟩ := item.next
  rw [shape, settles_token black plain, left]

theorem fetched_operator {c : Char} {type : TType} (op : operatorType c = some type) (rest : Str) :
    fetched (c :: rest) = ⟨[c], type⟩ :: fetched rest := by
  rw [fetched_token (operator_black op).1 (operator_black op).2, nextToken_operator op]

theorem fetched_word {w rest : Str} (bare : BareWord w) (stop : Stops rest) :
    fetched (w ++ rest) = ⟨w, .arg⟩ :: fetched rest := by
  obtain ⟨c, cs, rfl, starts, inside⟩ := bare
  have black := word_black starts
  rw [List.cons_append, fetched_token black.1 black.2, nextToken_run starts inside stop]

theorem grammar_of_blank {s : Str} (blank : Blank s) : grammar s = [] := by
  have tokens := (grammar_blank blank []).1
  rwa [List.append_nil, grammar_nil] at tokens

theorem fetched_noItem {s : Str} (none : NoItem s) : fetched s = [] := by
  rcases none with blank | ⟨gap, behind, blank, blank', rfl⟩
  · have tokens := fetched_blank blank []
    rw [List.append_nil] at tokens
    rw [tokens]
    simp [fetched, Ending.escaped]
  · rw [fetched_blank blank, fetched_escape, grammar_of_blank blank']

theorem blank_of_separators {s : Str} (separators : ∀ c ∈ s, wordChar c = false) (none : grammar s = []) :
    Blank s := by
  induction s with
  | nil => simp [Blank]
  | cons c cs ih =>
    obtain ⟨stop, later⟩ := List.forall_mem_cons.mp separators
    rcases not_wordChar_cases stop with white | ⟨type, op⟩
    · rw [grammar_space white] at none
      exact List.forall_mem_cons.mpr ⟨white, ih later none⟩
    · rw [grammar_operator op] at none
      cases none

theorem noItem_of_fetched {s : Str} (settles : Settles s) (none : fetched s = []) : NoItem s := by
  rcases line_cases s with blank | ⟨gap, cs, blank, rfl⟩ | ⟨gap, x, rest, blank, item, rfl⟩
  · exact .inl blank
  · rw [fetched_blank blank, fetched_escape] at none
    rw [settles_blank blank, settles_escape] at settles
    exact .inr ⟨gap, cs, blank, blank_of_separators settles none, rfl⟩
  · obtain ⟨t, tokens⟩ := fetched_item item
    rw [fetched_blank blank, tokens] at none
    cases none

end OS2.Tokenise
