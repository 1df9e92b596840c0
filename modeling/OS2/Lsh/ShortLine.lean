import OS2.Lsh.Assignment

namespace OS2.Lsh

open OS2.Text OS2.Loop OS2.Regex OS2.Symtab OS2.Tokenise

def HasEquals (s : Str) : Prop := ∃ d, isAlnum d = true ∧ [d, '='] <:+: s

theorem hasEquals_of_search {s : Str} (found : assignment.search s = true) : HasEquals s := by
  obtain ⟨before, name, value, isName, rfl⟩ := (search_assignment s).mp found
  have nonempty : name ≠ [] := by
    intro empty
    rw [empty] at isName
    cases isName
  refine ⟨name.getLast nonempty, isName.all _ (List.getLast_mem nonempty), before ++ name.dropLast, value, ?_⟩
  have split := List.dropLast_append_getLast nonempty
  conv_rhs => rw [← split]
  simp

theorem HasEquals.mem {s : Str} (has : HasEquals s) : (∃ d ∈ s, isAlnum d = true) ∧ '=' ∈ s := by
  obtain ⟨d, alnum, inside⟩ := has
  exact ⟨⟨d, inside.subset (by simp), alnum⟩, inside.subset (by simp)⟩

theorem hasEquals_append {x s : Str} (has : HasEquals (x ++ s)) :
    HasEquals x ∨ HasEquals s ∨ (∃ d ∈ x, isAlnum d = true) ∧ s.head? = some '=' := by
  obtain ⟨d, alnum, inside⟩ := has
  rcases List.infix_append_iff_ne_nil.mp inside with inside | inside | ⟨l, m, hl, hm, split, front, behind⟩
  · exact .inl ⟨d, alnum, inside⟩
  · exact .inr (.inl ⟨d, alnum, inside⟩)
  · refine .inr (.inr ?_)
    have single : l.length = 1 := by
      have length := congrArg List.length split
      have := List.length_pos_iff.mpr hl
      have := List.length_pos_iff.mpr hm
      simp only [List.length_cons, List.length_nil, List.length_append] at length
      omega
    obtain ⟨a, rfl⟩ := List.length_eq_one_iff.mp single
    obtain ⟨rfl, rfl⟩ : d = a ∧ ['='] = m := by simpa using split
    obtain ⟨rest, rfl⟩ := behind
    exact ⟨⟨d, front.subset (by simp), alnum⟩, rfl⟩

theorem hasEquals_of_other {x s : Str} (other : ∀ c ∈ x, isAlnum c = false) (has : HasEquals (x ++ s)) :
    HasEquals s := by
  have none : ¬ ∃ d ∈ x, isAlnum d = true := by
    intro ⟨d, member, alnum⟩
    rw [other d member] at alnum
    cases alnum
  rcases hasEquals_append has with inside | behind | ⟨inside, _⟩
  · exact absurd inside.mem.1 none
  · exact behind
  · exact absurd inside none

theorem not_hasEquals_of_separators {s : Str} (separators : ∀ c ∈ s, wordChar c = false) :
    ¬ HasEquals s := by
  intro has
  obtain ⟨d, member, alnum⟩ := has.mem.1
  have word := wordChar_of_isAlnum alnum
  rw [separators d member] at word
  cases word

theorem noItem_chars {s : Str} (none : NoItem s) : ∀ c ∈ s, isspace c = true ∨ c = '\\' := by
  intro c member
  rcases none with blank | ⟨gap, behind, blank, blank', rfl⟩
  · exact .inl (blank c member)
  · rcases List.mem_append.mp member with member | member
    · exact .inl (blank c member)
    · rcases List.mem_cons.mp member with rfl | member
      · exact .inr rfl
      · exact .inl (blank' c member)

theorem noItem_no_equals {s : Str} (none : NoItem s) : '=' ∉ s := by
  intro member
  exact absurd (noItem_chars none '=' member) (by decide)

/-- On a line on which the tokeniser returns, an equals sign behind a name stands in or behind the
    first item. -/
theorem item_of_hasEquals {s : Str} (settles : Settles s) (has : HasEquals s) :
    ∃ gap x rest, Blank gap ∧ Item x rest ∧ s = gap ++ (x ++ rest) ∧ HasEquals (x ++ rest) := by
  rcases line_cases s with blank | ⟨gap, cs, blank, rfl⟩ | ⟨gap, x, rest, blank, item, rfl⟩
  · exact absurd has.mem.2 (noItem_no_equals (.inl blank))
  · rw [settles_blank blank, settles_escape] at settles
    have inside := hasEquals_of_other (fun c member => isAlnum_isspace (blank c member)) has
    have behind := hasEquals_of_other (x := ['\\']) (List.forall_mem_singleton.mpr (by decide)) inside
    exact absurd behind (not_hasEquals_of_separators settles)
  · exact ⟨gap, x, rest, blank, item, rfl,
      hasEquals_of_other (fun c member => isAlnum_isspace (blank c member)) has⟩

theorem item_hasEquals_cases {x rest : Str} (item : Item x rest) (has : HasEquals (x ++ rest)) :
    QuotedItem x rest ∨ BareWord x ∧ rest.head? = some '=' ∨ HasEquals rest := by
  cases item with
  | quoted _ _ item => exact .inl item
  | operator c type _ op =>
    exact .inr (.inr (hasEquals_of_other (by simpa using isAlnum_operator op) has))
  | word w _ bare stop =>
    rcases hasEquals_append has with inside | behind | ⟨_, head⟩
    · have equals : wordChar '=' = true := bare.all _ inside.mem.2
      exact absurd equals (by decide)
    · exact .inr (.inr behind)
    · exact .inr (.inl ⟨bare, head⟩)

def AtMostOneItem (s : Str) : Prop :=
  NoItem s ∨
  (∃ gap x rest, Blank gap ∧ Item x rest ∧ NoItem rest ∧ s = gap ++ (x ++ rest)) ∨
  ∃ gap gap' c type rest, Blank gap ∧ Blank gap' ∧ operatorType c = some type ∧ Blank rest ∧
    s = gap ++ '\\' :: (gap' ++ c :: rest)

theorem one_separator {s : Str} (separators : ∀ c ∈ s, wordChar c = false) (few : (grammar s).length ≤ 1) :
    Blank s ∨ ∃ gap c type rest, Blank gap ∧ operatorType c = some type ∧ Blank rest ∧ s = gap ++ c :: rest := by
  induction s with
  | nil => exact .inl (by simp [Blank])
  | cons c cs ih =>
    obtain ⟨stop, later⟩ := List.forall_mem_cons.mp separators
    rcases not_wordChar_cases stop with white | ⟨type, op⟩
    · rw [grammar_space white] at few
      rcases ih later few with blank | ⟨gap, d, type, rest, blank, op, blank', rfl⟩
      · exact .inl (List.forall_mem_cons.mpr ⟨white, blank⟩)
      · exact .inr ⟨c :: gap, d, type, rest, List.forall_mem_cons.mpr ⟨white, blank⟩, op, blank', rfl⟩
    · rw [grammar_operator op, List.length_cons] at few
      have none : grammar cs = [] := List.length_eq_zero_iff.mp (by omega)
      exact .inr ⟨[], c, type, cs, by simp [Blank], op, blank_of_separators later none, rfl⟩

theorem atMostOneItem_iff {s : Str} (settles : Settles s) :
    (fetched s).length ≤ 1 ↔ AtMostOneItem s := by
  constructor
  · intro few
    rcases line_cases s with blank | ⟨gap, cs, blank, rfl⟩ | ⟨gap, x, rest, blank, item, rfl⟩
    · exact .inl (.inl blank)
    · rw [fetched_blank blank, fetched_escape] at few
      rw [settles_blank blank, settles_escape] at settles
      rcases one_separator settles few with blank' | ⟨gap', c, type, rest, blank', op, blank'', rfl⟩
      · exact .inl (.inr ⟨gap, cs, blank, blank', rfl⟩)
      · exact .inr (.inr ⟨gap, gap', c, type, rest, blank, blank', op, blank'', rfl⟩)
    · obtain ⟨t, tokens⟩ := fetched_item item
      rw [fetched_blank blank, tokens, List.length_cons] at few
      rw [settles_blank blank, settles_item item] at settles
      have none : fetched rest = [] := List.length_eq_zero_iff.mp (by omega)
      exact .inr (.inl ⟨gap, x, rest, blank, item, noItem_of_fetched settles none, rfl⟩)
  · intro few
    rcases few with
      none | ⟨gap, x, rest, blank, item, none, rfl⟩ | ⟨gap, gap', c, type, rest, blank, blank', op, blank'', rfl⟩
    · simp [fetched_noItem none]
    · obtain ⟨t, tokens⟩ := fetched_item item
      rw [fetched_blank blank, tokens, fetched_noItem none]
      simp
    · rw [fetched_blank blank, fetched_escape, (grammar_blank blank' _).1, grammar_operator op,
        grammar_of_blank blank'']
      simp

/-- The lines too short for a variable setting: a word with an equals sign and nothing behind it; a
    quoted item with at most one item behind it; an item, a quoted item and nothing behind them. -/
def ShortLine (s : Str) : Prop :=
  (∃ w rest, BareWord w ∧ NoItem rest ∧ s = w ++ '=' :: rest) ∨
  (∃ x rest, QuotedItem x rest ∧ AtMostOneItem rest ∧ s = x ++ rest) ∨
  ∃ x gap y rest, Item x (gap ++ (y ++ rest)) ∧ Blank gap ∧ QuotedItem y rest ∧ NoItem rest ∧
    s = x ++ (gap ++ (y ++ rest))

theorem shortLine_of_fetched {s : Str} (trimmed : Trimmed s) (settles : Settles s) (has : HasEquals s)
    (few : (fetched s).length ≤ 2) : ShortLine s := by
  obtain ⟨gap, x, rest, blank, item, rfl, hasItem⟩ := item_of_hasEquals settles has
  cases gap with
  | cons c gap =>
    have black := trimmed.1 c rfl
    rw [blank c (by simp)] at black
    cases black
  | nil =>
    rw [List.nil_append] at settles few ⊢
    obtain ⟨t, tokens⟩ := fetched_item item
    rw [tokens, List.length_cons] at few
    rw [settles_item item] at settles
    rcases item_hasEquals_cases item hasItem with quoted | ⟨bare, head⟩ | behind
    · exact .inr (.inl ⟨x, rest, quoted, (atMostOneItem_iff settles).mp (by omega), rfl⟩)
    · obtain ⟨value, rfl⟩ := List.head?_eq_some_iff.mp head
      rw [fetched_operator operatorType_equals, List.length_cons] at few
      have none : fetched value = [] := List.length_eq_zero_iff.mp (by omega)
      have settled := (settles_item (.operator _ _ value operatorType_equals)).mp settles
      exact .inl ⟨x, value, bare, noItem_of_fetched settled none, rfl⟩
    · obtain ⟨gap, y, rest, blank, second, rfl, hasSecond⟩ := item_of_hasEquals settles behind
      obtain ⟨u, tokens⟩ := fetched_item second
      rw [fetched_blank blank, tokens, List.length_cons] at few
      rw [settles_blank blank, settles_item second] at settles
      have none := noItem_of_fetched settles (List.length_eq_zero_iff.mp (by omega))
      rcases item_hasEquals_cases second hasSecond with quoted | ⟨_, head⟩ | behind
      · exact .inr (.inr ⟨x, gap, y, rest, item, blank, quoted, none, rfl⟩)
      · exact absurd (List.mem_of_mem_head? head) (noItem_no_equals none)
      · exact absurd behind.mem.2 (noItem_no_equals none)

theorem fetched_of_shortLine {s : Str} (settles : Settles s) (short : ShortLine s) :
    (fetched s).length ≤ 2 := by
  rcases short with ⟨w, rest, bare, none, rfl⟩ | ⟨x, rest, quoted, few, rfl⟩ |
    ⟨x, gap, y, rest, item, blank, quoted, none, rfl⟩
  · rw [fetched_word bare (stops_equals rest), fetched_operator operatorType_equals, fetched_noItem none]
    simp
  · have item : Item x rest := .quoted _ _ quoted
    obtain ⟨t, tokens⟩ := fetched_item item
    have later := (atMostOneItem_iff ((settles_item item).mp settles)).mpr few
    rw [tokens, List.length_cons]
    omega
  · obtain ⟨t, tokens⟩ := fetched_item item
    obtain ⟨u, tokens'⟩ := fetched_item (.quoted _ _ quoted)
    rw [tokens, fetched_blank blank, tokens', fetched_noItem none]
    simp

/-- The tokens that `parse` reads for a variable setting are there exactly on the lines that are not
    too short. -/
theorem assignment_tokens_iff {s : Str} {tokens : List Token} (free : NulFree s) (trimmed : Trimmed s)
    (found : assignment.search s = true) (returns : Fetches s tokens) :
    3 ≤ tokens.length ↔ ¬ ShortLine s := by
  obtain ⟨least, result⟩ := returns
  obtain ⟨settles, same⟩ := fetched_of_tokeniseFetch free (result least (Nat.le_refl _))
  obtain rfl : tokens = fetched s := congrArg Prod.fst same
  constructor
  · intro enough short
    have few := fetched_of_shortLine settles short
    omega
  · intro long
    by_contra few
    exact long (shortLine_of_fetched trimmed settles (hasEquals_of_search found) (by omega))

theorem assignment_tokens_iff_setting :
    3 ≤ (fetched "PS1=\"% \"".toList).length ↔ ¬ ShortLine "PS1=\"% \"".toList :=
  assignment_tokens_iff (by decide) (by decide) (by decide)
    (fetches_of_settles (by decide) (by decide +kernel))

theorem parse_reads_behind_tokens :
    NulFree "a=".toList ∧ Trimmed "a=".toList ∧ assignment.search "a=".toList = true ∧
      ∃ tokens, Fetches "a=".toList tokens ∧ ¬ 3 ≤ tokens.length ∧
        parse 60 NUL init "a=".toList = .error (.fault .tokenRange) := by
  refine ⟨by decide, by decide, by decide, fetched "a=".toList, ?_, by decide +kernel, by decide⟩
  exact fetches_of_settles (by decide) (by decide +kernel)

end OS2.Lsh
