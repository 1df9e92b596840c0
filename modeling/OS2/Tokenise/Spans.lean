import OS2.Tokenise.Scan

namespace OS2.Tokenise

open OS2.Text OS2.Loop

structure Span where
  start : Nat
  stop : Nat
  deriving DecidableEq, Repr

def Span.text (src : Str) (span : Span) : Str := (src.drop span.start).take (span.stop - span.start)

def sliced (s t : Scanner) : List Span :=
  (t.tokens.drop s.tokens.length).map fun token => ⟨s.sp.getD 0, s.sp.getD 0 + token.value.length⟩

/-- The states of the scanner behind any number of passages, with the spans of their tokens. -/
inductive Traced (src : Str) : Scanner → List Span → Prop where
  | init : Traced src .init []
  | next (s t : Scanner) (spans : List Span) (trace : Traced src s spans) (step : Step src s t) :
      Traced src t (spans ++ sliced s t)

def Scanner.word (s : Scanner) : Nat := if s.state = .start then s.cp else s.sp.getD 0

def State.quote : State → Option Char
  | .dquote => some '"'
  | .squote => some '\''
  | _ => none

def Encloses (src : Str) (span : Span) (i : Nat) : Prop :=
  isQuote (charAt src i) = true ∧
    ∃ j, span.start = j + 1 ∧ charAt src j = charAt src i ∧ (i = j ∨ i = span.stop)

/-- A byte that belongs to no token: white space, a quote around a token or in front of the one being
    scanned, or the backslash that `ep` points to. -/
def Separates (src : Str) (s : Scanner) (spans : List Span) (i : Nat) : Prop :=
  isspace (charAt src i) = true ∨ (∃ span ∈ spans, Encloses src span i) ∨
    (s.state.quote = some (charAt src i) ∧ s.sp = some (i + 1)) ∨ (s.ep = some i ∧ charAt src i = '\\')

/-- The pointers are in the string and in order, and a passage can rely on what they point to. -/
structure Pointers (src : Str) (s : Scanner) : Prop where
  cursor : s.cp ≤ src.length
  slice : s.state ≠ .start → ∃ i, s.sp = some i ∧ i ≤ s.cp
  quote : ∀ q, s.state.quote = some q → ∃ i, s.sp = some (i + 1) ∧ charAt src i = q
  token : s.state = .token → s.word < s.cp
  special : s.state = .special → s.word + 1 = s.cp ∧ special (charAt src s.word) = true

structure Sound (src : Str) (s : Scanner) (spans : List Span) : Prop where
  pointers : Pointers src s
  values : s.tokens.map Token.value = spans.map (Span.text src)
  ordered : spans.Pairwise fun a b => a.stop ≤ b.start
  behind : ∀ span ∈ spans, span.start ≤ span.stop ∧ span.stop ≤ s.word
  covered : ∀ i, i < s.word → (∃ span ∈ spans, span.start ≤ i ∧ i < span.stop) ∨ Separates src s spans i

theorem pointers_start {src : Str} {s : Scanner} (between : s.state = .start) (cursor : s.cp ≤ src.length) :
    Pointers src s := by
  constructor <;> simp [between, cursor, State.quote]

theorem sound_init (src : Str) : Sound src .init [] :=
  ⟨pointers_start rfl (Nat.zero_le _), rfl, .nil, by simp, by simp [Scanner.init, Scanner.word]⟩

variable {src : Str} {s t : Scanner} {spans : List Span}

theorem isQuote_of_quote {state : State} {c : Char} (quote : state.quote = some c) : isQuote c = true := by
  cases state <;> cases quote <;> rfl

theorem sliced_same (same : t.tokens = s.tokens) : spans ++ sliced s t = spans := by
  simp [sliced, same]

theorem Pointers.word_le (pointers : Pointers src s) : s.word ≤ s.cp := by
  unfold Scanner.word
  split
  · exact Nat.le_refl _
  · obtain ⟨i, begun, bound⟩ := pointers.slice (by assumption)
    rw [begun]
    exact bound

theorem Sound.extend (sound : Sound src s spans) (pointers : Pointers src t) (tokens : t.tokens = s.tokens)
    (kept : ∀ i, Separates src s spans i → Separates src t spans i) (grows : s.word ≤ t.word)
    (left : ∀ i, s.word ≤ i → i < t.word → Separates src t spans i) : Sound src t (spans ++ sliced s t) := by
  rw [sliced_same tokens]
  refine ⟨pointers, by rw [tokens]; exact sound.values, sound.ordered, ?_, ?_⟩
  · intro span member
    have before := sound.behind span member
    omega
  · intro i bound
    by_cases new : s.word ≤ i
    · exact .inr (left i new bound)
    · exact (sound.covered i (by omega)).imp id (kept i)

def Scanner.closed (src : Str) (s : Scanner) (i cp : Nat) (type : TType) : Scanner :=
  { s with
    cp := cp
    state := .start
    tokens := s.tokens ++ [⟨(src.drop i).take (s.cp - i), type⟩]
    count := s.count + 1 }

theorem Sound.close (sound : Sound src s spans) {i cp : Nat} {type : TType} (inside : s.state ≠ .start)
    (begun : s.sp = some i) (within : cp ≤ src.length) (skips : cp = s.cp ∨ cp = s.cp + 1 ∧
      (isspace (charAt src s.cp) = true ∨ s.state.quote = some (charAt src s.cp)))
    (shape : t = s.closed src i cp type) :
    Sound src t (spans ++ sliced s t) := by
  have word : s.word = i := by rw [Scanner.word, if_neg inside, begun]; rfl
  have bound : i ≤ s.cp := word ▸ sound.pointers.word_le
  have cursor := sound.pointers.cursor
  have cut : sliced s t = [⟨i, s.cp⟩] := by
    subst shape
    simp only [sliced, Scanner.closed, List.drop_left, List.map_singleton, begun, Option.getD_some, List.length_take,
      List.length_drop, List.cons.injEq, Span.mk.injEq, true_and, and_true]
    omega
  have after : t.word = cp := by subst shape; exact if_pos rfl
  rw [cut]
  refine ⟨?_, ?_, ?_, ?_, ?_⟩
  · subst shape
    exact pointers_start rfl within
  · subst shape
    simp [Scanner.closed, sound.values, Span.text]
  · rw [List.pairwise_append]
    refine ⟨sound.ordered, List.pairwise_singleton _ _, fun span member last only => ?_⟩
    obtain rfl := List.mem_singleton.mp only
    have before := (sound.behind span member).2
    rwa [word] at before
  · intro span member
    rcases List.mem_append.mp member with old | new
    · have before := sound.behind span old
      omega
    · obtain rfl := List.mem_singleton.mp new
      rw [after]
      exact ⟨bound, by show s.cp ≤ cp; omega⟩
  · intro j below
    rw [after] at below
    by_cases old : j < i
    · rcases sound.covered j (by omega) with ⟨span, member, within⟩ | white | enclosed | opening | escape
      · exact .inl ⟨span, List.mem_append_left _ member, within⟩
      · exact .inr (.inl white)
      · obtain ⟨span, member, encloses⟩ := enclosed
        exact .inr (.inr (.inl ⟨span, List.mem_append_left _ member, encloses⟩))
      · have front : i = j + 1 := Option.some.inj (begun.symm.trans opening.2)
        exact .inr (.inr (.inl ⟨⟨i, s.cp⟩, by simp, isQuote_of_quote opening.1, j, front, rfl, .inl rfl⟩))
      · subst shape
        exact .inr (.inr (.inr (.inr escape)))
    by_cases mid : j < s.cp
    · exact .inl ⟨⟨i, s.cp⟩, by simp, by simp only; omega⟩
    · have here : j = s.cp := by omega
      subst here
      rcases skips.resolve_left (by omega) with ⟨_, white | closing⟩
      · exact .inr (.inl white)
      · obtain ⟨k, front, same⟩ := sound.pointers.quote _ closing
        have start : i = k + 1 := Option.some.inj (begun.symm.trans front)
        exact .inr (.inr (.inl ⟨⟨i, s.cp⟩, by simp, isQuote_of_quote closing, k, start, same, .inr rfl⟩))

theorem lt_length_of_charAt {i : Nat} (present : charAt src i ≠ NUL) : i < src.length := by
  by_contra outside
  exact present (by simp [charAt, List.getElem?_eq_none (Nat.le_of_not_lt outside)])

theorem Sound.between (sound : Sound src s spans) (between : s.state = .start) (pointers : Pointers src t)
    (tokens : t.tokens = s.tokens) (escaped : ∀ i, s.ep = some i → t.ep = some i)
    (word : t.word = s.cp ∨ t.word = s.cp + 1 ∧ Separates src t spans s.cp) :
    Sound src t (spans ++ sliced s t) := by
  have start : s.word = s.cp := if_pos between
  apply sound.extend pointers tokens
  · intro i separates
    rcases separates with white | enclosed | ⟨quote, _⟩ | ⟨escape, backslash⟩
    · exact .inl white
    · exact .inr (.inl enclosed)
    · rw [between] at quote
      cases quote
    · exact .inr (.inr (.inr ⟨escaped i escape, backslash⟩))
  · omega
  · intro i low high
    have here : i = s.cp := by omega
    subst here
    exact (word.resolve_left (by omega)).2

theorem Sound.opens (sound : Sound src s spans) (between : s.state = .start) (inside : s.cp < src.length)
    {state : State} (quote : state.quote = some (charAt src s.cp))
    (shape : t = { s with cp := s.cp + 1, sp := some (s.cp + 1), state := state }) :
    Sound src t (spans ++ sliced s t) := by
  have other : state ≠ .start ∧ state ≠ .token ∧ state ≠ .special := by
    cases state <;> simp [State.quote] at quote ⊢
  subst shape
  apply sound.between between
  · refine ⟨inside, fun _ => ⟨s.cp + 1, rfl, Nat.le_refl _⟩, ?_, ?_, ?_⟩
    · intro q looks
      exact ⟨s.cp, rfl, Option.some.inj (quote.symm.trans looks)⟩
    · exact fun token => absurd token other.2.1
    · exact fun special => absurd special other.2.2
  · rfl
  · exact fun _ => id
  · exact .inr ⟨if_neg other.1, .inr (.inr (.inl ⟨quote, rfl⟩))⟩

theorem Sound.start (sound : Sound src s spans) (between : s.state = .start) (present : charAt src s.cp ≠ NUL)
    (passed : startCase src s = t) : Sound src t (spans ++ sliced s t) := by
  have inside : s.cp < src.length := lt_length_of_charAt present
  simp only [startCase] at passed
  split at passed
  · subst passed
    apply sound.between between
    · exact pointers_start between inside
    · rfl
    · exact fun _ => id
    · exact .inr ⟨if_pos between, .inl (by assumption)⟩
  split at passed
  · rename_i backslash
    subst passed
    apply sound.between between
    · exact pointers_start between inside
    · rfl
    · intro i escape
      rw [backslash.2] at escape
      cases escape
    · exact .inr ⟨if_pos between, .inr (.inr (.inr ⟨rfl, backslash.1⟩))⟩
  split at passed
  · rename_i quote
    have looks : State.quote .dquote = some (charAt src s.cp) := congrArg some quote.1.symm
    exact sound.opens between inside looks passed.symm
  split at passed
  · rename_i quote
    have looks : State.quote .squote = some (charAt src s.cp) := congrArg some quote.1.symm
    exact sound.opens between inside looks passed.symm
  split at passed
  · rename_i operator
    subst passed
    apply sound.between between
    · constructor <;> simp [Scanner.word, State.quote, operator, Nat.succ_le_of_lt inside]
    · rfl
    · exact fun _ => id
    · exact .inl rfl
  · subst passed
    apply sound.between between
    · constructor <;> simp [Scanner.word, State.quote, Nat.succ_le_of_lt inside]
    · rfl
    · exact fun _ => id
    · exact .inl rfl

theorem Sound.stay (sound : Sound src s spans) (inside : s.state ≠ .start) (other : s.state ≠ .special) :
    Sound src (advance src s) (spans ++ sliced s (advance src s)) := by
  unfold advance
  split
  · rw [sliced_same rfl]
    exact sound
  · rename_i present
    have bound : s.cp < src.length := lt_length_of_charAt present
    have word : Scanner.word { s with cp := s.cp + 1 } = s.word := by simp [Scanner.word, inside]
    apply sound.extend
    · refine ⟨bound, ?_, sound.pointers.quote, ?_, fun special => absurd special other⟩
      · intro _
        obtain ⟨i, begun, before⟩ := sound.pointers.slice inside
        exact ⟨i, begun, Nat.le_succ_of_le before⟩
      · intro token
        rw [word]
        exact Nat.lt_succ_of_lt (sound.pointers.token token)
    · rfl
    · exact fun _ => id
    · exact Nat.le_of_eq word.symm
    · intro i low high
      omega

theorem slice_ok (src : Str) {i : Nat} (begun : s.sp = some i) (bound : i ≤ s.cp) :
    sliceLength s.cp s.sp = .ok (s.cp - i) ∧ strndup src s.sp (s.cp - i) = .ok ((src.drop i).take (s.cp - i)) := by
  simp [sliceLength, strndup, begun, bound]

theorem advance_eq (src : Str) (s : Scanner) :
    advance src s = { s with cp := if charAt src s.cp = NUL then s.cp else s.cp + 1 } := by
  unfold advance
  split <;> rfl

theorem emit_closed {type : TType} (defined : type ≠ .undefined) (i cp : Nat) :
    emit ((src.drop i).take (s.cp - i)) type { s with cp := cp, state := .start } =
      .ok (s.closed src i cp type) := by
  simp [emit, defined, Scanner.closed]

theorem Sound.quoted (sound : Sound src s spans) {q : Char} (quote : s.state.quote = some q) :
    ∃ t, quoteCase q src s = .ok t ∧ Sound src t (spans ++ sliced s t) := by
  have inside : s.state ≠ .start := by
    intro start
    rw [start] at quote
    cases quote
  have other : s.state ≠ .special := by
    intro special
    rw [special] at quote
    cases quote
  obtain ⟨i, begun, bound⟩ := sound.pointers.slice inside
  obtain ⟨length, value⟩ := slice_ok src begun bound
  simp only [quoteCase]
  split
  · rename_i closes
    simp only [length, value, Bind.bind, Except.bind, advance_eq, emit_closed arg_ne_undefined]
    refine ⟨_, rfl, sound.close inside begun ?_ ?_ rfl⟩
    · split
      · exact sound.pointers.cursor
      · exact lt_length_of_charAt (by assumption)
    · split
      · exact .inl rfl
      · rename_i present
        exact .inr ⟨rfl, .inr (by rw [quote, (closes.resolve_right present).1])⟩
  · exact ⟨_, rfl, sound.stay inside other⟩

theorem pushBack_next {cp : Nat} {ep : Option Nat} (free : NulFree src) (cursor : cp ≤ src.length) (moved : 0 < cp)
    (ends : terminal (charAt src cp) ep = true) :
    let back := if special (charAt src cp) = true ∧ cp ≠ 0 then cp - 1 else cp
    let next := if charAt src back = NUL then back else back + 1
    next = cp ∨ next = cp + 1 ∧ cp < src.length ∧ isspace (charAt src cp) = true := by
  intro back next
  by_cases operator : special (charAt src cp) = true
  · have pushed : back = cp - 1 := if_pos ⟨operator, by omega⟩
    have before : charAt src back ≠ NUL := by
      rw [pushed]
      exact free.charAt_ne (by omega)
    have again : next = back + 1 := if_neg before
    omega
  · have stays : back = cp := if_neg fun pushed => operator pushed.1
    by_cases last : charAt src back = NUL
    · have ends : next = back := if_pos last
      omega
    · have skips : next = back + 1 := if_neg last
      rw [stays] at last
      have white : isspace (charAt src cp) = true := by
        simpa [last, operator] using And.left (Bool.and_eq_true_iff.mp ends)
      exact .inr ⟨by omega, lt_length_of_charAt last, white⟩

theorem Sound.token (sound : Sound src s spans) (free : NulFree src) (token : s.state = .token) :
    ∃ t, tokenCase src s = .ok t ∧ Sound src t (spans ++ sliced s t) := by
  have inside : s.state ≠ .start := by simp [token]
  have other : s.state ≠ .special := by simp [token]
  obtain ⟨i, begun, bound⟩ := sound.pointers.slice inside
  obtain ⟨length, value⟩ := slice_ok src begun bound
  have cursor := sound.pointers.cursor
  have first := sound.pointers.token token
  simp only [tokenCase]
  split
  · rename_i ends
    simp only [length, value, Bind.bind, Except.bind, advance_eq, emit_closed arg_ne_undefined]
    have next := pushBack_next free cursor (Nat.zero_lt_of_lt first) ends
    refine ⟨_, rfl, sound.close inside begun ?_ ?_ rfl⟩
    · rcases next with same | ⟨skipped, inside, _⟩
      · rwa [same]
      · rwa [skipped]
    · exact next.imp id fun skip => ⟨skip.1, .inl skip.2.2⟩
  · exact ⟨_, rfl, sound.stay inside other⟩

theorem Sound.operator (sound : Sound src s spans) (special : s.state = .special) :
    ∃ t, specialCase src s = .ok t ∧ Sound src t (spans ++ sliced s t) := by
  have inside : s.state ≠ .start := by simp [special]
  obtain ⟨i, begun, bound⟩ := sound.pointers.slice inside
  have word : s.word = i := by rw [Scanner.word, if_neg inside, begun]; rfl
  obtain ⟨single, operator⟩ := sound.pointers.special special
  rw [word] at single operator
  have value : strndup src s.sp 1 = .ok ((src.drop i).take (s.cp - i)) := by
    rw [← single, Nat.add_sub_cancel_left, begun]
    rfl
  have defined : opType (charAt src (s.sp.getD 0)) ≠ .undefined := by
    rw [special_eq] at operator
    obtain ⟨type, op⟩ := Option.isSome_iff_exists.mp operator
    rw [begun, Option.getD_some, opType_of_operatorType op]
    exact operatorType_ne_undefined op
  have passed : specialCase src s = .ok (s.closed src i s.cp (opType (charAt src (s.sp.getD 0)))) := by
    simp only [specialCase, value, Bind.bind, Except.bind]
    exact emit_closed defined i s.cp
  exact ⟨_, passed, sound.close inside begun sound.pointers.cursor (.inl rfl) rfl⟩

theorem Sound.scan (sound : Sound src s spans) (free : NulFree src) (more : scanning src s = true) :
    ∃ t, scan src s = .ok t ∧ Sound src t (spans ++ sliced s t) := by
  cases state : s.state with
  | start =>
    have present : charAt src s.cp ≠ NUL := by simpa [scanning, state] using more
    exact ⟨_, by simp [Tokenise.scan, state], sound.start state present rfl⟩
  | dquote => simpa [Tokenise.scan, state] using sound.quoted (q := '"') (by rw [state]; rfl)
  | squote => simpa [Tokenise.scan, state] using sound.quoted (q := '\'') (by rw [state]; rfl)
  | token => simpa [Tokenise.scan, state] using sound.token free state
  | special => simpa [Tokenise.scan, state] using sound.operator state

/-- Behind any number of passages, on a run that ends or not: the pointers are in the string and in order,
    the next passage finds its slices and assertions in order, and every byte in front of the token being
    scanned is in the span of one token, or separates tokens. -/
theorem scanner_sound (free : NulFree src) (trace : Traced src s spans) :
    Sound src s spans ∧ (scanning src s = true → ∃ t, Tokenise.scan src s = .ok t) := by
  have sound : Sound src s spans := by
    induction trace with
    | init => exact sound_init src
    | next s t spans trace step ih =>
      obtain ⟨next, passed, sound⟩ := ih.scan free step.1
      obtain rfl : next = t := Except.ok.inj (passed.symm.trans step.2)
      exact sound
  refine ⟨sound, fun more => ?_⟩
  obtain ⟨t, passed, _⟩ := sound.scan free more
  exact ⟨t, passed⟩

theorem scanner_sound_word :
    Sound "a b".toList ⟨2, some 0, none, .start, [⟨['a'], .arg⟩], 1⟩ [⟨0, 1⟩] ∧
      (scanning "a b".toList ⟨2, some 0, none, .start, [⟨['a'], .arg⟩], 1⟩ = true →
        ∃ t, Tokenise.scan "a b".toList ⟨2, some 0, none, .start, [⟨['a'], .arg⟩], 1⟩ = .ok t) := by
  have first : Traced "a b".toList ⟨1, some 0, none, .token, [], 0⟩ [] :=
    .next .init _ [] .init ⟨by decide, by decide⟩
  have second : Traced "a b".toList ⟨2, some 0, none, .start, [⟨['a'], .arg⟩], 1⟩ [⟨0, 1⟩] :=
    .next _ _ [] first ⟨by decide, by decide⟩
  exact scanner_sound (by decide) second

end OS2.Tokenise
