import OS2.Tokenise.Grammar

namespace OS2.Tokenise

open OS2.Text OS2.Loop

abbrev Step (src : Str) : Scanner → Scanner → Prop := Iter (scanning src) (scan src)

abbrev Same (src : Str) : Scanner → Scanner → Prop := SameEnd (scanning src) (scan src)

def scannerAt (state : State) (ep : Option Nat) (cp : Nat) (sp : Option Nat) (tokens : List Token) :
    Scanner :=
  { cp := cp, sp := sp, ep := ep, state := state, tokens := tokens, count := tokens.length }

theorem special_eq (c : Char) : special c = (operatorType c).isSome := by
  cases op : operatorType c with
  | some type => rcases operator_cases op with h | h | h | h | h <;> rw [h.1] <;> rfl
  | none =>
    simp only [operatorType, List.lookup_eq_none_iff, List.mem_cons, forall_eq_or_imp] at op
    simp_all [special, specialChars]

theorem opType_of_operatorType {c : Char} {type : TType} (op : operatorType c = some type) :
    opType c = type := by
  rcases operator_cases op with h | h | h | h | h <;> rw [h.1, h.2] <;> decide

theorem operatorType_ne_undefined {c : Char} {type : TType} (op : operatorType c = some type) :
    type ≠ .undefined := by
  rcases operator_cases op with h | h | h | h | h <;> rw [h.2] <;> decide

theorem operatorType_ne_arg {c : Char} {type : TType} (op : operatorType c = some type) : type ≠ .arg := by
  rcases operator_cases op with h | h | h | h | h <;> rw [h.2] <;> decide

theorem terminal_none (c : Char) : terminal c none = (c == NUL || !wordChar c) := by
  simp only [terminal, wordChar, special_eq]
  cases operatorType c <;> simp

variable {src : Str} {cp : Nat} {tokens : List Token}

theorem step_space {c : Char} {cs : Str} (white : isspace c = true) (suffix : src.drop cp = c :: cs)
    (ep sp : Option Nat) :
    Step src (scannerAt .start ep cp sp tokens) (scannerAt .start ep (cp + 1) sp tokens) := by
  have here : charAt src cp = c := charAt_of_drop suffix
  simp [Iter, scanning, scan, startCase, scannerAt, here, white, ne_NUL_of_isspace white]

theorem step_escape {cs : Str} (suffix : src.drop cp = '\\' :: cs) (sp : Option Nat) :
    Step src (scannerAt .start none cp sp tokens)
      (scannerAt .start (some cp) (cp + 1) sp tokens) := by
  have here : charAt src cp = '\\' := charAt_of_drop suffix
  simp [Iter, scanning, scan, startCase, scannerAt, here, isspace, NUL]

theorem strndup_of_drop {start : Nat} {text rest : Str} (suffix : src.drop start = text ++ rest) :
    strndup src (some start) text.length = .ok text := by
  simp [strndup, suffix]

theorem sliceLength_add (start n : Nat) : sliceLength (start + n) (some start) = .ok n := by
  simp [sliceLength]

theorem emit_scannerAt (value : Str) {type : TType} (defined : type ≠ .undefined) (ep : Option Nat)
    (cp : Nat) (sp : Option Nat) (tokens : List Token) :
    emit value type (scannerAt .start ep cp sp tokens) =
      .ok (scannerAt .start ep cp sp (tokens ++ [⟨value, type⟩])) := by
  simp [emit, scannerAt, defined]

theorem arg_ne_undefined : TType.arg ≠ .undefined := by decide

theorem run_operator {c : Char} {cs : Str} {type : TType} (op : operatorType c = some type)
    (suffix : src.drop cp = c :: cs) (ep sp : Option Nat) :
    Reaches (scanning src) (scan src) (scannerAt .start ep cp sp tokens)
      (scannerAt .start ep (cp + 1) (some cp) (tokens ++ [⟨[c], type⟩])) := by
  have here : charAt src cp = c := charAt_of_drop suffix
  have first : Step src (scannerAt .start ep cp sp tokens)
      (scannerAt .special ep (cp + 1) (some cp) tokens) := by
    rcases operator_cases op with h | h | h | h | h <;> rw [h.1] at here <;>
      simp [Iter, scanning, scan, startCase, scannerAt, here, isspace, special, specialChars, NUL]
  have second : Step src (scannerAt .special ep (cp + 1) (some cp) tokens)
      (scannerAt .start ep (cp + 1) (some cp) (tokens ++ [⟨[c], type⟩])) := by
    refine ⟨by simp [scanning, scannerAt], ?_⟩
    have slice : src.drop cp = [c] ++ cs := suffix
    have value : strndup src (some cp) 1 = .ok [c] := strndup_of_drop slice
    have emitted := emit_scannerAt [c] (operatorType_ne_undefined op) ep (cp + 1) (some cp) tokens
    simpa [scan, scannerAt, specialCase, value, here, opType_of_operatorType op, Bind.bind,
      Except.bind] using emitted
  exact (Relation.ReflTransGen.single first).tail second

theorem run_inside {state : State} {ep sp : Option Nat} {text rest : Str}
    (suffix : src.drop cp = text ++ rest)
    (stays : ∀ i, charAt src i ∈ text →
      Step src (scannerAt state ep i sp tokens) (scannerAt state ep (i + 1) sp tokens)) :
    Reaches (scanning src) (scan src) (scannerAt state ep cp sp tokens)
      (scannerAt state ep (cp + text.length) sp tokens) := by
  induction text generalizing cp with
  | nil => exact .refl
  | cons c text ih =>
    have here : charAt src cp = c := charAt_of_drop suffix
    have first := stays cp (by simp [here])
    have later := ih (drop_succ_of_drop suffix) fun i member => stays i (List.mem_cons_of_mem _ member)
    rw [List.length_cons, show cp + (text.length + 1) = cp + 1 + text.length by omega]
    exact Relation.ReflTransGen.head first later

def quoteState (q : Char) : State := if q = '"' then .dquote else .squote

theorem isQuote_cases {q : Char} (quote : isQuote q = true) : q = '"' ∨ q = '\'' := by
  simpa [isQuote] using quote

theorem scan_quoteState {q : Char} (quote : isQuote q = true) (ep : Option Nat) (cp : Nat)
    (sp : Option Nat) (tokens : List Token) :
    scan src (scannerAt (quoteState q) ep cp sp tokens) =
      quoteCase q src (scannerAt (quoteState q) ep cp sp tokens) := by
  rcases isQuote_cases quote with rfl | rfl <;> rfl

theorem step_open_quote {q : Char} {cs : Str} (quote : isQuote q = true)
    (suffix : src.drop cp = q :: cs) (sp : Option Nat) :
    Step src (scannerAt .start none cp sp tokens)
      (scannerAt (quoteState q) none (cp + 1) (some (cp + 1)) tokens) := by
  have here : charAt src cp = q := charAt_of_drop suffix
  rcases isQuote_cases quote with rfl | rfl <;>
    simp [Iter, scanning, scan, startCase, scannerAt, here, isspace, quoteState, NUL]

theorem step_in_quote {q : Char} (quote : isQuote q = true) (other : charAt src cp ≠ q)
    (inside : charAt src cp ≠ NUL) (sp : Option Nat) :
    Step src (scannerAt (quoteState q) none cp sp tokens)
      (scannerAt (quoteState q) none (cp + 1) sp tokens) := by
  refine ⟨by simp [scanning, scannerAt, inside], ?_⟩
  rw [scan_quoteState quote]
  simp [quoteCase, scannerAt, other, inside, advance]

theorem step_close_quote {q : Char} (quote : isQuote q = true) {start : Nat} {text rest : Str}
    (slice : src.drop start = text ++ rest) (closed : rest = [] ∨ rest.head? = some q)
    (tokens : List Token) :
    ∃ after, src.drop after = rest.drop 1 ∧
      Step src (scannerAt (quoteState q) none (start + text.length) (some start) tokens)
        (scannerAt .start none after (some start) (tokens ++ [⟨text, .arg⟩])) := by
  have suffix := drop_add_of_drop slice
  have here : charAt src (start + text.length) = rest.headD NUL := charAt_of_drop suffix
  have value := strndup_of_drop slice
  have active : quoteState q ≠ .start := by unfold quoteState; split <;> decide
  rcases closed with rfl | head
  · refine ⟨start + text.length, suffix, by simp [scanning, scannerAt, active], ?_⟩
    rw [scan_quoteState quote]
    have emitted := emit_scannerAt text arg_ne_undefined none (start + text.length) (some start) tokens
    simpa [quoteCase, scannerAt, here, advance, sliceLength_add, value, Bind.bind, Except.bind] using emitted
  · obtain ⟨rest, rfl⟩ : ∃ tail, rest = q :: tail := by
      cases rest with
      | nil => simp at head
      | cons c tail => exact ⟨tail, by simpa using head⟩
    have present : q ≠ NUL := by rcases isQuote_cases quote with rfl | rfl <;> decide
    refine ⟨start + text.length + 1, by simpa using drop_succ_of_drop suffix,
      by simp [scanning, scannerAt, active], ?_⟩
    rw [scan_quoteState quote]
    have emitted := emit_scannerAt text arg_ne_undefined none (start + text.length + 1) (some start)
      tokens
    simpa [quoteCase, scannerAt, here, advance, present, sliceLength_add, value, Bind.bind, Except.bind] using emitted

theorem run_quote (free : NulFree src) {q : Char} {cs : Str} (quote : isQuote q = true)
    (suffix : src.drop cp = q :: cs) (sp : Option Nat) :
    ∃ after sp', src.drop after = (cs.dropWhile (· != q)).drop 1 ∧
      Reaches (scanning src) (scan src) (scannerAt .start none cp sp tokens)
        (scannerAt .start none after sp' (tokens ++ [⟨cs.takeWhile (· != q), .arg⟩])) := by
  have slice : src.drop (cp + 1) = cs.takeWhile (· != q) ++ cs.dropWhile (· != q) := by
    rw [drop_succ_of_drop suffix, List.takeWhile_append_dropWhile]
  have stays : ∀ i, charAt src i ∈ cs.takeWhile (· != q) →
      Step src (scannerAt (quoteState q) none i (some (cp + 1)) tokens)
        (scannerAt (quoteState q) none (i + 1) (some (cp + 1)) tokens) := by
    intro i member
    have other : charAt src i ≠ q := by simpa using List.mem_takeWhile_imp member
    have inText : charAt src i ∈ src.drop (cp + 1) := by
      rw [slice]
      exact List.mem_append_left _ member
    exact step_in_quote quote other ((free.drop _).ne_of_mem inText) _
  have inside := run_inside slice stays
  have closed : cs.dropWhile (· != q) = [] ∨ (cs.dropWhile (· != q)).head? = some q := by
    cases rest : cs.dropWhile (· != q) with
    | nil => exact .inl rfl
    | cons c tail =>
      have stop := List.head?_dropWhile_not (· != q) cs
      simp only [rest, List.head?_cons, bne_eq_false_iff_eq] at stop
      exact .inr (by rw [List.head?_cons, stop])
  obtain ⟨after, left, close⟩ := step_close_quote quote slice closed tokens
  exact ⟨after, _, left, (Relation.ReflTransGen.head (step_open_quote quote suffix sp) inside).tail close⟩

theorem step_open_word {c : Char} {cs : Str} (word : startsWord c = true) (present : c ≠ NUL)
    (suffix : src.drop cp = c :: cs) (sp : Option Nat) :
    Step src (scannerAt .start none cp sp tokens)
      (scannerAt .token none (cp + 1) (some cp) tokens) := by
  have here : charAt src cp = c := charAt_of_drop suffix
  simp only [startsWord, wordChar, isQuote, Bool.and_eq_true, Bool.not_eq_true', bne_iff_ne,
    Bool.or_eq_false_iff, beq_eq_false_iff_ne] at word
  obtain ⟨⟨⟨black, noOperator⟩, noDquote, noSquote⟩, plain⟩ := word
  have plainChar : special c = false := by simpa [special_eq] using noOperator
  simp [Iter, scanning, scan, startCase, scannerAt, here, present, black, noDquote, noSquote, plain,
    plainChar]

theorem step_in_word (inside : wordChar (charAt src cp) = true) (present : charAt src cp ≠ NUL)
    (sp : Option Nat) :
    Step src (scannerAt .token none cp sp tokens) (scannerAt .token none (cp + 1) sp tokens) := by
  refine ⟨by simp [scanning, scannerAt], ?_⟩
  simp [scan, scannerAt, tokenCase, terminal_none, inside, present, advance]

/-- A word ends at the end of the text, behind a white space character or in front of an operator,
    which is pushed back. In each case the loop goes on as from the end of the word. -/
theorem same_close_word (free : NulFree src) {start : Nat} {word rest : Str}
    (slice : src.drop start = word ++ rest) (nonempty : word ≠ [])
    (closed : ∀ c, rest.head? = some c → wordChar c = false) (tokens : List Token) :
    Same src (scannerAt .token none (start + word.length) (some start) tokens)
      (scannerAt .start none (start + word.length) (some start) (tokens ++ [⟨word, .arg⟩])) := by
  have suffix := drop_add_of_drop slice
  have here : charAt src (start + word.length) = rest.headD NUL := charAt_of_drop suffix
  have value := strndup_of_drop slice
  have emitted := fun at' => emit_scannerAt word arg_ne_undefined none at' (some start) tokens
  have active : ∀ at', scanning src (scannerAt .token none at' (some start) tokens) = true :=
    fun at' => by simp [scanning, scannerAt]
  cases rest with
  | nil =>
    refine Iter.sameEnd ⟨active _, ?_⟩
    have plainChar : special NUL = false := by decide
    simpa [scan, scannerAt, tokenCase, here, terminal_none, sliceLength_add, value, advance, plainChar,
      Bind.bind, Except.bind] using emitted (start + word.length)
  | cons c tail =>
    have stop : wordChar c = false := closed c rfl
    rw [List.headD_cons] at here
    cases op : operatorType c with
    | none =>
      have white : isspace c = true := by simpa [wordChar, op] using stop
      have plainChar : special c = false := by simp [special_eq, op]
      have present := ne_NUL_of_isspace white
      have first : Step src (scannerAt .token none (start + word.length) (some start) tokens)
          (scannerAt .start none (start + word.length + 1) (some start) (tokens ++ [⟨word, .arg⟩])) := by
        refine ⟨active _, ?_⟩
        simpa [scan, scannerAt, tokenCase, here, terminal_none, stop, sliceLength_add, value, advance,
          plainChar, present, Bind.bind, Except.bind] using emitted (start + word.length + 1)
      exact first.sameEnd.trans (step_space white suffix none _).sameEnd.symm
    | some type =>
      have isOperator : special c = true := by simp [special_eq, op]
      have positive : 0 < word.length := List.length_pos_iff.mpr nonempty
      have before : charAt src (start + word.length - 1) ≠ NUL := by
        have bound := lt_length_of_drop suffix
        exact free.charAt_ne (by omega)
      have back : start + word.length - 1 + 1 = start + word.length := by omega
      refine Iter.sameEnd ⟨active _, ?_⟩
      have moved : start + word.length ≠ 0 := by omega
      simpa only [scan, scannerAt, tokenCase, here, terminal_none, stop, sliceLength_add, value, advance,
        isOperator, moved, before, back, Bind.bind, Except.bind, Bool.not_false, Bool.or_true, ne_eq,
        not_false_eq_true, and_self, if_true, if_false] using emitted (start + word.length)

/-- One item of the grammar is scanned to one token, and the text behind it is left. -/
theorem same_token (free : NulFree src) {c : Char} {cs : Str} (black : isspace c = false)
    (plain : c ≠ '\\') (suffix : src.drop cp = c :: cs) (sp : Option Nat) (tokens : List Token) :
    ∃ after sp', src.drop after = (nextToken c cs).2 ∧
      Same src (scannerAt .start none cp sp tokens)
        (scannerAt .start none after sp' (tokens ++ [(nextToken c cs).1])) := by
  rcases token_start_cases black plain with quote | ⟨type, op⟩ | word
  · rw [nextToken_quote quote]
    obtain ⟨after, sp', left, run⟩ := run_quote free quote suffix sp
    exact ⟨after, sp', left, run.sameEnd⟩
  · rw [nextToken_operator op]
    exact ⟨cp + 1, some cp, drop_succ_of_drop suffix, (run_operator op suffix none sp).sameEnd⟩
  · rw [nextToken_word word]
    have slice : src.drop cp = (c :: cs.takeWhile wordChar) ++ cs.dropWhile wordChar := by
      rw [suffix, List.cons_append, List.takeWhile_append_dropWhile]
    have present : c ≠ NUL := (free.drop cp).ne_of_mem (by rw [suffix]; simp)
    have stays : ∀ i, charAt src i ∈ cs.takeWhile wordChar →
        Step src (scannerAt .token none i (some cp) tokens)
          (scannerAt .token none (i + 1) (some cp) tokens) := by
      intro i member
      have inText : charAt src i ∈ src.drop cp := by
        rw [slice]
        exact List.mem_append_left _ (List.mem_cons_of_mem _ member)
      exact step_in_word (List.mem_takeWhile_imp member) ((free.drop _).ne_of_mem inText) _
    have inside := run_inside (drop_succ_of_drop (slice.trans List.cons_append)) stays
    have closed : ∀ d, (cs.dropWhile wordChar).head? = some d → wordChar d = false := by
      intro d head
      have stop := List.head?_dropWhile_not wordChar cs
      rwa [head] at stop
    have close := same_close_word free slice (by simp) closed tokens
    rw [List.length_cons, show cp + ((cs.takeWhile wordChar).length + 1) =
      cp + 1 + (cs.takeWhile wordChar).length by omega] at close
    refine ⟨_, some cp, ?_, (step_open_word word present suffix sp).sameEnd.trans
      (inside.sameEnd.trans close)⟩
    exact drop_add_of_drop (drop_succ_of_drop (slice.trans List.cons_append))

end OS2.Tokenise
