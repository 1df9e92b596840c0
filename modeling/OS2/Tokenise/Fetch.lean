import OS2.Tokenise.Scan

namespace OS2.Tokenise

open OS2.Text OS2.Loop

def Ending.escaped : Ending → Option Str
  | .escape rest => some rest
  | _ => none

theorem escaped_token {c : Char} (black : isspace c = false) (plain : c ≠ '\\') (cs : Str) :
    (ending (c :: cs)).escaped = (ending (nextToken c cs).2).escaped := by
  rw [ending_token black plain]
  split
  · rename_i h
    have run : cs.dropWhile (· != c) = [] := by
      rw [List.dropWhile_eq_nil_iff]
      intro d member
      exact bne_iff_ne.mpr fun same => h.2 (same ▸ member)
    rw [nextToken_quote h.1]
    simp [run, Ending.escaped]
  · split
    · rename_i _ h
      have run : cs.dropWhile wordChar = [] := by
        rw [List.dropWhile_eq_nil_iff]
        exact List.all_eq_true.mp h.2
      rw [nextToken_word h.1]
      simp [run, Ending.escaped]
    · rfl

variable {src : Str} {cp : Nat}

/-- From a token start the scanner makes the tokens of the grammar, and then stands at the end of the
    text or, its escape pointer set, behind the backslash at which the grammar stops. -/
theorem same_grammar (free : NulFree src) {rest : Str} (suffix : src.drop cp = rest)
    (sp : Option Nat) (tokens : List Token) :
    ∃ after sp' ep, src.drop after = (ending rest).escaped.getD [] ∧
      ep.isSome = (ending rest).escaped.isSome ∧
      Same src (scannerAt .start none cp sp tokens)
        (scannerAt .start ep after sp' (tokens ++ grammar rest)) := by
  induction rest using token_induction generalizing cp sp tokens with
  | nil =>
    refine ⟨cp, sp, none, ?_, by simp [Ending.escaped], by simpa using .refl _⟩
    rw [suffix, ending_nil]
    rfl
  | space c cs white ih =>
    obtain ⟨after, sp', ep, left, escape, same⟩ := ih (drop_succ_of_drop suffix) sp tokens
    rw [ending_space white, grammar_space white]
    exact ⟨after, sp', ep, left, escape, (step_space white suffix none sp).sameEnd.trans same⟩
  | escape cs =>
    refine ⟨cp + 1, sp, some cp, ?_, ?_, ?_⟩
    · simpa [Ending.escaped] using drop_succ_of_drop suffix
    · simp [Ending.escaped]
    · simpa using (step_escape suffix sp).sameEnd
  | token c cs black plain ih =>
    obtain ⟨middle, sp1, left1, same1⟩ := same_token free black plain suffix sp tokens
    obtain ⟨after, sp', ep, left, escape, same⟩ := ih left1 sp1 (tokens ++ [(nextToken c cs).1])
    rw [escaped_token black plain, grammar_token black plain, List.append_cons]
    exact ⟨after, sp', ep, left, escape, same1.trans same⟩

theorem not_wordChar_cases {c : Char} (stop : wordChar c = false) :
    isspace c = true ∨ ∃ type, operatorType c = some type := by
  cases op : operatorType c with
  | some type => exact .inr ⟨type, rfl⟩
  | none => exact .inl (by simpa [wordChar, op] using stop)

theorem operator_black {c : Char} {type : TType} (op : operatorType c = some type) :
    isspace c = false ∧ c ≠ '\\' := by
  rcases operator_cases op with h | h | h | h | h <;> rw [h.1] <;> decide

theorem grammar_operator {c : Char} {type : TType} (op : operatorType c = some type) (cs : Str) :
    grammar (c :: cs) = ⟨[c], type⟩ :: grammar cs := by
  rw [grammar_token (operator_black op).1 (operator_black op).2, nextToken_operator op]

theorem same_separators {rest : Str} (suffix : src.drop cp = rest)
    (separators : ∀ c ∈ rest, wordChar c = false) (ep sp : Option Nat) (tokens : List Token) :
    ∃ after sp', src.drop after = [] ∧
      Same src (scannerAt .start ep cp sp tokens)
        (scannerAt .start ep after sp' (tokens ++ grammar rest)) := by
  induction rest generalizing cp sp tokens with
  | nil => exact ⟨cp, sp, suffix, by simpa using .refl _⟩
  | cons c cs ih =>
    have later := drop_succ_of_drop suffix
    have others : ∀ d ∈ cs, wordChar d = false := fun d member => separators d (List.mem_cons_of_mem _ member)
    rcases not_wordChar_cases (separators c (by simp)) with white | ⟨type, op⟩
    · obtain ⟨after, sp', left, same⟩ := ih later others sp tokens
      rw [grammar_space white]
      exact ⟨after, sp', left, (step_space white suffix ep sp).sameEnd.trans same⟩
    · obtain ⟨after, sp', left, same⟩ := ih later others (some cp) (tokens ++ [⟨[c], type⟩])
      rw [grammar_operator op, List.append_cons]
      exact ⟨after, sp', left, (run_operator op suffix ep sp).sameEnd.trans same⟩

/-- A word begun while the escape pointer is set never ends: `TERMINAL` asks for a NULL pointer,
    and nothing resets it. -/
theorem hangs_in_word {s : Scanner} (inWord : s.state = .token) (escaped : s.ep ≠ none) :
    Hangs (whileLoop (scanning src) (scan src) · s) := by
  refine hangs_of_invariant (fun s => s.state = .token ∧ s.ep ≠ none) ?_ ⟨inWord, escaped⟩
  intro s ⟨inWord, escaped⟩
  have never : terminal (charAt src s.cp) s.ep = false := by
    obtain ⟨e, set⟩ := Option.ne_none_iff_exists'.mp escaped
    simp [terminal, set]
  refine ⟨advance src s, ⟨by simp [scanning, inWord], by simp [scan, inWord, tokenCase, never]⟩, ?_⟩
  unfold advance
  split <;> exact ⟨inWord, escaped⟩

theorem same_hangs {s t : Scanner} (same : Same src s t)
    (hangs : Hangs (whileLoop (scanning src) (scan src) · t)) :
    Hangs (whileLoop (scanning src) (scan src) · s) :=
  ends_fuel_iff.mp ((same _).mpr (ends_fuel_iff.mpr hangs))

theorem hangs_behind_escape (free : NulFree src) {e : Nat} {rest : Str} (suffix : src.drop cp = rest)
    (word : ∃ c ∈ rest, wordChar c = true) (sp : Option Nat) (tokens : List Token) :
    Hangs (whileLoop (scanning src) (scan src) · (scannerAt .start (some e) cp sp tokens)) := by
  induction rest generalizing cp sp tokens with
  | nil => simp at word
  | cons c cs ih =>
    have later := drop_succ_of_drop suffix
    cases stop : wordChar c with
    | false =>
      have others : ∃ d ∈ cs, wordChar d = true := by
        obtain ⟨d, member, inside⟩ := word
        rcases List.mem_cons.mp member with rfl | member
        · rw [stop] at inside; cases inside
        · exact ⟨d, member, inside⟩
      rcases not_wordChar_cases stop with white | ⟨type, op⟩
      · exact same_hangs (step_space white suffix (some e) sp).sameEnd (ih later others sp tokens)
      · exact same_hangs (run_operator op suffix (some e) sp).sameEnd (ih later others _ _)
    | true =>
      have here : charAt src cp = c := charAt_of_drop suffix
      have present : c ≠ NUL := (free.drop cp).ne_of_mem (by rw [suffix]; simp)
      simp only [wordChar, Bool.and_eq_true, Bool.not_eq_true'] at stop
      have plainChar : special c = false := by simpa [special_eq] using stop.2
      have begin' : Step src (scannerAt .start (some e) cp sp tokens)
          (scannerAt .token (some e) (cp + 1) (some cp) tokens) := by
        simp [Iter, scanning, scan, startCase, scannerAt, here, present, stop.1, plainChar]
      exact same_hangs begin'.sameEnd (hangs_in_word rfl (by simp [scannerAt]))

/-- Behind the first backslash at a token start, if there is one, stand only white space and
    operators. -/
def Settles (s : Str) : Prop := ∀ rest, ending s = .escape rest → ∀ c ∈ rest, wordChar c = false

instance (s : Str) : Decidable (Settles s) :=
  match stop : ending s with
  | .escape rest =>
    decidable_of_iff (rest.all (!wordChar ·) = true) (by simp [Settles, stop])
  | .between | .inWord | .inQuote => isTrue fun rest => by simp [stop]

def fetched (s : Str) : List Token := grammar s ++ grammar ((ending s).escaped.getD [])

theorem escaped_eq_some {s rest : Str} : (ending s).escaped = some rest ↔ ending s = .escape rest := by
  cases ending s <;> simp [Ending.escaped]

theorem settles_of_noEscape {s : Str} (plain : NoEscape s) : Settles s :=
  fun rest stop => absurd stop (plain rest)

theorem fetched_of_noEscape {s : Str} (plain : NoEscape s) : fetched s = grammar s := by
  have none : (ending s).escaped = none :=
    Option.eq_none_iff_forall_ne_some.mpr fun rest stop => plain rest (escaped_eq_some.mp stop)
  simp [fetched, none]

theorem fetches_of_same {tokens : List Token} {ep sp : Option Nat} (left : src.drop cp = [])
    (same : Same src .init (scannerAt .start ep cp sp tokens)) : Fetches src tokens := by
  have done : scanning src (scannerAt .start ep cp sp tokens) = false := by
    have here : charAt src cp = NUL := charAt_of_drop left
    simp [scanning, scannerAt, here]
  exact ((same _).mpr (ends_exit done)).map fun s => (s.tokens, s.count)

theorem fetches_of_settles {s : Str} (free : NulFree s) (settles : Settles s) :
    Fetches s (fetched s) := by
  obtain ⟨after, sp, ep, left, _, same⟩ := same_grammar free (List.drop_zero (l := s)) none []
  have separators : ∀ c ∈ (ending s).escaped.getD [], wordChar c = false := by
    cases stop : (ending s).escaped with
    | none => simp
    | some rest => simpa using settles rest (escaped_eq_some.mp stop)
  obtain ⟨final, sp', done, rest⟩ := same_separators left separators ep sp ([] ++ grammar s)
  exact fetches_of_same done (same.trans rest)

theorem fetch_hangs {s : Str} (free : NulFree s) (unsettled : ¬ Settles s) :
    Hangs (tokeniseFetch · s) := by
  obtain ⟨rest, stop, c, member, word⟩ : ∃ rest, ending s = .escape rest ∧ ∃ c ∈ rest, wordChar c = true := by
    simpa [Settles] using unsettled
  obtain ⟨after, sp, ep, left, escape, same⟩ := same_grammar free (List.drop_zero (l := s)) none []
  rw [escaped_eq_some.mpr stop] at left escape
  obtain ⟨e, rfl⟩ : ∃ e, ep = some e := Option.isSome_iff_exists.mp escape
  have hangs := same_hangs same (hangs_behind_escape free left ⟨c, member, word⟩ sp _)
  intro fuel
  have stuck : whileLoop (scanning s) (scan s) fuel .init = .error .fuel := hangs fuel
  simp only [tokeniseFetch, stuck, Except.map]

theorem tokeniseFetch_monotone (s : Str) : Monotone (tokeniseFetch · s) :=
  Monotone.map (whileLoop_monotone Scanner.init) _

theorem fetched_of_tokeniseFetch {s : Str} (free : NulFree s) {fuel : Nat} {result : List Token × Nat}
    (h : tokeniseFetch fuel s = .ok result) : Settles s ∧ result = (fetched s, (fetched s).length) := by
  have settles : Settles s := by
    by_contra unsettled
    have stuck : tokeniseFetch fuel s = .error .fuel := fetch_hangs free unsettled fuel
    rw [h] at stuck
    cases stuck
  have ends := (tokeniseFetch_monotone s).ends h (by simp)
  exact ⟨settles, Except.ok.inj (ends.unique (fetches_of_settles free settles))⟩

end OS2.Tokenise
