import OS2.Text.Chars

namespace OS2.Text

def gets (room : Nat) (input : Str) : Str × Str :=
  match room, input with
  | 0, input => ([], input)
  | _ + 1, [] => ([], [])
  | room + 1, c :: input =>
    if c = '\n' then ([c], input) else (c :: (gets room input).1, (gets room input).2)

/-- `fgets` with a buffer of `size` characters, one of them for the NUL; `none` at the end of the input. -/
def fgets (size : Nat) (input : Str) : Option (Str × Str) :=
  if input = [] then none else some (gets (size - 1) input)

/-- The bytes of `text` written from the address `a` on; `none` where the memory ends before that. -/
def store (mem : List Char) (a : Nat) (text : List Char) : Option (List Char) :=
  if a + text.length ≤ mem.length then some (mem.take a ++ (text ++ mem.drop (a + text.length))) else none

/-- A line that `fgets` has read with something left behind it: it ends in its only newline, or it
    fills the room. -/
def Full (room : Nat) (line : Str) : Prop :=
  line.length ≤ room ∧ '\n' ∉ line.dropLast ∧ (line.getLast? = some '\n' ∨ line.length = room)

instance (room : Nat) (line : Str) : Decidable (Full room line) := inferInstanceAs (Decidable (_ ∧ _ ∧ _))

inductive Chunked (room : Nat) : List Str → Prop where
  | nil : Chunked room []
  | last {line : Str} (nonempty : line ≠ []) (fits : line.length ≤ room) (open' : '\n' ∉ line) :
      Chunked room [line]
  | cons {line : Str} {lines : List Str} (nonempty : line ≠ []) (full : Full room line)
      (rest : Chunked room lines) : Chunked room (line :: lines)

variable {room : Nat} {line input : Str} {lines lines' : List Str}

theorem store_line (pre buf : List Char) (room : line.length < buf.length) :
    store (pre ++ buf) pre.length (line ++ [NUL]) = some (pre ++ (line ++ NUL :: buf.drop (line.length + 1))) := by
  have inside : pre.length + (line ++ [NUL]).length ≤ (pre ++ buf).length := by
    simp
    omega
  rw [store, if_pos inside, List.take_left' rfl, List.drop_append]
  simp

theorem gets_append (room : Nat) (input : Str) : (gets room input).1 ++ (gets room input).2 = input := by
  induction input generalizing room with
  | nil => cases room <;> rfl
  | cons c input ih =>
    cases room with
    | zero => rfl
    | succ room =>
      rw [gets]
      split
      · rfl
      · exact congrArg (c :: ·) (ih room)

theorem gets_open (open' : '\n' ∉ line) (fits : line.length ≤ room) : gets room line = (line, []) := by
  induction line generalizing room with
  | nil => cases room <;> rfl
  | cons c line ih =>
    obtain ⟨room, rfl⟩ := Nat.exists_eq_succ_of_ne_zero (Nat.ne_zero_of_lt fits)
    rw [List.mem_cons, not_or] at open'
    rw [gets, if_neg (Ne.symm open'.1), ih open'.2 (Nat.le_of_succ_le_succ fits)]

theorem Full.tail {c : Char} (full : Full (room + 1) (c :: line)) (nonempty : line ≠ []) :
    c ≠ '\n' ∧ Full room line := by
  obtain ⟨fits, inner, last⟩ := full
  rw [List.dropLast_cons_of_ne_nil nonempty, List.mem_cons, not_or] at inner
  rw [List.getLast?_cons_of_ne_nil nonempty] at last
  exact ⟨Ne.symm inner.1, Nat.le_of_succ_le_succ fits, inner.2, last.imp_right Nat.succ.inj⟩

theorem gets_full (full : Full room line) (input : Str) : gets room (line ++ input) = (line, input) := by
  induction line generalizing room with
  | nil =>
    obtain ⟨fits, inner, last⟩ := full
    have empty : room = 0 := by simpa [eq_comm] using last
    subst empty
    rfl
  | cons c line ih =>
    obtain ⟨room, rfl⟩ := Nat.exists_eq_succ_of_ne_zero (Nat.ne_zero_of_lt full.1)
    by_cases more : line = []
    · subst more
      by_cases newline : c = '\n'
      · exact if_pos newline
      · have filled : room = 0 := by
          have last := full.2.2
          simp [newline] at last
          omega
        subst filled
        exact if_neg newline
    · obtain ⟨other, rest⟩ := full.tail more
      rw [List.cons_append, gets, if_neg other, ih rest]

theorem Chunked.first {size : Nat} (cut : Chunked room (line :: lines)) (size_eq : size = room + 1) :
    fgets size (line :: lines).flatten = some (line, lines.flatten) := by
  subst size_eq
  have nonempty : line ≠ [] := by
    cases cut with
    | last nonempty => exact nonempty
    | cons nonempty => exact nonempty
  rw [fgets, if_neg (by simp [nonempty]), Nat.add_sub_cancel]
  cases cut with
  | last nonempty fits open' => simp [gets_open open' fits]
  | cons nonempty full rest => rw [List.flatten_cons, gets_full full]

theorem Chunked.fits (cut : Chunked room lines) : ∀ line ∈ lines, line.length ≤ room := by
  induction cut with
  | nil => simp
  | last nonempty fits open' => simpa using fits
  | cons nonempty full rest ih => exact List.forall_mem_cons.mpr ⟨full.1, ih⟩

theorem Chunked.tail (cut : Chunked room (line :: lines)) : Chunked room lines := by
  cases cut with
  | last nonempty fits open' => exact .nil
  | cons nonempty full rest => exact rest

theorem Chunked.unique (cut : Chunked room lines) (cut' : Chunked room lines')
    (same : lines.flatten = lines'.flatten) : lines = lines' := by
  induction lines generalizing lines' with
  | nil =>
    cases lines' with
    | nil => rfl
    | cons line' lines' =>
      have first := cut'.first rfl
      rw [← same] at first
      cases first
  | cons line lines ih =>
    have first := cut.first rfl
    rw [same] at first
    cases lines' with
    | nil => cases first
    | cons line' lines' =>
      have first' := cut'.first rfl
      rw [first'] at first
      obtain ⟨rfl, rest⟩ := Prod.ext_iff.mp (Option.some.inj first)
      rw [ih cut.tail cut'.tail rest.symm]

theorem Full.cons {c : Char} (full : Full room line) (nonempty : line ≠ []) (other : c ≠ '\n') :
    Full (room + 1) (c :: line) := by
  obtain ⟨fits, inner, last⟩ := full
  refine ⟨Nat.succ_le_succ fits, ?_, ?_⟩
  · rw [List.dropLast_cons_of_ne_nil nonempty, List.mem_cons, not_or]
    exact ⟨Ne.symm other, inner⟩
  · rw [List.getLast?_cons_of_ne_nil nonempty]
    exact last.imp_right (congrArg Nat.succ)

theorem gets_full_or_open (positive : 0 < room) (nonempty : input ≠ []) : (gets room input).1 ≠ [] ∧
    (Full room (gets room input).1 ∨
      (gets room input).1.length ≤ room ∧ '\n' ∉ (gets room input).1 ∧ (gets room input).2 = []) := by
  induction input generalizing room with
  | nil => exact absurd rfl nonempty
  | cons c input ih =>
    obtain ⟨room, rfl⟩ := Nat.exists_eq_succ_of_ne_zero (Nat.ne_of_gt positive)
    rw [gets]
    split
    · rename_i newline
      subst newline
      exact ⟨by simp, .inl ⟨by simp, by simp, .inl rfl⟩⟩
    · rename_i other
      refine ⟨by simp, ?_⟩
      by_cases more : input = []
      · subst more
        right
        cases room <;> simp [gets, Ne.symm other]
      · by_cases filled : room = 0
        · subst filled
          exact .inl ⟨by simp [gets], by simp [gets], .inr (by simp [gets])⟩
        · obtain ⟨some', full | ⟨fits, open', all⟩⟩ := ih (Nat.pos_of_ne_zero filled) more
          · exact .inl (full.cons some' other)
          · right
            exact ⟨Nat.succ_le_succ fits, by simp [open', Ne.symm other], all⟩

theorem exists_chunked (positive : 0 < room) (input : Str) : ∃ lines, Chunked room lines ∧ lines.flatten = input := by
  induction length : input.length using Nat.strongRecOn generalizing input with
  | ind n ih =>
    by_cases done : input = []
    · exact ⟨[], .nil, done.symm⟩
    have whole := gets_append room input
    obtain ⟨nonempty, full | ⟨fits, open', all⟩⟩ := gets_full_or_open positive done
    · have shorter : (gets room input).2.length < n := by
        have total := congrArg List.length whole
        have taken := List.length_pos_of_ne_nil nonempty
        rw [List.length_append] at total
        omega
      obtain ⟨lines, cut, rest⟩ := ih _ shorter _ rfl
      exact ⟨_ :: lines, .cons nonempty full cut, by rw [List.flatten_cons, rest, whole]⟩
    · refine ⟨[_], .last nonempty fits open', ?_⟩
      rw [all, List.append_nil] at whole
      simpa using whole

end OS2.Text
