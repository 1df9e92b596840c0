import OS2.Text.Chars
import Mathlib.Data.List.DropRight

namespace OS2.Lsh

open OS2.Text

def cstr (mem : List Char) (i : Nat) : Str := (mem.drop i).takeWhile (· != NUL)

def skipSpace (mem : List Char) (start : Nat) : Nat :=
  match mem with
  | [] => start
  | c :: rest => if isspace c then skipSpace rest (start + 1) else start

/-- `for (; isspace(*end); end--) *end = '\0'`, at `end + 1`. Nothing in the loop keeps `end` inside
    the string; `none` is the walk out of the memory given. -/
def eraseSpace (mem : List Char) : Nat → Option (List Char)
  | 0 => none
  | e + 1 => if isspace (mem.getD e NUL) then eraseSpace (mem.set e NUL) e else some mem

def trim (mem : List Char) (str : Nat) : Option (List Char × Nat) :=
  let start := skipSpace (mem.drop str) str
  (eraseSpace mem (str + (cstr mem str).length)).map fun mem => (mem, start)

/-- `TRIM(cmd)` on a line in `buffer`, with the byte `below` in front of the buffer: the text `cmd`
    points to. There is no text where `trim` writes in front of the buffer. -/
def trimLine (below : Char) (line : Str) : Option Str :=
  (trim (below :: (line ++ [NUL])) 1).map fun (mem, start) => cstr mem start

def Trimmed (s : Str) : Prop :=
  (∀ c, s.head? = some c → isspace c = false) ∧ ∀ c, s.getLast? = some c → isspace c = false

instance (s : Str) : Decidable (Trimmed s) :=
  decidable_of_iff (s.head?.all (!isspace ·) = true ∧ s.getLast?.all (!isspace ·) = true) (by
    simp [Trimmed, Option.all_eq_true])

def strip (s : Str) : Str := (s.dropWhile isspace).rdropWhile isspace

theorem skipSpace_blank {lead : Str} (blank : Blank lead) (rest : List Char) (start : Nat) :
    skipSpace (lead ++ rest) start = skipSpace rest (start + lead.length) := by
  induction lead generalizing start with
  | nil => rfl
  | cons c lead ih =>
    obtain ⟨white, later⟩ := List.forall_mem_cons.mp blank
    rw [List.cons_append, skipSpace, if_pos white, ih later, List.length_cons]
    congr 1
    omega

theorem skipSpace_stop {c : Char} (black : isspace c = false) (rest : List Char) (start : Nat) :
    skipSpace (c :: rest) start = start := by
  simp [skipSpace, black]

theorem eraseSpace_blank {trail : Str} (blank : Blank trail) (front rest : List Char) :
    eraseSpace (front ++ (trail ++ rest)) (front.length + trail.length) =
      eraseSpace (front ++ (List.replicate trail.length NUL ++ rest)) front.length := by
  induction trail using List.reverseRecOn generalizing rest with
  | nil => rfl
  | append_singleton trail c ih =>
    have white : isspace c = true := blank c (by simp)
    have others : Blank trail := fun d member => blank d (by simp [member])
    have here : (front ++ ((trail ++ [c]) ++ rest)).getD (front.length + trail.length) NUL = c := by
      simp
    have cleared : (front ++ ((trail ++ [c]) ++ rest)).set (front.length + trail.length) NUL =
        front ++ (trail ++ NUL :: rest) := by
      simp
    rw [List.length_append, List.length_singleton, ← Nat.add_assoc, eraseSpace, here, if_pos white,
      cleared, ih others, List.replicate_succ']
    simp

theorem eraseSpace_stop {c : Char} (black : isspace c = false) (front rest : List Char) :
    eraseSpace (front ++ c :: rest) (front.length + 1) = some (front ++ c :: rest) := by
  have here : (front ++ c :: rest).getD front.length NUL = c := by simp
  rw [eraseSpace, here, if_neg (by simp [black])]

theorem cstr_append {s : Str} (free : NulFree s) (pre post : List Char) :
    cstr (pre ++ (s ++ NUL :: post)) pre.length = s := by
  have inside : ∀ c ∈ s, (c != NUL) = true := fun c member => bne_iff_ne.mpr (free.ne_of_mem member)
  rw [cstr, List.drop_left, List.takeWhile_append_of_pos inside]
  simp

/-- A string that is not all white space: `trim` clears the white space behind its text, touches
    nothing else, and returns the address of the text. -/
theorem trim_text {lead text trail : Str} (free : NulFree (lead ++ (text ++ trail)))
    (leading : Blank lead) (trailing : Blank trail) (trimmed : Trimmed text) (nonempty : text ≠ [])
    (pre post : List Char) :
    trim (pre ++ ((lead ++ (text ++ trail)) ++ NUL :: post)) pre.length =
      some (pre ++ (lead ++ (text ++ (List.replicate trail.length NUL ++ NUL :: post))),
        pre.length + lead.length) := by
  have start : skipSpace (lead ++ (text ++ (trail ++ NUL :: post))) pre.length = pre.length + lead.length := by
    rw [skipSpace_blank leading]
    cases text with
    | nil => exact absurd rfl nonempty
    | cons c text => exact skipSpace_stop (trimmed.1 c rfl) _ _
  have erased : eraseSpace (pre ++ (lead ++ (text ++ (trail ++ NUL :: post))))
      (pre.length + (lead.length + (text.length + trail.length))) =
      some (pre ++ (lead ++ (text ++ (List.replicate trail.length NUL ++ NUL :: post)))) := by
    have first := eraseSpace_blank trailing (pre ++ (lead ++ text)) (NUL :: post)
    obtain ⟨front, c, rfl⟩ : ∃ front c, text = front ++ [c] :=
      ⟨text.dropLast, text.getLast nonempty, (List.dropLast_append_getLast nonempty).symm⟩
    have stop := eraseSpace_stop (trimmed.2 c (by simp)) (pre ++ (lead ++ front))
      (List.replicate trail.length NUL ++ NUL :: post)
    simp only [List.length_append, List.length_singleton, List.append_assoc, Nat.add_assoc,
      List.singleton_append] at first stop ⊢
    rw [first, stop]
  have length := congrArg List.length (cstr_append free pre post)
  simp only [List.length_append, List.append_assoc] at length
  simp only [trim, List.append_assoc, List.drop_left, start, length, erased, Option.map_some]

theorem strip_split (s : Str) :
    ∃ lead trail, s = lead ++ (strip s ++ trail) ∧ Blank lead ∧ Blank trail ∧ Trimmed (strip s) := by
  refine ⟨s.takeWhile isspace, (s.dropWhile isspace).rtakeWhile isspace, ?_, ?_, ?_, ?_, ?_⟩
  · rw [strip, List.rdropWhile_append_rtakeWhile, List.takeWhile_append_dropWhile]
  · exact fun c => List.mem_takeWhile_imp
  · exact fun c => List.mem_rtakeWhile_imp
  · intro c head
    obtain ⟨rest, split⟩ := List.rdropWhile_prefix isspace (s.dropWhile isspace)
    have first : (s.dropWhile isspace).head? = some c := by
      rw [← split, List.head?_append, show ((s.dropWhile isspace).rdropWhile isspace).head? = some c from head]
      rfl
    have stop := List.head?_dropWhile_not isspace s
    rwa [first] at stop
  · intro c last
    have nonempty : strip s ≠ [] := by intro empty; simp [empty] at last
    have stop := List.rdropWhile_last_not isspace (s.dropWhile isspace) nonempty
    rw [List.getLast?_eq_some_getLast nonempty] at last
    obtain rfl := Option.some.inj last
    exact Bool.eq_false_iff.mpr stop

theorem strip_eq_nil {s : Str} : strip s = [] ↔ Blank s := by
  constructor
  · intro empty
    obtain ⟨lead, trail, split, leading, trailing, _⟩ := strip_split s
    rw [empty, List.nil_append] at split
    intro c member
    rw [split] at member
    rcases List.mem_append.mp member with member | member
    · exact leading c member
    · exact trailing c member
  · intro blank
    have all : s.dropWhile isspace = [] := List.dropWhile_eq_nil_iff.mpr blank
    simp [strip, all]

theorem Trimmed.rdropWhile {s : Str} (trimmed : Trimmed s) : s.rdropWhile isspace = s := by
  rw [List.rdropWhile_eq_self_iff]
  intro nonempty
  have last := trimmed.2 _ (List.getLast?_eq_some_getLast nonempty)
  simp [last]

theorem strip_around {lead text trail : Str} (leading : Blank lead) (trailing : Blank trail)
    (trimmed : Trimmed text) (nonempty : text ≠ []) : strip (lead ++ (text ++ trail)) = text := by
  have front : (lead ++ (text ++ trail)).dropWhile isspace = text ++ trail := by
    rw [List.dropWhile_append_of_pos leading]
    cases text with
    | nil => exact absurd rfl nonempty
    | cons c text => exact List.dropWhile_cons_of_neg (by simp [trimmed.1 c rfl])
  have behind : ∀ c ∈ trail.reverse, isspace c = true := fun c member => trailing c (List.mem_reverse.mp member)
  rw [strip, front, List.rdropWhile, List.reverse_append, List.dropWhile_append_of_pos behind]
  exact trimmed.rdropWhile

theorem replicate_NUL (n : Nat) (post : List Char) :
    List.replicate n NUL ++ NUL :: post = NUL :: (List.replicate n NUL ++ post) := by
  rw [← List.singleton_append, ← List.append_assoc, ← List.replicate_succ', List.replicate_succ, List.cons_append]

theorem nulFree_strip {s : Str} (free : NulFree s) : NulFree (strip s) := by
  obtain ⟨lead, trail, split, _⟩ := strip_split s
  rw [split] at free
  exact (nulFree_append.mp (nulFree_append.mp free).2).1

theorem trim_black {s : Str} (free : NulFree s) (black : ¬ Blank s) (front post : List Char) :
    ∃ behind start,
      trim (front ++ (s ++ NUL :: post)) front.length = some (front ++ (behind ++ NUL :: post), start) ∧
      behind.length = s.length ∧ cstr (front ++ (behind ++ NUL :: post)) start = strip s := by
  obtain ⟨lead, trail, split, leading, trailing, trimmed⟩ := strip_split s
  have nonempty : strip s ≠ [] := fun empty => black (strip_eq_nil.mp empty)
  have trimmedText := trim_text (split ▸ free) leading trailing trimmed nonempty front post
  have found := cstr_append (nulFree_strip free) (front ++ lead) (List.replicate trail.length NUL ++ post)
  have length := congrArg List.length split
  rw [← split] at trimmedText
  rw [← replicate_NUL, List.length_append] at found
  refine ⟨lead ++ (strip s ++ List.replicate trail.length NUL), front.length + lead.length, ?_, ?_, ?_⟩
  · simpa using trimmedText
  · simpa using length.symm
  · simpa using found

theorem cstr_terminated (line : Str) :
    NulFree (cstr line 0) ∧ ∃ post, line ++ [NUL] = cstr line 0 ++ NUL :: post := by
  constructor
  · intro member
    simpa using List.mem_takeWhile_imp member
  · have split := List.takeWhile_append_dropWhile (p := (· != NUL)) (l := line)
    rw [cstr, List.drop_zero]
    cases rest : line.dropWhile (· != NUL) with
    | nil =>
      rw [rest, List.append_nil] at split
      exact ⟨[], by rw [split]⟩
    | cons c rest' =>
      have stop := List.head?_dropWhile_not (· != NUL) line
      rw [rest] at split stop
      obtain rfl : c = NUL := by simpa using stop
      exact ⟨rest' ++ [NUL], by conv_lhs => rw [← split, List.append_assoc, List.cons_append]⟩

theorem trimLine_blank {line text post : Str} (shape : line ++ [NUL] = text ++ NUL :: post)
    (blank : Blank text) (below : Char) :
    trimLine below line = if isspace below then none else some [] := by
  have free : NulFree text := fun member => by simpa [not_isspace_NUL] using blank NUL member
  have start : skipSpace (text ++ NUL :: post) 1 = 1 + text.length := by
    rw [skipSpace_blank blank, skipSpace_stop not_isspace_NUL]
  have erased := eraseSpace_blank blank [below] (NUL :: post)
  have whole : cstr (below :: (text ++ NUL :: post)) 1 = text := cstr_append free [below] post
  simp only [List.singleton_append, List.length_singleton, eraseSpace, List.getD_cons_zero] at erased
  simp only [trimLine, trim, shape, List.drop_succ_cons, List.drop_zero, start, whole, erased]
  split
  · rfl
  · simp [cstr, Nat.add_comm 1]

theorem trimLine_text {line text post : Str} (shape : line ++ [NUL] = text ++ NUL :: post)
    (free : NulFree text) (black : strip text ≠ []) (below : Char) :
    trimLine below line = some (strip text) := by
  have notBlank : ¬ Blank text := fun blank => black (strip_eq_nil.mpr blank)
  obtain ⟨behind, start, trimmed, _, found⟩ := trim_black free notBlank [below] post
  rw [List.singleton_append, List.length_singleton, ← shape] at trimmed
  rw [trimLine, trimmed, Option.map_some]
  exact congrArg some found

theorem trimLine_some {line cmd : Str} {below : Char} (trimmed : trimLine below line = some cmd) :
    cmd = strip (cstr line 0) := by
  obtain ⟨free, post, shape⟩ := cstr_terminated line
  by_cases black : strip (cstr line 0) = []
  · rw [trimLine_blank shape (strip_eq_nil.mp black)] at trimmed
    split at trimmed
    · cases trimmed
    · rw [black]
      exact (Option.some.inj trimmed).symm
  · rw [trimLine_text shape free black] at trimmed
    exact (Option.some.inj trimmed).symm

end OS2.Lsh
