import OS2.Lsh.Shell
import OS2.Text.Fgets

namespace OS2.Lab2

open OS2.Text OS2.Loop OS2.Lsh

/-- The learning shell before it could fork: the array `cmd`, what is left on the standard input, and the
    paths that `execv` was called with. -/
structure State where
  cmd : List Char
  input : Str
  attempts : List Str
  deriving DecidableEq, Repr

inductive Ending where
  | exit
  | replaced (path : Str)
  deriving DecidableEq, Repr

inductive Fault where
  | overrun
  deriving DecidableEq, Repr

def index (cmd : List Char) (c : Char) : Option Nat := (cstr cmd 0).findIdx? (· == c)

def killNewline (cmd : List Char) : List Char :=
  match index cmd '\n' with
  | some nl => cmd.set nl NUL
  | none => cmd

def dispatch (runs : Str → Bool) (s : State) : State × Option Ending :=
  let path := cstr s.cmd 0
  ({ s with attempts := s.attempts ++ [path] }, if runs path then some (.replaced path) else none)

def parse (runs : Str → Bool) (s : State) : State × Option Ending :=
  let s := { s with cmd := killNewline s.cmd }
  if assignment.search (cstr s.cmd 0) then (s, none) else dispatch runs s

def repl (ARG_MAX : Nat) (runs : Str → Bool) : Nat → State → Except (Stop Fault) (State × Ending)
  | 0, _ => .error .fuel
  | rounds + 1, s =>
    match fgets (ARG_MAX + 1) s.input with
    | none => .ok (s, .exit)
    | some (line, input) =>
      match store s.cmd 0 (line ++ [NUL]) with
      | none => .error (.fault .overrun)
      | some cmd =>
        match parse runs { s with cmd := cmd, input := input } with
        | (s, some ending) => .ok (s, ending)
        | (s, none) => repl ARG_MAX runs rounds s

def start (ARG_MAX : Nat) (input : Str) : State :=
  { cmd := List.replicate (ARG_MAX + 1) NUL, input := input, attempts := [] }

def textOf (line : Str) : Str := line.takeWhile fun c => c != NUL && c != '\n'

def commands (lines : List Str) : List Str := (lines.map textOf).filter fun text => !assignment.search text

variable {ARG_MAX rounds : Nat} {runs : Str → Bool} {s : State} {line : Str} {lines done : List Str}

theorem killNewline_cons {c : Char} (present : c ≠ NUL) (other : c ≠ '\n') (cmd : List Char) :
    killNewline (c :: cmd) = c :: killNewline cmd := by
  have whole : cstr (c :: cmd) 0 = c :: cstr cmd 0 := List.takeWhile_cons_of_pos (bne_iff_ne.mpr present)
  have found : index (c :: cmd) '\n' = (index cmd '\n').map (· + 1) := by
    rw [index, whole, List.findIdx?_cons, if_neg (by simpa using other)]
    rfl
  rw [killNewline, killNewline, found]
  cases index cmd '\n' <;> rfl

theorem text_killed (cmd : List Char) : cstr (killNewline cmd) 0 = textOf cmd := by
  induction cmd with
  | nil => rfl
  | cons c cmd ih =>
    by_cases ends : c = NUL
    · subst ends
      rfl
    by_cases newline : c = '\n'
    · subst newline
      have found : index ('\n' :: cmd) '\n' = some 0 := by
        have whole : cstr ('\n' :: cmd) 0 = '\n' :: cstr cmd 0 := List.takeWhile_cons_of_pos (by decide)
        rw [index, whole]
        rfl
      rw [killNewline, found]
      rfl
    · rw [killNewline_cons ends newline, textOf, List.takeWhile_cons_of_pos (by simp [ends, newline])]
      have kept : cstr (c :: killNewline cmd) 0 = c :: cstr (killNewline cmd) 0 :=
        List.takeWhile_cons_of_pos (bne_iff_ne.mpr ends)
      rw [kept, ih]
      rfl

theorem textOf_append (line stale : Str) : textOf (line ++ NUL :: stale) = textOf line := by
  induction line with
  | nil => rfl
  | cons c line ih =>
    rw [textOf, List.cons_append, List.takeWhile_cons, textOf, List.takeWhile_cons]
    split
    · exact congrArg (c :: ·) ih
    · rfl

theorem killNewline_length (cmd : List Char) : (killNewline cmd).length = cmd.length := by
  rw [killNewline]
  split
  · exact List.length_set
  · rfl

theorem parse_line (runs : Str → Bool) (line stale input : Str) (attempts : List Str) :
    parse runs ⟨line ++ NUL :: stale, input, attempts⟩ =
      if assignment.search (textOf line) then (⟨killNewline (line ++ NUL :: stale), input, attempts⟩, none)
      else (⟨killNewline (line ++ NUL :: stale), input, attempts ++ [textOf line]⟩,
        if runs (textOf line) then some (.replaced (textOf line)) else none) := by
  simp only [parse, dispatch, text_killed, textOf_append]

/-- A run that has parsed the lines `done` and left the lines `rest` on its input: every command was tried, and
    failed but for that of the last line where it has taken the place of the shell. -/
def Ran (runs : Str → Bool) (attempts : List Str) (done rest : List Str) (result : State × Ending) : Prop :=
  result.1.attempts = attempts ++ commands done ∧ result.1.input = rest.flatten ∧
  match result.2 with
  | .exit => rest = [] ∧ ∀ path ∈ commands done, runs path = false
  | .replaced path => runs path = true ∧ ∃ before line, done = before ++ [line] ∧ commands [line] = [path] ∧
      ∀ b ∈ commands before, runs b = false

theorem commands_setting (setting : assignment.search (textOf line) = true) (lines : List Str) :
    commands (line :: lines) = commands lines := by
  simp [commands, setting]

theorem commands_command (command : assignment.search (textOf line) = false) (lines : List Str) :
    commands (line :: lines) = textOf line :: commands lines := by
  simp [commands, command]

theorem Ran.setting {attempts : List Str} {rest : List Str} {result : State × Ending}
    (setting : assignment.search (textOf line) = true) (ran : Ran runs attempts done rest result) :
    Ran runs attempts (line :: done) rest result := by
  obtain ⟨tried, left, ended⟩ := ran
  rw [Ran, commands_setting setting]
  refine ⟨tried, left, ?_⟩
  cases ending : result.2 with
  | exit =>
    simp only [ending] at ended ⊢
    exact ended
  | replaced path =>
    simp only [ending] at ended ⊢
    obtain ⟨success, before, last, split, same, others⟩ := ended
    refine ⟨success, line :: before, last, congrArg _ split, same, ?_⟩
    rwa [commands_setting setting]

theorem Ran.failed {attempts : List Str} {rest : List Str} {result : State × Ending}
    (command : assignment.search (textOf line) = false) (fails : runs (textOf line) = false)
    (ran : Ran runs (attempts ++ [textOf line]) done rest result) : Ran runs attempts (line :: done) rest result := by
  obtain ⟨tried, left, ended⟩ := ran
  rw [Ran, commands_command command]
  refine ⟨by rw [tried, List.append_assoc]; rfl, left, ?_⟩
  cases ending : result.2 with
  | exit =>
    simp only [ending] at ended ⊢
    exact ⟨ended.1, List.forall_mem_cons.mpr ⟨fails, ended.2⟩⟩
  | replaced path =>
    simp only [ending] at ended ⊢
    obtain ⟨success, before, last, split, same, others⟩ := ended
    refine ⟨success, line :: before, last, congrArg _ split, same, ?_⟩
    rw [commands_command command]
    exact List.forall_mem_cons.mpr ⟨fails, others⟩

theorem repl_lines (cut : Chunked ARG_MAX lines) (size : s.cmd.length = ARG_MAX + 1)
    (input : s.input = lines.flatten) (enough : lines.length < rounds) :
    ∃ result done rest, repl ARG_MAX runs rounds s = .ok result ∧ lines = done ++ rest ∧
      Ran runs s.attempts done rest result := by
  induction lines generalizing s rounds with
  | nil =>
    obtain ⟨rounds, rfl⟩ := Nat.exists_eq_succ_of_ne_zero (Nat.ne_of_gt enough)
    have ended : fgets (ARG_MAX + 1) s.input = none := by rw [input]; rfl
    refine ⟨(s, .exit), [], [], by rw [repl, ended], rfl, ?_, input, rfl, ?_⟩
    · exact (List.append_nil _).symm
    · intro path member
      cases member
  | cons line lines ih =>
    obtain ⟨rounds, rfl⟩ := Nat.exists_eq_succ_of_ne_zero (Nat.ne_zero_of_lt enough)
    have reads := cut.first rfl
    rw [← input] at reads
    have fits := cut.fits line List.mem_cons_self
    have room : line.length < s.cmd.length := by omega
    have stored : store s.cmd 0 (line ++ [NUL]) = some (line ++ NUL :: s.cmd.drop (line.length + 1)) :=
      store_line [] s.cmd room
    have parsed := parse_line runs line (s.cmd.drop (line.length + 1)) lines.flatten s.attempts
    have size' : (killNewline (line ++ NUL :: s.cmd.drop (line.length + 1))).length = ARG_MAX + 1 := by
      rw [killNewline_length]
      simp
      omega
    simp only [repl, reads, stored]
    by_cases setting : assignment.search (textOf line) = true
    · rw [if_pos setting] at parsed
      simp only [parsed]
      obtain ⟨result, done, rest, returned, split, ran⟩ :=
        @ih rounds ⟨_, lines.flatten, s.attempts⟩ cut.tail size' rfl (Nat.lt_of_succ_lt_succ enough)
      exact ⟨result, line :: done, rest, returned, congrArg _ split, ran.setting setting⟩
    · rw [if_neg setting] at parsed
      rw [Bool.not_eq_true] at setting
      simp only [parsed]
      by_cases success : runs (textOf line) = true
      · rw [if_pos success]
        have tries : commands [line] = [textOf line] := commands_command setting []
        exact ⟨_, [line], lines, rfl, rfl, by rw [tries], rfl, success, [], line, rfl, tries, by simp [commands]⟩
      · rw [if_neg success]
        rw [Bool.not_eq_true] at success
        obtain ⟨result, done, rest, returned, split, ran⟩ :=
          @ih rounds ⟨_, lines.flatten, s.attempts ++ [textOf line]⟩ cut.tail size' rfl (Nat.lt_of_succ_lt_succ enough)
        exact ⟨result, line :: done, rest, returned, congrArg _ split, ran.failed setting success⟩

/-- The shell of lab2 on any input: it hands each line that is no setting to `execv`, in order and without
    its newline, until one succeeds, which ends the shell; no line behind that is parsed. -/
theorem shell_runs_first (positive : 0 < ARG_MAX) (runs : Str → Bool) (input : Str) :
    ∃ lines, Chunked ARG_MAX lines ∧ lines.flatten = input ∧ ∀ rounds, lines.length < rounds →
      ∃ result done rest, repl ARG_MAX runs rounds (start ARG_MAX input) = .ok result ∧ lines = done ++ rest ∧
        Ran runs [] done rest result := by
  obtain ⟨lines, cut, rfl⟩ := exists_chunked positive input
  refine ⟨lines, cut, rfl, ?_⟩
  intro rounds enough
  exact repl_lines cut (by simp [start]) rfl enough

theorem shell_runs_first_ls : ∃ lines, Chunked 16 lines ∧ lines.flatten = "a=b\nls\npwd\n".toList ∧
    ∀ rounds, lines.length < rounds →
      ∃ result done rest, repl 16 (fun path => path.head? = some '/') rounds (start 16 "a=b\nls\npwd\n".toList) =
          .ok result ∧ lines = done ++ rest ∧
        Ran (fun path => path.head? = some '/') [] done rest result :=
  shell_runs_first (by decide) _ _

end OS2.Lab2
