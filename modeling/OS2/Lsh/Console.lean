import OS2.Lsh.Shell
import OS2.Text.Fgets

namespace OS2.Lsh.Console

open OS2.Text OS2.Loop OS2.Tokenise

inductive Fault where
  | overrun
  | line (e : Lsh.Fault)
  deriving DecidableEq, Repr

/-- The shell with the memory from the byte in front of `buffer` on, and with what is left on its
    standard input. -/
structure State where
  mem : List Char
  cmd : Nat
  input : Str
  shell : Shell
  deriving DecidableEq, Repr

def buffer : Nat := 1

/-- What a line that makes the shell `after` of `before` leaves of the standard input. A child of `external`
    shares it: it reads from it, and `exit(errno)` seeks it. -/
def leaves (child : Shell → Str → Str) (before after : Shell) (input : Str) : Str :=
  if (after.actions.drop before.actions.length).any isExternal then child after input else input

def parse (child : Shell → Str → Str) (fuel : Nat) (s : State) : Except (Stop Fault) State :=
  match trim s.mem s.cmd with
  | none => .error (.fault (.line .underrun))
  | some (mem, cmd) =>
    let text := cstr mem cmd
    let shell := if assignment.search text then assign fuel s.shell text else dispatch fuel s.shell text
    (shell.mapError (Stop.map .line)).map fun shell =>
      { mem, cmd := buffer, input := leaves child s.shell shell s.input, shell }

/-- `READ(cmd)` is given the size of the whole buffer, wherever `cmd` is. Where `halt` is called there is no
    next line. -/
def repl (child : Shell → Str → Str) (ARG_MAX fuel : Nat) : Nat → State → Except (Stop Fault) State
  | 0, _ => .error .fuel
  | rounds + 1, s =>
    match fgets (ARG_MAX + 1) s.input with
    | none => .ok s
    | some (line, input) =>
      match store s.mem s.cmd (line ++ [NUL]) with
      | none => .error (.fault .overrun)
      | some mem => do
        let s ← parse child fuel { s with mem := mem, input := input }
        if s.shell.running then repl child ARG_MAX fuel rounds s else .ok s

def start (ARG_MAX : Nat) (below : Char) (input : Str) : State :=
  { mem := below :: List.replicate (ARG_MAX + 1) NUL, cmd := buffer, input := input, shell := init }

/-- No child touches the standard input. -/
def Untouched (child : Shell → Str → Str) : Prop := ∀ shell input, child shell input = input

section Stale

variable {mem post : List Char} {a p : Nat}

theorem eraseSpace_append (post : List Char) (bound : a ≤ mem.length) :
    eraseSpace (mem ++ post) a = (eraseSpace mem a).map (· ++ post) := by
  induction a generalizing mem with
  | zero => rfl
  | succ a ih =>
    have here : (mem ++ post).getD a NUL = mem.getD a NUL := by
      rw [List.getD_eq_getElem?_getD, List.getD_eq_getElem?_getD, List.getElem?_append_left bound]
    rw [eraseSpace, eraseSpace, here]
    split
    · rw [List.set_append_left _ _ bound, ih (by rw [List.length_set]; omega)]
    · rfl

theorem eraseSpace_length {mem' : List Char} (erased : eraseSpace mem a = some mem') : mem'.length = mem.length := by
  induction a generalizing mem with
  | zero => cases erased
  | succ a ih =>
    rw [eraseSpace] at erased
    split at erased
    · rw [ih erased, List.length_set]
    · rw [Option.some.inj erased]

theorem eraseSpace_NUL {mem' : List Char} (erased : eraseSpace mem a = some mem') (nul : mem[p]? = some NUL) :
    mem'[p]? = some NUL := by
  induction a generalizing mem with
  | zero => cases erased
  | succ a ih =>
    rw [eraseSpace] at erased
    split at erased
    · apply ih erased
      rw [List.getElem?_set]
      split
      · rename_i same
        subst same
        rw [if_pos (List.getElem?_eq_some_iff.mp nul).1]
      · exact nul
    · rw [← Option.some.inj erased]
      exact nul

theorem skipSpace_append (nul : NUL ∈ mem) (post : List Char) (i : Nat) :
    skipSpace (mem ++ post) i = skipSpace mem i := by
  induction mem generalizing i with
  | nil => cases nul
  | cons c mem ih =>
    rw [List.cons_append, skipSpace, skipSpace]
    split
    · rename_i white
      exact ih ((List.mem_cons.mp nul).resolve_left (Ne.symm (ne_NUL_of_isspace white))) _
    · rfl

theorem skipSpace_le (nul : mem[p]? = some NUL) (i : Nat) : skipSpace mem i ≤ i + p := by
  induction mem generalizing i p with
  | nil => cases nul
  | cons c mem ih =>
    rw [skipSpace]
    split
    · rename_i white
      cases p with
      | zero => exact absurd (Option.some.inj nul) (ne_NUL_of_isspace white)
      | succ p =>
        have walked := ih nul (i + 1)
        omega
    · omega

theorem eraseSpace_head {mem' : List Char} (erased : eraseSpace mem a = some mem') : mem'.head? = mem.head? := by
  induction a generalizing mem with
  | zero => cases erased
  | succ a ih =>
    rw [eraseSpace] at erased
    split at erased
    · cases a with
      | zero => cases erased
      | succ a =>
        rw [ih erased]
        cases mem <;> rfl
    · rw [Option.some.inj erased]

theorem NUL_mem_drop (nul : mem[p]? = some NUL) (before : a ≤ p) : NUL ∈ mem.drop a := by
  apply List.mem_of_getElem? (i := p - a)
  rw [List.getElem?_drop, Nat.add_sub_cancel' before]
  exact nul

theorem cstr_append_NUL (nul : mem[p]? = some NUL) (before : a ≤ p) (post : List Char) :
    cstr (mem ++ post) a = cstr mem a := by
  have bound := (List.getElem?_eq_some_iff.mp nul).1
  have inside := NUL_mem_drop nul before
  rw [cstr, cstr, List.drop_append_of_le_length (by omega), List.takeWhile_append, if_neg]
  intro all
  have kept := (List.takeWhile_prefix _).eq_of_length all
  rw [List.takeWhile_eq_self_iff] at kept
  simpa using kept NUL inside

theorem trim_append (nul : mem[p]? = some NUL) (before : a ≤ p) (post : List Char) :
    trim (mem ++ post) a = (trim mem a).map fun trimmed => (trimmed.1 ++ post, trimmed.2) := by
  have bound := (List.getElem?_eq_some_iff.mp nul).1
  have inside := NUL_mem_drop nul before
  have length : a + (cstr mem a).length ≤ mem.length := by
    have shorter := (List.takeWhile_prefix (p := (· != NUL)) (l := mem.drop a)).length_le
    rw [List.length_drop] at shorter
    rw [cstr]
    omega
  simp only [trim, cstr_append_NUL nul before, eraseSpace_append post length,
    List.drop_append_of_le_length (Nat.le_trans before (Nat.le_of_lt bound)), skipSpace_append inside, Option.map_map]
  rfl

theorem trim_keeps {mem' : List Char} {start : Nat} (trimmed : trim mem a = some (mem', start))
    (nul : mem[p]? = some NUL) (before : a ≤ p) :
    mem'.length = mem.length ∧ mem'.head? = mem.head? ∧ mem'[p]? = some NUL ∧ start ≤ p := by
  obtain ⟨cleared, erased, same⟩ := Option.map_eq_some_iff.mp trimmed
  obtain ⟨rfl, rfl⟩ := Prod.ext_iff.mp same
  refine ⟨eraseSpace_length erased, eraseSpace_head erased, eraseSpace_NUL erased nul, ?_⟩
  have walked : skipSpace (mem.drop a) a ≤ a + (p - a) := by
    apply skipSpace_le
    rw [List.getElem?_drop, Nat.add_sub_cancel' before]
    exact nul
  show skipSpace (mem.drop a) a ≤ p
  omega

end Stale

structure Ready (ARG_MAX : Nat) (below : Char) (s : State) : Prop where
  size : s.mem.length = ARG_MAX + 2
  below : s.mem.head? = some below
  cmd : s.cmd = buffer

variable {ARG_MAX fuel rounds : Nat} {below : Char} {s : State} {line input : Str} {lines : List Str}
  {child : Shell → Str → Str}

theorem Untouched.leaves (untouched : Untouched child) (before after : Shell) (input : Str) :
    leaves child before after input = input := by
  rw [Console.leaves]
  split
  · exact untouched after input
  · rfl

theorem start_ready (ARG_MAX : Nat) (below : Char) (input : Str) : Ready ARG_MAX below (start ARG_MAX below input) :=
  ⟨by simp [start], rfl, rfl⟩

theorem Ready.store (ready : Ready ARG_MAX below s) (fits : line.length ≤ ARG_MAX) :
    ∃ stale, store s.mem s.cmd (line ++ [NUL]) = some (below :: (line ++ [NUL]) ++ stale) ∧
      (below :: (line ++ [NUL]) ++ stale).length = ARG_MAX + 2 := by
  have size := ready.size
  have first := ready.below
  cases shape : s.mem with
  | nil =>
    rw [shape] at size
    cases size
  | cons c rest =>
    rw [shape] at size first
    obtain rfl : c = below := Option.some.inj first
    rw [List.length_cons] at size
    refine ⟨rest.drop (line.length + 1), ?_, ?_⟩
    · have stored := store_line [c] rest (show line.length < rest.length by omega)
      rw [ready.cmd]
      simpa [buffer] using stored
    · simp
      omega

theorem parse_line (untouched : Untouched child) {stale : List Char} (shape : s.mem = below :: (line ++ [NUL]) ++ stale)
    (size : s.mem.length = ARG_MAX + 2) (cmd : s.cmd = buffer) :
    match Lsh.parse fuel below s.shell line with
    | .ok shell => ∃ s', parse child fuel s = .ok s' ∧ Ready ARG_MAX below s' ∧ s'.input = s.input ∧ s'.shell = shell
    | .error stop => parse child fuel s = .error (stop.map .line) := by
  have nul : (below :: (line ++ [NUL]))[line.length + 1]? = some NUL := by simp
  have before : 1 ≤ line.length + 1 := by omega
  have trims := trim_append nul before stale
  have head : (below :: (line ++ [NUL])).head? = some below := rfl
  simp only [Lsh.parse, trimLine, parse, shape, cmd, buffer, trims]
  cases trimmed : trim (below :: (line ++ [NUL])) 1 with
  | none => rfl
  | some result =>
    obtain ⟨mem, start⟩ := result
    obtain ⟨length, first, ended, reached⟩ := trim_keeps trimmed nul before
    rw [head] at first
    simp only [Option.map_some, cstr_append_NUL ended reached]
    have kept : ∀ input shell, Ready ARG_MAX below ⟨mem ++ stale, buffer, input, shell⟩ := by
      intro input shell
      refine ⟨?_, ?_, rfl⟩
      · rw [← size, shape, List.length_append, List.length_append, length]
      · cases mem with
        | nil => cases first
        | cons c mem => exact first
    generalize (if assignment.search (cstr mem start) = true then assign fuel s.shell (cstr mem start)
      else dispatch fuel s.shell (cstr mem start)) = returned
    cases returned with
    | error stop => rfl
    | ok shell => exact ⟨_, rfl, kept _ shell, untouched.leaves _ _ _, rfl⟩

/-- What `repl` has come to, seen from the lines: those in `done` are parsed, those in `rest` not read. -/
def Agrees (fuel : Nat) (below : Char) (shell : Shell) (done rest : List Str) : Except (Stop Fault) State → Prop
  | .ok s => Lsh.repl fuel below shell done = .ok s.shell ∧ s.input = rest.flatten ∧
      (rest = [] ∨ s.shell.running = false)
  | .error (.fault .overrun) => False
  | .error (.fault (.line e)) => Lsh.repl fuel below shell done = .error (.fault e)
  | .error .fuel => Lsh.repl fuel below shell done = .error .fuel

theorem Agrees.cons {shell shell' : Shell} {done rest : List Str} {result : Except (Stop Fault) State}
    (running : shell.running = true) (parsed : Lsh.parse fuel below shell line = .ok shell')
    (agrees : Agrees fuel below shell' done rest result) : Agrees fuel below shell (line :: done) rest result := by
  have step : Lsh.repl fuel below shell (line :: done) = Lsh.repl fuel below shell' done := by
    rw [Lsh.repl, if_pos running, parsed]
    rfl
  cases result with
  | ok s => exact ⟨step.trans agrees.1, agrees.2⟩
  | error stop =>
    cases stop with
    | fuel => exact step.trans agrees
    | fault e =>
      cases e with
      | overrun => exact agrees
      | line e => exact step.trans agrees

theorem repl_line (untouched : Untouched child) (cut : Chunked ARG_MAX (line :: lines)) (ready : Ready ARG_MAX below s)
    (input : s.input = (line :: lines).flatten) (rounds : Nat) :
    match Lsh.parse fuel below s.shell line with
    | .ok shell => ∃ s', Ready ARG_MAX below s' ∧ s'.input = lines.flatten ∧ s'.shell = shell ∧
        repl child ARG_MAX fuel (rounds + 1) s = if shell.running then repl child ARG_MAX fuel rounds s' else .ok s'
    | .error stop => repl child ARG_MAX fuel (rounds + 1) s = .error (stop.map .line) := by
  have reads := cut.first rfl
  rw [← input] at reads
  obtain ⟨stale, stored, size⟩ := ready.store (cut.fits line List.mem_cons_self)
  have parsed := @parse_line ARG_MAX fuel below
    { s with mem := below :: (line ++ [NUL]) ++ stale, input := lines.flatten } line child untouched stale rfl size
    ready.cmd
  rw [repl, reads]
  simp only [stored]
  cases returned : Lsh.parse fuel below s.shell line with
  | error stop =>
    simp only [returned] at parsed
    simp only [parsed, Bind.bind, Except.bind]
  | ok shell =>
    simp only [returned] at parsed
    obtain ⟨s', parsed, ready', input', rfl⟩ := parsed
    simp only [parsed, Bind.bind, Except.bind]
    exact ⟨s', ready', input', rfl, rfl⟩

theorem repl_lines (untouched : Untouched child) (cut : Chunked ARG_MAX lines) (ready : Ready ARG_MAX below s)
    (input : s.input = lines.flatten)
    (running : s.shell.running = true) (enough : lines.length < rounds) :
    ∃ done rest, lines = done ++ rest ∧
      Agrees fuel below s.shell done rest (repl child ARG_MAX fuel rounds s) := by
  induction lines generalizing s rounds with
  | nil =>
    obtain ⟨rounds, rfl⟩ := Nat.exists_eq_succ_of_ne_zero (Nat.ne_of_gt enough)
    have ended : fgets (ARG_MAX + 1) s.input = none := by rw [input]; rfl
    refine ⟨[], [], rfl, ?_⟩
    rw [repl, ended]
    exact ⟨rfl, input, .inl rfl⟩
  | cons line lines ih =>
    obtain ⟨rounds, rfl⟩ := Nat.exists_eq_succ_of_ne_zero (Nat.ne_zero_of_lt enough)
    have passage := @repl_line _ fuel _ _ _ _ _ untouched cut ready input rounds
    cases returned : Lsh.parse fuel below s.shell line with
    | error stop =>
      simp only [returned] at passage
      refine ⟨[line], lines, rfl, ?_⟩
      have stops : Lsh.repl fuel below s.shell [line] = .error stop := by
        rw [Lsh.repl, if_pos running, returned]
        rfl
      rw [passage]
      cases stop with
      | fuel => exact stops
      | fault e => exact stops
    | ok shell =>
      simp only [returned] at passage
      obtain ⟨s', ready', input', rfl, goesOn⟩ := passage
      rw [goesOn]
      by_cases again : s'.shell.running = true
      · rw [if_pos again]
        obtain ⟨done, rest, split, agrees⟩ := ih cut.tail ready' input' again (Nat.lt_of_succ_lt_succ enough)
        exact ⟨line :: done, rest, congrArg (line :: ·) split, agrees.cons running returned⟩
      · rw [if_neg again]
        refine ⟨[line], lines, rfl, ?_⟩
        have last : Lsh.repl fuel below s.shell [line] = .ok s'.shell := by
          rw [Lsh.repl, if_pos running, returned]
          rfl
        exact ⟨last, input', .inr (by simpa using again)⟩

/-- The shell on a stream of characters that no child touches is the shell on the lines that `fgets` cuts it
    into, of which there is one list only: no byte is written behind `buffer`, and no line sees what earlier
    ones have left in it. Lines are left over only where `halt`, a crash or a hang ends it. -/
theorem console_runs_lines (untouched : Untouched child) (positive : 0 < ARG_MAX) (fuel : Nat) (below : Char)
    (input : Str) : ∃ lines, Chunked ARG_MAX lines ∧ lines.flatten = input ∧
      (∀ other, Chunked ARG_MAX other → other.flatten = input → other = lines) ∧
      ∀ rounds, lines.length < rounds → ∃ done rest, lines = done ++ rest ∧
        Agrees fuel below init done rest (repl child ARG_MAX fuel rounds (start ARG_MAX below input)) := by
  obtain ⟨lines, cut, rfl⟩ := exists_chunked positive input
  refine ⟨lines, cut, rfl, ?_, ?_⟩
  · intro other cut' same
    exact cut'.unique cut same
  · intro rounds enough
    exact repl_lines untouched cut (start_ready ARG_MAX below lines.flatten) rfl rfl enough

theorem console_runs_lines_halt : ∃ lines, Chunked 16 lines ∧ lines.flatten = "exit\nls\n".toList ∧
    (∀ other, Chunked 16 other → other.flatten = "exit\nls\n".toList → other = lines) ∧
    ∀ rounds, lines.length < rounds → ∃ done rest, lines = done ++ rest ∧
      Agrees 60 NUL init done rest (repl (fun _ input => input) 16 60 rounds (start 16 NUL "exit\nls\n".toList)) :=
  console_runs_lines (fun _ _ => rfl) (by decide) 60 NUL "exit\nls\n".toList

end OS2.Lsh.Console
