import OS2.Machine.Runs
import OS2.Pipeline.Wiring

namespace OS2.Pipeline.Flow

open OS2.Text OS2.Posix OS2.Machine

/-- What a command asks of the system next. `begun` marks the rest of a `write` that was too long for
    the pipe. -/
inductive Request where
  | read (fd : Nat)
  | write (fd : Nat) (data : List UInt8) (begun : Bool)
  | close (fd : Nat)
  | dup2 (old new : Nat)
  | exit
  deriving DecidableEq, Repr

structure Pipe where
  buffer : List UInt8
  written : List UInt8
  taken : List UInt8
  deriving DecidableEq, Repr

structure Limits where
  capacity : Nat
  atomic : Nat
  positive : 0 < atomic
  fits : atomic ≤ capacity

variable {α : Type}

/-- The commands of a pipeline behind their `execl`, by their places; one that has terminated has no
    table any more. -/
structure State (α : Type) where
  table : Nat → Option (Descriptors α)
  request : Nat → Request
  pipe : Nat → Pipe

def start (execs : List (Exec α)) (request : Nat → Request) : State α :=
  { table := fun k => execs[k]?.map Exec.table, request := request, pipe := fun _ => ⟨[], [], []⟩ }

def State.ask (s : State α) (k : Nat) (next : Request) : State α :=
  { s with request := Function.update s.request k next }

def State.setTable (s : State α) (k : Nat) (table : Option (Descriptors α)) : State α :=
  { s with table := Function.update s.table k table }

def State.setPipe (s : State α) (p : Nat) (pipe : Pipe) : State α :=
  { s with pipe := Function.update s.pipe p pipe }

def State.Holds (s : State α) (object : Object α) : Prop :=
  ∃ k table fd, s.table k = some table ∧ table.entry fd = some object

def Pipe.take (pipe : Pipe) (part rest : List UInt8) : Pipe :=
  { pipe with buffer := rest, taken := pipe.taken ++ part }

def Pipe.put (pipe : Pipe) (part : List UInt8) : Pipe :=
  { pipe with buffer := pipe.buffer ++ part, written := pipe.written ++ part }

/-- What the request of the `k`-th command leads to. A command is one process, which asks for anything behind it
    and keeps its descriptors to itself. What is no end of a pipe does not block. -/
inductive Step (limits : Limits) (k : Nat) (s : State α) : State α → Prop where
  | read {table : Descriptors α} {fd p : Nat} {part rest : List UInt8} (next : Request)
      (running : s.table k = some table) (asks : s.request k = .read fd)
      (end' : table.entry fd = some (.readEnd p)) (content : (s.pipe p).buffer = part ++ rest) (some : part ≠ []) :
      Step limits k s ((s.setPipe p ((s.pipe p).take part rest)).ask k next)
  | eof {table : Descriptors α} {fd p : Nat} (next : Request)
      (running : s.table k = some table) (asks : s.request k = .read fd)
      (end' : table.entry fd = some (.readEnd p)) (empty : (s.pipe p).buffer = [])
      (unwritten : ¬ s.Holds (.writeEnd p)) : Step limits k s (s.ask k next)
  | readOther {table : Descriptors α} {fd : Nat} (next : Request)
      (running : s.table k = some table) (asks : s.request k = .read fd)
      (other : ∀ p, table.entry fd ≠ some (.readEnd p)) : Step limits k s (s.ask k next)
  | write {table : Descriptors α} {fd p : Nat} {data part rest : List UInt8} {begun : Bool} (next : Request)
      (running : s.table k = some table) (asks : s.request k = .write fd data begun)
      (end' : table.entry fd = some (.writeEnd p)) (read : s.Holds (.readEnd p)) (parts : data = part ++ rest)
      (some : part = [] → data = []) (undivided : begun = false → data.length ≤ limits.atomic → rest = [])
      (room : (s.pipe p).buffer.length + part.length ≤ limits.capacity) :
      Step limits k s ((s.setPipe p ((s.pipe p).put part)).ask k (if rest = [] then next else .write fd rest true))
  | sigpipe {table : Descriptors α} {fd p : Nat} {data : List UInt8} {begun : Bool}
      (running : s.table k = some table) (asks : s.request k = .write fd data begun)
      (end' : table.entry fd = some (.writeEnd p)) (unread : ¬ s.Holds (.readEnd p)) :
      Step limits k s (s.setTable k none)
  | epipe {table : Descriptors α} {fd p : Nat} {data : List UInt8} {begun : Bool} (next : Request)
      (running : s.table k = some table) (asks : s.request k = .write fd data begun)
      (end' : table.entry fd = some (.writeEnd p)) (unread : ¬ s.Holds (.readEnd p)) : Step limits k s (s.ask k next)
  | writeOther {table : Descriptors α} {fd : Nat} {data : List UInt8} {begun : Bool} (next : Request)
      (running : s.table k = some table) (asks : s.request k = .write fd data begun)
      (other : ∀ p, table.entry fd ≠ some (.writeEnd p)) : Step limits k s (s.ask k next)
  | close {table : Descriptors α} {fd : Nat} (next : Request)
      (running : s.table k = some table) (asks : s.request k = .close fd) :
      Step limits k s ((s.setTable k (some (table.close fd))).ask k next)
  | dup2 {table : Descriptors α} {old new : Nat} (next : Request)
      (running : s.table k = some table) (asks : s.request k = .dup2 old new) :
      Step limits k s ((s.setTable k (some (table.dup2 old new))).ask k next)
  | exit {table : Descriptors α} (running : s.table k = some table) (asks : s.request k = .exit) :
      Step limits k s (s.setTable k none)

def Steps (limits : Limits) (s t : State α) : Prop := ∃ k, Step limits k s t

def Straight (k : Nat) (table : Descriptors α) : Prop :=
  ∀ fd p, (table.entry fd = some (.readEnd p) → k = p + 1) ∧ (table.entry fd = some (.writeEnd p) → k = p)

def Pipe.Kept (limits : Limits) (pipe : Pipe) : Prop :=
  pipe.taken ++ pipe.buffer = pipe.written ∧ pipe.buffer.length ≤ limits.capacity

structure Sound (limits : Limits) (count : Nat) (s : State α) : Prop where
  straight : ∀ k table, s.table k = some table → k < count ∧ Straight k table
  kept : ∀ p, (s.pipe p).Kept limits

variable {limits : Limits} {count k p : Nat} {s t : State α} {table : Descriptors α}

theorem Straight.close (straight : Straight k table) (fd : Nat) : Straight k (table.close fd) := by
  intro other p
  rw [Table.entry_close]
  split
  · simp
  · exact straight other p

theorem Straight.dup2 (straight : Straight k table) (old new : Nat) : Straight k (table.dup2 old new) := by
  cases found : table.entry old with
  | none => simpa only [Table.dup2, found] using straight
  | some object =>
    rw [Table.dup2_open found]
    intro other p
    rw [Table.entry_assign]
    split
    · have moved := straight old p
      rwa [found] at moved
    · exact straight other p

theorem Pipe.Kept.take {pipe : Pipe} {part rest : List UInt8} (kept : pipe.Kept limits)
    (content : pipe.buffer = part ++ rest) : (pipe.take part rest).Kept limits := by
  obtain ⟨order, bound⟩ := kept
  rw [content] at order bound
  refine ⟨?_, ?_⟩
  · simpa [Pipe.take] using order
  · rw [List.length_append] at bound
    simp only [Pipe.take]
    omega

theorem Pipe.Kept.put {pipe : Pipe} {part : List UInt8} (kept : pipe.Kept limits)
    (room : pipe.buffer.length + part.length ≤ limits.capacity) : (pipe.put part).Kept limits := by
  refine ⟨?_, by simpa [Pipe.put] using room⟩
  rw [Pipe.put, ← List.append_assoc, kept.1]

theorem Sound.ask (sound : Sound limits count s) (next : Request) : Sound limits count (s.ask k next) :=
  ⟨sound.straight, sound.kept⟩

theorem Sound.setPipe {pipe : Pipe} (sound : Sound limits count s) (kept : pipe.Kept limits) :
    Sound limits count (s.setPipe p pipe) := by
  refine ⟨sound.straight, ?_⟩
  intro q
  by_cases same : q = p
  · simpa [State.setPipe, same] using kept
  · simpa [State.setPipe, same] using sound.kept q

theorem Sound.exits (sound : Sound limits count s) : Sound limits count (s.setTable k none) := by
  refine ⟨?_, sound.kept⟩
  intro j table running
  by_cases same : j = k
  · simp [State.setTable, same] at running
  · exact sound.straight j table (by simpa [State.setTable, same] using running)

theorem Sound.setTable {table' : Descriptors α} (sound : Sound limits count s) (running : s.table k = some table)
    (straight : Straight k table → Straight k table') : Sound limits count (s.setTable k (some table')) := by
  refine ⟨?_, sound.kept⟩
  intro j other runs
  by_cases same : j = k
  · subst same
    obtain rfl : table' = other := by simpa [State.setTable] using runs
    obtain ⟨inside, before⟩ := sound.straight j table running
    exact ⟨inside, straight before⟩
  · exact sound.straight j other (by simpa [State.setTable, same] using runs)

theorem sound_step (sound : Sound limits count s) (step : Step limits k s t) : Sound limits count t := by
  cases step with
  | read next running asks end' content some => exact (sound.setPipe ((sound.kept _).take content)).ask next
  | eof next running asks end' empty unwritten => exact sound.ask next
  | readOther next running asks other => exact sound.ask next
  | write next running asks end' read parts some undivided room =>
    exact (sound.setPipe ((sound.kept _).put room)).ask _
  | sigpipe running asks end' unread => exact sound.exits
  | epipe next running asks end' unread => exact sound.ask next
  | writeOther next running asks other => exact sound.ask next
  | close next running asks => exact (sound.setTable running fun straight => straight.close _).ask next
  | dup2 next running asks => exact (sound.setTable running fun straight => straight.dup2 _ _).ask next
  | exit running asks => exact sound.exits

def Built (initial : Table α) (cmds : List Str) (execs : List (Exec α)) : Prop :=
  (∃ main, Direct.main cmds (initial.map .initial) = some main ∧ main.children = execs) ∨
    ∃ parent, Nested.main cmds (initial.map .initial) = some (execs, parent)

section Runs

variable {initial : Table α} {cmds : List Str} {execs : List (Exec α)} {request : Nat → Request}

theorem standard_map (standard : Standard initial) : Standard (initial.map (@Object.initial α)) := by
  intro fd bound
  simpa using standard fd bound

theorem built_pipeline (standard : Standard initial) (several : 2 ≤ cmds.length) :
    Built initial cmds (pipeline (initial.map .initial) cmds) := by
  obtain ⟨main, ran, _, children⟩ := Direct.main_pipeline (standard_map standard) several
  exact .inl ⟨main, ran, children⟩

theorem Built.wired (standard : Standard initial) (several : 2 ≤ cmds.length) (built : Built initial cmds execs) :
    Wired initial cmds execs (initial.map .initial) := by
  have same : execs = pipeline (initial.map .initial) cmds := by
    rcases built with ⟨main, direct, rfl⟩ | ⟨parent, nested⟩
    · obtain ⟨s, ran, _, children⟩ := Direct.main_pipeline (standard_map standard) several
      rw [ran] at direct
      cases direct
      exact children
    · rw [Nested.main_pipeline (standard_map standard) several] at nested
      cases nested
      rfl
  rw [same]
  exact wired_pipeline initial cmds

theorem straight_wired {parent : Descriptors α} (wired : Wired initial cmds execs parent) {exec : Exec α}
    (found : execs[k]? = some exec) : Straight k exec.table := by
  have stdin := wired.stdin k exec found
  have stdout := wired.stdout k exec found
  intro fd p
  by_cases input : fd = STDIN_FILENO
  · rw [input, stdin]
    cases k with
    | zero => cases initial.entry STDIN_FILENO <;> simp
    | succ k => simp
  by_cases output : fd = STDOUT_FILENO
  · rw [output, stdout]
    split
    · cases initial.entry STDOUT_FILENO <;> simp
    · simp
  · rw [wired.others k exec found fd input output]
    cases initial.entry fd <;> simp

theorem sound_start {parent : Descriptors α} (wired : Wired initial cmds execs parent) :
    Sound limits cmds.length (start execs request) := by
  refine ⟨?_, fun p => ⟨rfl, Nat.zero_le _⟩⟩
  intro k table running
  obtain ⟨exec, found, rfl⟩ := Option.map_eq_some_iff.mp running
  have same : execs.length = cmds.length := by
    rw [← wired.commands, List.length_map]
  obtain ⟨inside, _⟩ := List.getElem?_eq_some_iff.mp found
  exact ⟨by omega, straight_wired wired found⟩

theorem sound_of_reachable (standard : Standard initial) (several : 2 ≤ cmds.length)
    (built : Built initial cmds execs) (run : Reachable (Steps limits) (start execs request) s) :
    Sound limits cmds.length s :=
  run.invariant (sound_start (built.wired standard several)) fun _ _ sound ⟨_, step⟩ => sound_step sound step

end Runs

theorem Holds.of_setTable {object : Object α} {table' : Descriptors α} (running : s.table k = some table)
    (from' : ∀ fd, table'.entry fd = some object → ∃ fd', table.entry fd' = some object)
    (holds : (s.setTable k (some table')).Holds object) : s.Holds object := by
  obtain ⟨j, other, fd, runs, opened⟩ := holds
  by_cases same : j = k
  · subst same
    obtain rfl : table' = other := by simpa [State.setTable] using runs
    obtain ⟨fd', before⟩ := from' fd opened
    exact ⟨j, table, fd', running, before⟩
  · exact ⟨j, other, fd, by simpa [State.setTable, same] using runs, opened⟩

theorem Holds.of_exit {object : Object α} (holds : (s.setTable k none).Holds object) : s.Holds object := by
  obtain ⟨j, other, fd, runs, opened⟩ := holds
  by_cases same : j = k
  · simp [State.setTable, same] at runs
  · exact ⟨j, other, fd, by simpa [State.setTable, same] using runs, opened⟩

theorem holds_step {object : Object α} (step : Step limits k s t) (holds : t.Holds object) : s.Holds object := by
  cases step with
  | read next running asks end' content some => exact holds
  | eof next running asks end' empty unwritten => exact holds
  | readOther next running asks other => exact holds
  | write next running asks end' read parts some undivided room => exact holds
  | sigpipe running asks end' unread => exact Holds.of_exit holds
  | epipe next running asks end' unread => exact holds
  | writeOther next running asks other => exact holds
  | close next running asks =>
    refine Holds.of_setTable running ?_ holds
    intro fd opened
    rw [Table.entry_close] at opened
    split at opened
    · cases opened
    · exact ⟨fd, opened⟩
  | @dup2 table old new next running asks =>
    refine Holds.of_setTable running ?_ holds
    intro fd opened
    cases found : table.entry old with
    | none => exact ⟨fd, by simpa only [Table.dup2, found] using opened⟩
    | some moved =>
      rw [Table.dup2_open found, Table.entry_assign] at opened
      split at opened
      · exact ⟨old, by rw [found, opened]⟩
      · exact ⟨fd, opened⟩
  | exit running asks => exact Holds.of_exit holds

def State.Opens (s : State α) (k : Nat) (object : Object α) : Prop :=
  ∃ table fd, s.table k = some table ∧ table.entry fd = some object

theorem pipe_step (step : Step limits k s t) (p : Nat) :
    t.pipe p = s.pipe p ∨
    (s.Opens k (.readEnd p) ∧
      ∃ part rest, part ≠ [] ∧ (s.pipe p).buffer = part ++ rest ∧ t.pipe p = (s.pipe p).take part rest) ∨
    (s.Opens k (.writeEnd p) ∧ ∃ part, t.pipe p = (s.pipe p).put part) := by
  cases step with
  | @read table fd q part rest next running asks end' content some =>
    by_cases same : p = q
    · subst same
      exact .inr (.inl ⟨⟨table, fd, running, end'⟩, part, rest, some, content, by simp [State.ask, State.setPipe]⟩)
    · exact .inl (by simp [State.ask, State.setPipe, same])
  | @write table fd q data part rest begun next running asks end' read parts some undivided room =>
    by_cases same : p = q
    · subst same
      exact .inr (.inr ⟨⟨table, fd, running, end'⟩, part, by simp [State.ask, State.setPipe]⟩)
    · exact .inl (by simp [State.ask, State.setPipe, same])
  | eof next running asks end' empty unwritten => exact .inl rfl
  | readOther next running asks other => exact .inl rfl
  | sigpipe running asks end' unread => exact .inl rfl
  | epipe next running asks end' unread => exact .inl rfl
  | writeOther next running asks other => exact .inl rfl
  | close next running asks => exact .inl rfl
  | dup2 next running asks => exact .inl rfl
  | exit running asks => exact .inl rfl

theorem pipe_stays (unwritten : ¬ s.Holds (.writeEnd p)) (empty : (s.pipe p).buffer = [])
    (run : Reachable (Steps limits) s t) : ¬ t.Holds (.writeEnd p) ∧ t.pipe p = s.pipe p := by
  have first : ¬ s.Holds (.writeEnd p) ∧ s.pipe p = s.pipe p := ⟨unwritten, rfl⟩
  apply run.invariant first
  intro t u before step
  obtain ⟨none, same⟩ := before
  obtain ⟨k, step⟩ := step
  refine ⟨fun holds => none (holds_step step holds), ?_⟩
  rcases pipe_step step p with still | ⟨_, part, rest, some, content, _⟩ | ⟨⟨table, fd, running, opened⟩, _⟩
  · rw [still, same]
  · rw [same, empty] at content
    exact absurd (List.append_eq_nil_iff.mp content.symm).1 some
  · exact absurd ⟨k, table, fd, running, opened⟩ none

/-- In every run of a pipeline, whatever its commands do with their descriptors: what a command writes
    into its pipe comes out of it in the same order, each byte once; only the two neighbours write and
    read it; and where a reader is told that the file has ended, it has read all that will ever be
    written. -/
theorem pipeline_delivers {initial : Table α} (standard : Standard initial) {cmds : List Str}
    (several : 2 ≤ cmds.length) {execs : List (Exec α)} (built : Built initial cmds execs)
    {request : Nat → Request} (run : Reachable (Steps limits) (start execs request) s) :
    (∀ p, (s.pipe p).taken ++ (s.pipe p).buffer = (s.pipe p).written) ∧
    (∀ k p t, Step limits k s t → ((t.pipe p).written ≠ (s.pipe p).written → k = p) ∧
      ((t.pipe p).taken ≠ (s.pipe p).taken → k = p + 1)) ∧
    (∀ p, s.table p = none → ¬ s.Holds (.writeEnd p)) ∧
    ∀ p, ¬ s.Holds (.writeEnd p) → (s.pipe p).buffer = [] →
      ∀ t, Reachable (Steps limits) s t → (t.pipe p).written = (s.pipe p).taken := by
  have sound := sound_of_reachable standard several built run
  refine ⟨fun p => (sound.kept p).1, ?_, ?_, ?_⟩
  · intro k p t step
    rcases pipe_step step p with still | ⟨⟨table, fd, running, opened⟩, part, rest, _, _, taken⟩ |
        ⟨⟨table, fd, running, opened⟩, part, put⟩
    · simp [still]
    · have own := ((sound.straight k table running).2 fd p).1 opened
      exact ⟨fun changed => absurd (by rw [taken]; rfl) changed, fun _ => own⟩
    · have own := ((sound.straight k table running).2 fd p).2 opened
      exact ⟨fun _ => own, fun changed => absurd (by rw [put]; rfl) changed⟩
  · intro p gone holds
    obtain ⟨k, table, fd, running, opened⟩ := holds
    obtain rfl := ((sound.straight k table running).2 fd p).2 opened
    rw [gone] at running
    cases running
  · intro p unwritten empty t later
    have order := (sound.kept p).1
    rw [(pipe_stays unwritten empty later).2, ← order, empty, List.append_nil]

def PIPE_BUF : Limits := { capacity := 65536, atomic := 4096, positive := by decide, fits := by decide }

def unameWc : List (Exec String) := pipeline (terminal.map .initial) ["uname".toList, "wc".toList]

theorem standard_terminal : Standard terminal := fun fd bound => by simp [terminal, bound]

theorem built_unameWc : Built terminal ["uname".toList, "wc".toList] unameWc :=
  built_pipeline standard_terminal (Nat.le_refl 2)

theorem two_le : 2 ≤ ["uname".toList, "wc".toList].length := Nat.le_refl 2

theorem pipeline_delivers_byte : ∃ s,
    Reachable (Steps PIPE_BUF) (start unameWc fun k => if k = 0 then .write 1 [65] false else .read 0) s ∧
    (s.pipe 0).written = [65] ∧ (s.pipe 0).taken ++ (s.pipe 0).buffer = (s.pipe 0).written := by
  have writes : Step PIPE_BUF 0 (start unameWc fun k => if k = 0 then .write 1 [65] false else .read 0) _ :=
    .write .exit rfl rfl (show _ = some (Object.writeEnd 0) from rfl)
      ⟨1, _, 0, rfl, show _ = some (Object.readEnd 0) from rfl⟩ (List.append_nil [65]).symm (by simp) (fun _ _ => rfl)
      (show 0 + 1 ≤ 65536 by decide)
  have moved : Steps PIPE_BUF _ _ := ⟨0, writes⟩
  have run := Reachable.refl.next moved
  exact ⟨_, run, rfl, (pipeline_delivers standard_terminal two_le built_unameWc run).1 0⟩

end OS2.Pipeline.Flow
