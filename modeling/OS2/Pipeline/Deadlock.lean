import OS2.Machine.Progress
import OS2.Pipeline.Flow

namespace OS2.Pipeline.Flow

open OS2.Text OS2.Posix OS2.Machine

variable {α : Type} {limits : Limits} {count k p : Nat} {s t : State α} {table : Descriptors α}

theorem Limits.part (limits : Limits) (data : List UInt8) (begun : Bool) :
    ∃ part rest, data = part ++ rest ∧ (part = [] → data = []) ∧
      (begun = false → data.length ≤ limits.atomic → rest = []) ∧ part.length ≤ limits.capacity := by
  have positive := limits.positive
  have fits := limits.fits
  refine ⟨data.take limits.atomic, data.drop limits.atomic, (List.take_append_drop _ _).symm, ?_, ?_, ?_⟩
  · intro nothing
    rcases List.take_eq_nil_iff.mp nothing with zero | empty
    · omega
    · exact empty
  · intro _ short
    exact List.drop_eq_nil_iff.mpr short
  · rw [List.length_take]
    omega

theorem waits_of_blocked (running : s.table k = some table) (straight : Straight k table)
    (blocked : Stuck (Step limits k) s) :
    (∃ p, k = p + 1 ∧ (s.pipe p).buffer = [] ∧ s.Holds (.writeEnd p)) ∨
    ((s.pipe k).buffer ≠ [] ∧ s.Holds (.readEnd k)) := by
  cases asks : s.request k with
  | close fd => exact absurd (.close .exit running asks) (blocked _)
  | dup2 old new => exact absurd (.dup2 .exit running asks) (blocked _)
  | exit => exact absurd (.exit running asks) (blocked _)
  | read fd =>
    left
    by_cases reads : ∃ p, table.entry fd = some (.readEnd p)
    · obtain ⟨p, opened⟩ := reads
      refine ⟨p, (straight fd p).1 opened, ?_, ?_⟩
      · by_contra some
        exact blocked _ (.read .exit running asks opened (List.append_nil _).symm some)
      · by_contra unwritten
        by_cases empty : (s.pipe p).buffer = []
        · exact blocked _ (.eof .exit running asks opened empty unwritten)
        · exact blocked _ (.read .exit running asks opened (List.append_nil _).symm empty)
    · exact absurd (.readOther .exit running asks fun p opened => reads ⟨p, opened⟩) (blocked _)
  | write fd data begun =>
    right
    by_cases writes : ∃ p, table.entry fd = some (.writeEnd p)
    · obtain ⟨p, opened⟩ := writes
      obtain rfl := (straight fd p).2 opened
      have read : s.Holds (.readEnd k) := by
        by_contra unread
        exact blocked _ (.sigpipe running asks opened unread)
      refine ⟨?_, read⟩
      intro empty
      obtain ⟨part, rest, parts, some, undivided, room⟩ := limits.part data begun
      exact blocked _ (.write .exit running asks opened read parts some undivided (by simpa [empty] using room))
    · exact absurd (.writeOther .exit running asks fun p opened => writes ⟨p, opened⟩) (blocked _)

theorem Sound.reader (sound : Sound limits count s) (holds : s.Holds (.readEnd p)) :
    ∃ table, s.table (p + 1) = some table := by
  obtain ⟨k, table, fd, running, opened⟩ := holds
  obtain rfl := ((sound.straight k table running).2 fd p).1 opened
  exact ⟨table, running⟩

theorem Sound.writer (sound : Sound limits count s) (holds : s.Holds (.writeEnd p)) :
    ∃ table, s.table p = some table := by
  obtain ⟨k, table, fd, running, opened⟩ := holds
  obtain rfl := ((sound.straight k table running).2 fd p).2 opened
  exact ⟨table, running⟩

def Backs (s : State α) (k : Nat) : Prop := (s.pipe k).buffer ≠ [] ∧ ∃ table, s.table (k + 1) = some table

theorem Backs.next (sound : Sound limits count s) (blocked : ∀ k, Stuck (Step limits k) s) (backs : Backs s k) :
    Backs s (k + 1) := by
  obtain ⟨content, table, running⟩ := backs
  rcases waits_of_blocked running (sound.straight _ table running).2 (blocked _) with
    ⟨p, same, empty, _⟩ | ⟨full, read⟩
  · obtain rfl : k = p := by omega
    exact absurd empty content
  · exact ⟨full, sound.reader read⟩

/-- The first command that is running waits for the one behind it, and so on down the pipeline, which
    has an end. -/
theorem moves_of_running (sound : Sound limits count s) (running : ∃ k table, s.table k = some table) :
    ∃ t, Steps limits s t := by
  classical
  by_contra none
  have blocked : ∀ k, Stuck (Step limits k) s := fun k t step => none ⟨t, k, step⟩
  obtain ⟨first, ⟨table, runs⟩, least⟩ : ∃ k, (∃ table, s.table k = some table) ∧
      ∀ j, j < k → ¬ ∃ table, s.table j = some table :=
    ⟨Nat.find running, Nat.find_spec running, fun j => Nat.find_min running⟩
  have backs : Backs s first := by
    rcases waits_of_blocked runs (sound.straight _ table runs).2 (blocked _) with ⟨p, same, _, written⟩ | ⟨full, read⟩
    · exact absurd (sound.writer written) (least p (by omega))
    · exact ⟨full, sound.reader read⟩
  have all : ∀ m, Backs s (first + m) := by
    intro m
    induction m with
    | zero => exact backs
    | succ m ih => exact ih.next sound blocked
  obtain ⟨_, other, outside⟩ := all count
  have inside := (sound.straight _ other outside).1
  omega

theorem running_of_step (step : Step limits k s t) : ∃ table, s.table k = some table := by
  cases step <;> exact ⟨_, by assumption⟩

/-- The commands of a pipeline cannot block each other for ever: while one of them runs, there is one
    that can go on, whatever they have asked for. -/
theorem pipeline_never_deadlocks {initial : Table α} (standard : Standard initial) {cmds : List Str}
    (several : 2 ≤ cmds.length) {execs : List (Exec α)} (built : Built initial cmds execs)
    {request : Nat → Request} (run : Reachable (Steps limits) (start execs request) s) :
    Stuck (Steps limits) s ↔ ∀ k, s.table k = none := by
  have sound := sound_of_reachable standard several built run
  constructor
  · intro stuck k
    by_contra running
    obtain ⟨t, step⟩ := moves_of_running sound ⟨k, Option.ne_none_iff_exists'.mp running⟩
    exact stuck t step
  · intro gone t step
    obtain ⟨k, step⟩ := step
    obtain ⟨table, running⟩ := running_of_step step
    rw [gone k] at running
    cases running

theorem pipeline_never_deadlocks_uname_wc : ¬ Stuck (Steps PIPE_BUF) (start unameWc fun _ => .read 0) := by
  have here : Reachable (Steps PIPE_BUF) (start unameWc fun _ => .read 0) (start unameWc fun _ => .read 0) := .refl
  intro stuck
  have gone := (pipeline_never_deadlocks standard_terminal two_le built_unameWc here).mp stuck 0
  cases gone

end OS2.Pipeline.Flow
