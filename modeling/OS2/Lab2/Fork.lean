import OS2.Posix.Stdio

namespace OS2.Lab2

open OS2.Machine OS2.Posix.Stdio

inductive Message where
  | parentBefore
  | childAfter
  | childSleeping
  | childExiting
  | parentAfter
  | parentWaited
  deriving DecidableEq, Repr

def fork : Program Message where
  before := [.parentBefore]
  child := [.childAfter, .childSleeping, .childExiting]
  parent := [.parentAfter]
  behind := [.parentWaited]

/-- fork.c in every interleaving: a run can be brought to its end, and there, on a terminal, the first line
    is written once and those of parent and child mix; anywhere else the child takes a copy of it in its
    buffer, so that it is written twice, and the lines of the child come first. -/
theorem fork_prints {b : Buffering} {s : State Message} (run : Reachable (Step b fork) (start fork) s) :
    (∃ t, Reachable (Step b fork) s t ∧ t.parent.todo = []) ∧
    (s.parent.todo = [] → s.child ≠ none →
      match b with
      | .line => s.output.count .parentBefore = 1 ∧ s.output.head? = some .parentBefore ∧
          s.output.getLast? = some .parentWaited ∧
          [Message.childAfter, .childSleeping, .childExiting, .parentWaited].Sublist s.output ∧ s.output.length = 6
      | .full => s.output = [.parentBefore, .childAfter, .childSleeping, .childExiting,
          .parentBefore, .parentAfter, .parentWaited]) := by
  refine ⟨can_end run, ?_⟩
  intro ended forked
  rcases written run ended with ⟨none, _⟩ | ⟨mix, mixed, output⟩
  · exact absurd none forked
  cases b with
  | full => exact output
  | line =>
    have output : s.output = [.parentBefore] ++ mix ++ [.parentWaited] := output
    have once := mixed.count .parentBefore
    have lines := mixed.sublists.1.append_right [Message.parentWaited]
    have length : mix.length = 4 := mixed.length
    rw [output]
    refine ⟨?_, rfl, ?_, ?_, ?_⟩
    · rw [List.count_append, List.count_append, once]
      rfl
    · exact List.getLast?_concat
    · exact lines.cons _
    · simp [length]

theorem fork_prints_twice : ∃ s, Reachable (Step .full fork) (start fork) s ∧
    s.output.count .parentBefore = 2 := by
  have first : Reachable (Step .full fork) (start fork) (start fork) := .refl
  have forked := (first.next (.parentPrints rfl)).next (.fork rfl)
  have child := (((forked.next (.childPrints rfl rfl)).next (.childPrints rfl rfl)).next (.childPrints rfl rfl)).next
    (.childExits rfl rfl)
  have run := (((child.next (.parentPrints rfl)).next (.waitpid rfl rfl rfl)).next (.parentPrints rfl)).next
    (.parentExits rfl)
  exact ⟨_, run, by rw [(fork_prints run).2 rfl (by simp)]; rfl⟩

end OS2.Lab2
