import OS2.Machine.Progress
import OS2.Pipeline.Waiting
import Mathlib.Algebra.BigOperators.Group.Finset.Basic

namespace OS2.Pipeline.Waiting

open OS2.Machine OS2.Posix

def Life.work : Life → Nat
  | .absent => 2
  | .running execed => if execed then 1 else 2
  | .terminated _ => 0
  | .reaped => 0

def workOf (children : Children) (count : Nat) : Nat := (Finset.range count).sum fun k => Life.work (children k)

def PC.work (count : Nat) : PC → Nat
  | .fork i => 2 * (count - i) + count
  | .setpgid i => 2 * (count - i - 1) + 1 + count
  | .waitpid i => count - i
  | .exited _ => 0

def State.work (count : Nat) (s : State) : Nat := s.pc.work count + workOf s.children count

/-- How many children may have been forked, and that the `i` of a loop is inside its bounds. -/
def PC.Reached (count : Nat) (children : Children) : PC → Prop
  | .fork i => i < count ∧ ∀ k, i ≤ k → children k = .absent
  | .setpgid i => i < count ∧ ∀ k, i < k → children k = .absent
  | .waitpid i => i < count ∧ ∀ k, count ≤ k → children k = .absent
  | .exited _ => ∀ k, count ≤ k → children k = .absent

variable {count i k n : Nat} {children children' : Children} {life : Life} {s t : State}

theorem workOf_update (bound : k < count) :
    workOf (Function.update children k life) count + Life.work (children k) =
      workOf children count + Life.work life := by
  have member : k ∈ Finset.range count := Finset.mem_range.mpr bound
  have others : ((Finset.range count).erase k).sum (fun j => Life.work (Function.update children k life j)) =
      ((Finset.range count).erase k).sum fun j => Life.work (children j) := by
    apply Finset.sum_congr rfl
    intro j inside
    rw [Function.update_of_ne (Finset.ne_of_mem_erase inside)]
  have before := Finset.add_sum_erase _ (fun j => Life.work (children j)) member
  have after := Finset.add_sum_erase _ (fun j => Life.work (Function.update children k life j)) member
  simp only [Function.update_self, others] at after
  simp only [workOf]
  omega

theorem waitFrom_work (bound : i ≤ count) : (waitFrom count i).work count = count - i := by
  unfold waitFrom
  split
  · rfl
  · simp only [PC.work]
    omega

theorem forkFrom_work (bound : i ≤ count) : (forkFrom count i).work count ≤ 2 * (count - i) + count := by
  unfold forkFrom
  split
  · exact Nat.le_refl _
  · have later := waitFrom_work (Nat.zero_le count)
    omega

theorem waitFrom_reached (forked : ∀ k, count ≤ k → children k = .absent) :
    (waitFrom count i).Reached count children := by
  unfold waitFrom
  split
  · exact ⟨by assumption, forked⟩
  · exact forked

theorem forkFrom_reached (bound : i ≤ count) (forked : ∀ k, i ≤ k → children k = .absent) :
    (forkFrom count i).Reached count children := by
  unfold forkFrom
  split
  · exact ⟨by assumption, forked⟩
  · exact waitFrom_reached fun k outside => forked k (by omega)

theorem PC.Reached.mono {pc : PC} (reached : pc.Reached count children)
    (kept : ∀ k, children k = .absent → children' k = .absent) : pc.Reached count children' := by
  cases pc with
  | fork i => exact ⟨reached.1, fun k above => kept k (reached.2 k above)⟩
  | setpgid i => exact ⟨reached.1, fun k above => kept k (reached.2 k above)⟩
  | waitpid i => exact ⟨reached.1, fun k above => kept k (reached.2 k above)⟩
  | exited status => exact fun k above => kept k (reached k above)

theorem PC.Reached.present {pc : PC} (reached : pc.Reached count children) (present : children k ≠ .absent) :
    k < count := by
  by_contra outside
  apply present
  cases pc with
  | fork i =>
    obtain ⟨bound, forked⟩ := reached
    exact forked k (by omega)
  | setpgid i =>
    obtain ⟨bound, forked⟩ := reached
    exact forked k (by omega)
  | waitpid i => exact reached.2 k (by omega)
  | exited status => exact reached k (by omega)

theorem work_lives (reached : s.pc.Reached count s.children) (lives : Lives s.children children') :
    workOf children' count < workOf s.children count := by
  cases lives with
  | exec k running =>
    have inside : k < count := reached.present (by simp [running])
    have moved : workOf (Function.update s.children k (.running true)) count + Life.work (s.children k) = _ :=
      workOf_update inside
    simp only [running, Life.work] at moved
    simp at moved
    omega
  | terminate k execed running =>
    have inside : k < count := reached.present (by simp [running])
    have moved : workOf (Function.update s.children k (.terminated execed)) count + Life.work (s.children k) = _ :=
      workOf_update inside
    rw [running] at moved
    cases execed <;> simp [Life.work] at moved <;> omega

theorem work_waits {pid : Option Nat} (reached : s.pc.Reached count s.children)
    (waits : WaitPid s.children pid children') :
    workOf children' count ≤ workOf s.children count ∧
      ∀ k, s.children k = .absent → children' k = .absent := by
  rcases waits.reaps with ⟨k, _, present, _, rfl⟩ | ⟨rfl, _⟩
  · have moved : workOf (Function.update s.children k .reaped) count + Life.work (s.children k) = _ :=
      workOf_update (reached.present present)
    refine ⟨?_, fun j absent => (absent_update_reaped present j).mpr absent⟩
    simp only [Life.work] at moved
    omega
  · exact ⟨Nat.le_refl _, fun _ absent => absent⟩

theorem reached_step (reached : s.pc.Reached count s.children) (step : Step count s t) :
    t.pc.Reached count t.children ∧ t.work count < s.work count := by
  cases step with
  | child children lives =>
    refine ⟨reached.mono fun k => ((lives.kept k).1).mpr, ?_⟩
    have less := work_lives reached lives
    simp only [State.work]
    omega
  | giveUp i here =>
    rw [here] at reached
    obtain ⟨bound, forked⟩ := reached
    refine ⟨fun k outside => forked k (by omega), ?_⟩
    simp only [State.work, here, PC.work]
    omega
  | fork i here =>
    rw [here] at reached
    obtain ⟨bound, forked⟩ := reached
    have moved : workOf (Function.update s.children i (.running false)) count + Life.work (s.children i) = _ :=
      workOf_update bound
    rw [forked i (Nat.le_refl i)] at moved
    simp [Life.work] at moved
    constructor
    · refine ⟨bound, ?_⟩
      intro k above
      have other : k ≠ i := by omega
      simpa [other] using forked k (by omega)
    · simp only [State.work, here, PC.work]
      omega
  | setpgid i here =>
    rw [here] at reached
    obtain ⟨bound, forked⟩ := reached
    refine ⟨forkFrom_reached (by omega) fun k above => forked k (by omega), ?_⟩
    have own : (PC.setpgid i).work count = 2 * (count - i - 1) + 1 + count := rfl
    have next : (forkFrom count (i + 1)).work count ≤ 2 * (count - (i + 1)) + count := forkFrom_work (by omega)
    simp only [State.work, here]
    omega
  | waitpid i children here waits =>
    obtain ⟨less, kept⟩ := work_waits reached waits
    rw [here] at reached
    obtain ⟨bound, forked⟩ := reached
    refine ⟨waitFrom_reached fun k outside => kept k (forked k outside), ?_⟩
    have own : (PC.waitpid i).work count = count - i := rfl
    have next : (waitFrom count (i + 1)).work count = count - (i + 1) := waitFrom_work (by omega)
    simp only [State.work, here]
    omega

theorem waits_or_runs (children : Children) (pid : Option Nat) :
    (∃ children', WaitPid children pid children') ∨ ∃ k execed, children k = .running execed := by
  by_cases runs : ∃ k execed, children k = .running execed
  · exact .inr runs
  · left
    have still : ∀ k, children k = .absent ∨ children k = .reaped ∨ ∃ execed, children k = .terminated execed := by
      intro k
      cases life : children k with
      | absent => exact .inl rfl
      | running execed => exact absurd ⟨k, execed, life⟩ runs
      | terminated execed => exact .inr (.inr ⟨execed, rfl⟩)
      | reaped => exact .inr (.inl rfl)
    cases pid with
    | some k =>
      rcases still k with absent | reaped | ⟨execed, terminated⟩
      · exact ⟨_, .noSuchChild k (.inl absent)⟩
      · exact ⟨_, .noSuchChild k (.inr reaped)⟩
      · exact ⟨_, .reap k execed terminated⟩
    | none =>
      by_cases some : ∃ k execed, children k = .terminated execed
      · obtain ⟨k, execed, terminated⟩ := some
        exact ⟨_, .reapAny k execed terminated⟩
      · refine ⟨_, .noChild fun k => ?_⟩
        rcases still k with absent | reaped | ⟨execed, terminated⟩
        · exact .inl absent
        · exact .inr reaped
        · exact absurd ⟨k, execed, terminated⟩ some

theorem moves_of_running {execed : Bool} (running : s.children k = .running execed) : ∃ t, Step count s t :=
  ⟨_, .child _ (.terminate k execed running)⟩

/-- The program with `count` commands comes to its exit in every run once its children terminate, however the
    calls of `setpgid` and `waitpid` turn out, within five steps for each command; what is left to do behind
    the exit is done by children that are still running. -/
theorem pipeline_ends {n : Nat} (run : Takes (Step count) (start count) n s) :
    n ≤ 5 * count ∧
      (Stuck (Step count) s ↔ (∃ status, s.pc = .exited status) ∧ ∀ k execed, s.children k ≠ .running execed) := by
  have first : (start count).pc.Reached count (start count).children :=
    forkFrom_reached (Nat.zero_le count) fun _ _ => rfl
  have reached : ∀ {s}, Reachable (Step count) (start count) s → s.pc.Reached count s.children := fun run =>
    run.invariant first fun _ _ reached step => (reached_step reached step).1
  constructor
  · have falls : ∀ s t, Reachable (Step count) (start count) s → Step count s t → t.work count < s.work count :=
      fun s t run step => (reached_step (reached run) step).2
    have spent := run.bounded falls
    have absent : workOf (start count).children count = 2 * count := by
      simp [workOf, start, Life.work, Nat.mul_comm]
    have parent : (start count).pc.work count ≤ 2 * (count - 0) + count := forkFrom_work (Nat.zero_le count)
    simp only [State.work] at spent
    omega
  · constructor
    · intro stuck
      have idle : ∀ k execed, s.children k ≠ .running execed := by
        intro k execed running
        obtain ⟨t, step⟩ : ∃ t, Step count s t := moves_of_running running
        exact stuck t step
      refine ⟨?_, idle⟩
      cases here : s.pc with
      | fork i => exact absurd (.fork i here) (stuck _)
      | setpgid i => exact absurd (.setpgid i here) (stuck _)
      | waitpid i =>
        rcases waits_or_runs s.children (s.pidlist i) with ⟨children, waits⟩ | ⟨k, execed, running⟩
        · exact absurd (.waitpid i children here waits) (stuck _)
        · exact absurd running (idle k execed)
      | exited status => exact ⟨status, rfl⟩
    · intro ended t step
      obtain ⟨⟨status, exited⟩, idle⟩ := ended
      cases step with
      | child children lives =>
        cases lives with
        | exec k running => exact idle k false running
        | terminate k execed running => exact idle k execed running
      | giveUp i here => simp [exited] at here
      | fork i here => simp [exited] at here
      | setpgid i here => simp [exited] at here
      | waitpid i children here waits => simp [exited] at here

theorem pipeline_ends_two :
    ∃ n s, Takes (Step 2) (start 2) n s ∧ s.pc = .exited 0 ∧ n ≤ 5 * 2 ∧ ¬ Stuck (Step 2) s := by
  obtain ⟨s, run, _, exited, running⟩ : ∃ s, Reachable (Step 2) (start 2) s ∧ Loses 2 (fun k => k == 0) s ∧
      s.pc = .exited 0 ∧ s.children 0 = .running true :=
    left_running (j := 1) (by decide) (by decide) rfl rfl
  obtain ⟨n, takes⟩ := run.takes
  obtain ⟨bound, ends⟩ := pipeline_ends takes
  exact ⟨n, s, takes, exited, bound, fun stuck => (ends.mp stuck).2 0 true running⟩

end OS2.Pipeline.Waiting
