import OS2.Machine.Progress

namespace OS2.Background

open OS2.Machine

inductive Child where
  | absent
  | running
  | stopped
  | zombie
  | reaped
  deriving DecidableEq, Repr

inductive PC where
  | sigaction
  | fork
  | sleep
  | test
  | exited (status : Nat)
  deriving DecidableEq, Repr

inductive HandlerPC where
  | waitpid
  | set
  deriving DecidableEq, Repr

/-- `handler` is the call that has interrupted `main`, with SIGCHLD blocked until it returns; one
    SIGCHLD at most is `pending`. -/
structure State where
  pc : PC
  handler : Option HandlerPC
  terminated : Bool
  pending : Bool
  child : Child
  deriving DecidableEq, Repr

def start : State :=
  { pc := .sigaction, handler := none, terminated := false, pending := false, child := .absent }

/-- `stoppable` tells whether anybody stops the child. Without SA_NOCLDSTOP the parent gets a SIGCHLD
    for that as well. -/
inductive Step (stoppable : Bool) (s : State) : State → Prop where
  | sigactionFails (here : s.pc = .sigaction) : Step stoppable s { s with pc := .exited 1 }
  | sigaction (here : s.pc = .sigaction) : Step stoppable s { s with pc := .fork }
  | forkFails (here : s.pc = .fork) : Step stoppable s { s with pc := .exited 1 }
  | fork (here : s.pc = .fork) : Step stoppable s { s with pc := .sleep, child := .running }
  | sleep (here : s.pc = .sleep) (uninterrupted : s.handler = none) : Step stoppable s { s with pc := .test }
  | test (here : s.pc = .test) (uninterrupted : s.handler = none) :
      Step stoppable s { s with pc := if s.terminated then .exited 0 else .sleep }
  | deliver (pending : s.pending = true) (unblocked : s.handler = none) (alive : ∀ status, s.pc ≠ .exited status) :
      Step stoppable s { s with handler := some .waitpid, pending := false }
  | reap (here : s.handler = some .waitpid) (terminated : s.child = .zombie) :
      Step stoppable s { s with child := .reaped }
  | none (here : s.handler = some .waitpid) (other : s.child ≠ .zombie) :
      Step stoppable s { s with handler := some .set }
  | set (here : s.handler = some .set) : Step stoppable s { s with handler := .none, terminated := true }
  | terminate (living : s.child = .running ∨ s.child = .stopped) :
      Step stoppable s { s with child := .zombie, pending := true }
  | stop (stops : stoppable = true) (running : s.child = .running) :
      Step stoppable s { s with child := .stopped, pending := true }
  | continue (stopped : s.child = .stopped) : Step stoppable s { s with child := .running, pending := true }

structure Notified (s : State) : Prop where
  unstopped : s.child ≠ .stopped
  early : s.pc = .sigaction ∨ s.pc = .fork → s.child = .absent
  living : s.child = .absent ∨ s.child = .running →
    s.handler = none ∧ s.pending = false ∧ s.terminated = false
  zombie : s.child = .zombie → s.terminated = false ∧
    (s.pending = true ∧ s.handler = none ∨ s.pending = false ∧ s.handler = some .waitpid)
  reaped : s.child = .reaped → s.pending = false ∧ (s.terminated = true ↔ s.handler = none)
  exited : s.pc = .exited 0 → s.terminated = true

variable {s t : State}

theorem notified_start : Notified start := by
  constructor <;> simp [start]

theorem notified_step (notified : Notified s) (step : Step false s t) : Notified t := by
  obtain ⟨unstopped, early, living, zombie, reaped, exited⟩ := notified
  cases step with
  | sigactionFails here => constructor <;> simp_all
  | sigaction here => constructor <;> simp_all
  | forkFails here => constructor <;> simp_all
  | fork here => constructor <;> simp_all
  | sleep here uninterrupted => constructor <;> simp_all
  | test here uninterrupted =>
    cases flag : s.terminated with
    | false => constructor <;> simp_all
    | true => constructor <;> simp_all
  | deliver signal unblocked alive =>
    have gone : s.child = .zombie := by cases life : s.child <;> simp_all
    constructor <;> simp_all
  | reap here gone => constructor <;> simp_all
  | none here other =>
    have gone : s.child = .reaped := by cases life : s.child <;> simp_all
    constructor <;> simp_all
  | set here =>
    have gone : s.child = .reaped := by cases life : s.child <;> simp_all
    constructor <;> simp_all
  | terminate living => constructor <;> simp_all
  | stop stops running => cases stops
  | «continue» stopped => exact absurd stopped unstopped

theorem notified_of_reachable (run : Reachable (Step false) start s) : Notified s :=
  run.invariant notified_start fun _ _ => notified_step

def Delivered (s : State) : Prop := (s.child = .zombie ∨ s.child = .reaped) ∧ s.pending = false

def PC.left : PC → Nat
  | .sleep => 2
  | .test => 1
  | _ => 0

def State.left (s : State) : Nat :=
  match s.handler with
  | some .waitpid => s.pc.left + 2 + if s.child = .zombie then 1 else 0
  | some .set => s.pc.left + 1
  | none => s.pc.left

theorem delivered_step (notified : Notified s) (delivered : Delivered s) (step : Step false s t) :
    Delivered t ∧ t.left < s.left := by
  obtain ⟨unstopped, early, living, zombie, reaped, exited⟩ := notified
  obtain ⟨gone, settled⟩ := delivered
  have flag : s.handler = none → s.terminated = true := by
    intro free
    rcases gone with zombied | collected
    · simp_all
    · exact (reaped collected).2.mpr free
  cases step with
  | sigactionFails here => simp_all
  | sigaction here => simp_all
  | forkFails here => simp_all
  | fork here => simp_all
  | sleep here uninterrupted => exact ⟨⟨gone, settled⟩, by simp [State.left, PC.left, here, uninterrupted]⟩
  | test here uninterrupted =>
    exact ⟨⟨gone, settled⟩, by simp [State.left, PC.left, here, uninterrupted, flag uninterrupted]⟩
  | deliver signal unblocked alive =>
    rw [settled] at signal
    cases signal
  | reap here terminated => exact ⟨⟨.inr rfl, settled⟩, by simp [State.left, here, terminated]⟩
  | none here other => exact ⟨⟨gone, settled⟩, by simp [State.left, here, other]⟩
  | set here => exact ⟨⟨gone, settled⟩, by simp [State.left, here]⟩
  | terminate living => rcases living with running | stopped <;> simp_all
  | stop stops running => cases stops
  | «continue» stopped => exact absurd stopped unstopped

theorem gone_step (gone : s.child = .zombie ∨ s.child = .reaped) (notified : Notified s) (step : Step false s t) :
    t.child = .zombie ∨ t.child = .reaped := by
  have early := notified.early
  cases step <;> simp_all

theorem exited_of_stuck {stoppable : Bool} (stuck : Stuck (Step stoppable) s) : ∃ status, s.pc = .exited status := by
  cases interrupted : s.handler with
  | some handler =>
    cases handler with
    | waitpid =>
      by_cases gone : s.child = .zombie
      · exact absurd (.reap interrupted gone) (stuck _)
      · exact absurd (.none interrupted gone) (stuck _)
    | set => exact absurd (.set interrupted) (stuck _)
  | none =>
    cases here : s.pc with
    | sigaction => exact absurd (.sigaction here) (stuck _)
    | fork => exact absurd (.fork here) (stuck _)
    | sleep => exact absurd (.sleep here interrupted) (stuck _)
    | test => exact absurd (.test here interrupted) (stuck _)
    | exited status => exact ⟨status, rfl⟩

/-- No notification is lost: where the child is not stopped, a run of background.c comes to its end at an
    exit, and one without an end is one in which the child never terminates, or in which its SIGCHLD is
    never delivered. -/
theorem background_exits :
    (∀ s, Reachable (Step false) start s → Stuck (Step false) s → ∃ status, s.pc = .exited status) ∧
    ∀ run, Endless (Step false) start run →
      (∀ i, (run i).child = .absent ∨ (run i).child = .running) ∨ ∃ i, ∀ j, i ≤ j → (run j).pending = true := by
  refine ⟨fun s _ stuck => exited_of_stuck stuck, ?_⟩
  intro run endless
  have notified : ∀ i, Notified (run i) := fun i => notified_of_reachable (endless.reachable i)
  by_cases never : ∀ i, (run i).child = .absent ∨ (run i).child = .running
  · exact .inl never
  · right
    obtain ⟨i, ended⟩ := not_forall.mp never
    have gone : (run i).child = .zombie ∨ (run i).child = .reaped := by
      have unstopped := (notified i).unstopped
      cases life : (run i).child <;> simp_all
    refine ⟨i, ?_⟩
    intro j later
    by_contra settled
    have stays : ∀ k, (run (i + k)).child = .zombie ∨ (run (i + k)).child = .reaped := by
      intro k
      induction k with
      | zero => exact gone
      | succ k ih => exact gone_step ih (notified _) (endless.2 _)
    have delivered : ∀ k, Delivered (run (j + k)) := by
      intro k
      induction k with
      | zero =>
        obtain ⟨m, rfl⟩ := Nat.exists_eq_add_of_le later
        exact ⟨stays m, by simpa using settled⟩
      | succ k ih => exact (delivered_step (notified _) ih (endless.2 _)).1
    obtain ⟨k, further, rise⟩ := exists_rise (fun k => (run k).left) j
    obtain ⟨m, rfl⟩ := Nat.exists_eq_add_of_le further
    have fall := (delivered_step (notified _) (delivered m) (endless.2 _)).2
    simp only [Nat.add_assoc] at rise fall
    omega

def sleeping : Nat → State
  | 0 => start
  | 1 => { start with pc := .fork }
  | i + 2 => { start with pc := if i % 2 = 0 then .sleep else .test, child := .running }

theorem endless_sleeping : Endless (Step false) start sleeping := by
  refine ⟨rfl, ?_⟩
  intro i
  match i with
  | 0 => exact .sigaction rfl
  | 1 => exact .fork rfl
  | i + 2 =>
    by_cases even : i % 2 = 0
    · have odd : (i + 1) % 2 ≠ 0 := by omega
      have step : Step false (sleeping (i + 2)) _ := .sleep (by simp [sleeping, even]) rfl
      simpa [sleeping, even, odd] using step
    · have next : (i + 1) % 2 = 0 := by omega
      have step : Step false (sleeping (i + 2)) _ := .test (by simp [sleeping, even]) rfl
      simpa [sleeping, even, next, start] using step

theorem background_exits_sleeping : (∀ i, (sleeping i).child = .absent ∨ (sleeping i).child = .running) ∨
    ∃ i, ∀ j, i ≤ j → (sleeping j).pending = true :=
  background_exits.2 sleeping endless_sleeping

theorem Notified.reaped_of_exited (notified : Notified s) (exited : s.pc = .exited 0) : s.child = .reaped := by
  have flag := notified.exited exited
  cases life : s.child with
  | reaped => rfl
  | stopped => exact absurd life notified.unstopped
  | zombie =>
    have unset := (notified.zombie life).1
    rw [flag] at unset
    cases unset
  | absent =>
    have unset := (notified.living (.inl life)).2.2
    rw [flag] at unset
    cases unset
  | running =>
    have unset := (notified.living (.inr life)).2.2
    rw [flag] at unset
    cases unset

theorem exited_while_stopped : ∃ s, Reachable (Step true) start s ∧ s.pc = .exited 0 ∧ s.child = .stopped := by
  have installed : Step true start { start with pc := .fork } := .sigaction rfl
  have forked : Reachable (Step true) start { start with pc := .sleep, child := .running } :=
    (Reachable.refl.next installed).next (.fork rfl)
  have handled : Reachable (Step true) start { start with pc := .sleep, child := .stopped, terminated := true } :=
    (((forked.next (.stop rfl rfl)).next (.deliver rfl rfl (by simp))).next (.none rfl (by simp))).next (.set rfl)
  exact ⟨_, (handled.next (.sleep rfl rfl)).next (.test rfl rfl), rfl, rfl⟩

/-- The `exit(0)` of background.c comes behind the `waitpid` that reaped the child in every run, if and only
    if nobody can stop the child. -/
theorem background_reaps_iff (stoppable : Bool) :
    (∀ s, Reachable (Step stoppable) start s → s.pc = .exited 0 → s.child = .reaped) ↔ stoppable = false := by
  constructor
  · intro reaps
    cases stoppable with
    | false => rfl
    | true =>
      obtain ⟨s, run, exited, stopped⟩ := exited_while_stopped
      rw [reaps s run exited] at stopped
      cases stopped
  · rintro rfl s run exited
    exact (notified_of_reachable run).reaped_of_exited exited

end OS2.Background
