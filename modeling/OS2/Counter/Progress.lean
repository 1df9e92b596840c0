import OS2.Counter.Exclusion

namespace OS2.Counter

open OS2.Machine

def Guarded (s : State) : Prop := ∀ p, s.mutex + (s.process p).holds + (s.process p.other).holds = 1

def Process.ending : Process → Nat
  | .parent => 2
  | .child => 1

def Local.remaining (n : Int) (p : Process) (l : Local) : Nat :=
  match l.pc with
  | .test => 6 * (n - l.i).toNat + p.ending
  | .wait => 6 * (n - l.i - 1).toNat + 5 + p.ending
  | .load => 6 * (n - l.i - 1).toNat + 4 + p.ending
  | .store => 6 * (n - l.i - 1).toNat + 3 + p.ending
  | .print => 6 * (n - l.i - 1).toNat + 2 + p.ending
  | .post => 6 * (n - l.i - 1).toNat + 1 + p.ending
  | .waitpid => 1
  | .exited => 0

def State.remaining (n : Int) (s : State) : Nat :=
  (s.process .parent).remaining n .parent + (s.process .child).remaining n .child

def ChildExits (s : State) : Prop := (s.process .child).pc ≠ .waitpid

variable {n : Int} {p : Process} {s t : State} {l : Local}

theorem guarded_put (mutex : s.mutex + l.holds + (s.process p.other).holds = 1) : Guarded (s.put p l) := by
  apply @both_of_sides (fun q =>
    (s.put p l).mutex + ((s.put p l).process q).holds + ((s.put p l).process q.other).holds = 1) p
  · simpa using mutex
  · simp only [put_self, put_other, put_mutex, other_other]
    omega

theorem Guarded.moves (guarded : Guarded s) (moves : Moves n p s t) : Guarded t := by
  have own := guarded p
  cases moves with
  | enter at' more =>
    apply guarded_put
    simpa [Local.holds, at', PC.inside] using own
  | leave pc at' done behind =>
    apply guarded_put
    cases pc <;> cases behind <;> simpa [Local.holds, at', PC.inside] using own
  | wait at' free =>
    apply guarded_put
    simp only [Local.holds, at', PC.inside, Bool.false_eq_true, if_false, if_true] at own ⊢
    omega
  | load at' =>
    apply guarded_put
    simpa [Local.holds, at', PC.inside] using own
  | store at' =>
    apply guarded_put
    simpa [Local.holds, at', PC.inside] using own
  | print at' =>
    apply guarded_put
    simpa [Local.holds, at', PC.inside] using own
  | post at' =>
    apply guarded_put
    simp only [Local.holds, at', PC.inside, Bool.false_eq_true, if_false, if_true] at own ⊢
    omega
  | reap at' =>
    apply guarded_put
    simpa [Local.holds, at', PC.inside] using own

theorem step_local (h : step n p s = some t) : ∃ l, t.process = Function.update s.process p l ∧
    (s.process p).remaining n p = l.remaining n p + 1 ∧ (p = .child → l.pc ≠ .waitpid) := by
  unfold step at h
  cases at' : (s.process p).pc <;> simp only [at'] at h
  case test =>
    split at h
    · rename_i more
      cases h
      refine ⟨_, rfl, ?_, by simp⟩
      simp only [Local.remaining, at']
      omega
    · rename_i done
      cases p <;> cases h
      · refine ⟨_, rfl, ?_, by simp⟩
        simp only [Local.remaining, at', Process.ending]
        omega
      · refine ⟨_, rfl, ?_, by simp⟩
        simp only [Local.remaining, at', Process.ending]
        omega
  case wait =>
    split at h
    · cases h
    · cases h
      exact ⟨_, rfl, by simp only [Local.remaining, at']; omega, by simp⟩
  case load =>
    cases h
    exact ⟨_, rfl, by simp only [Local.remaining, at']; omega, by simp⟩
  case store =>
    cases h
    exact ⟨_, rfl, by simp only [Local.remaining, at']; omega, by simp⟩
  case print =>
    cases h
    exact ⟨_, rfl, by simp only [Local.remaining, at']; omega, by simp⟩
  case post =>
    cases h
    refine ⟨_, rfl, ?_, by simp⟩
    have round : n - ((s.process p).i + 1) = n - (s.process p).i - 1 := by omega
    simp only [Local.remaining, at', round]
    omega
  case waitpid =>
    split at h
    · cases h
      exact ⟨_, rfl, by simp only [Local.remaining, at'], by simp⟩
    · cases h
  case exited => cases h

theorem remaining_step (h : step n p s = some t) : s.remaining n = t.remaining n + 1 := by
  obtain ⟨l, process, cost, _⟩ := step_local h
  cases p <;> simp only [State.remaining, process, Function.update_apply] <;> simp <;> omega

theorem ChildExits.step (exits : ChildExits s) (h : step n p s = some t) : ChildExits t := by
  obtain ⟨l, process, _, child⟩ := step_local h
  unfold ChildExits at exits ⊢
  rw [process]
  cases p with
  | parent => simpa using exits
  | child => simpa using child rfl

theorem moves_of_inside (inside : (s.process p).pc.inside = true) : ∃ t, step n p s = some t := by
  unfold step
  cases at' : (s.process p).pc <;> rw [at'] at inside <;> cases inside <;> simp [at']

theorem Guarded.free (guarded : Guarded s) (outside : ∀ p, (s.process p).pc.inside = false) : s.mutex ≠ 0 := by
  have one := guarded .parent
  simp only [Local.holds, outside, Bool.false_eq_true, if_false] at one
  omega

/-- With nobody inside, a process is done or waits for the other one. -/
theorem moves_of_outside (free : s.mutex ≠ 0) (outside : (s.process p).pc.inside = false)
    (more : (s.process p).pc ≠ .exited) (live : (s.process p).pc ≠ .waitpid) : ∃ t, step n p s = some t := by
  unfold step
  cases at' : (s.process p).pc <;> simp only [at'] at more live outside ⊢
  case test =>
    split
    · exact ⟨_, rfl⟩
    · cases p <;> exact ⟨_, rfl⟩
  case wait =>
    rw [if_neg free]
    exact ⟨_, rfl⟩
  all_goals first | exact absurd rfl more | exact absurd rfl live | cases outside

theorem exited_of_stuck (guarded : Guarded s) (exits : ChildExits s) (stuck : Stuck (Step n) s) :
    ∀ p, (s.process p).pc = .exited := by
  have blocked : ∀ p t, step n p s ≠ some t := fun p t h => stuck t ⟨p, h⟩
  have outside : ∀ p, (s.process p).pc.inside = false := by
    intro p
    by_contra inside
    obtain ⟨t, h⟩ := moves_of_inside (n := n) (by simpa using inside)
    exact blocked p t h
  have free := guarded.free outside
  have child : (s.process .child).pc = .exited := by
    by_contra more
    obtain ⟨t, h⟩ := moves_of_outside (n := n) free (outside .child) more exits
    exact blocked .child t h
  intro p
  cases p with
  | child => exact child
  | parent =>
    by_contra more
    by_cases waits : (s.process .parent).pc = .waitpid
    · have reaps : step n .parent s = some (s.put .parent { s.process .parent with pc := .exited }) := by
        simp [step, waits, Process.other, child]
      exact blocked .parent _ reaps
    · obtain ⟨t, h⟩ := moves_of_outside (n := n) free (outside .parent) more waits
      exact blocked .parent t h

theorem guarded_of_reachable {program : Program} (run : Reachable (Step n) program.start s) :
    Guarded s ∧ ChildExits s := by
  have first : Guarded program.start ∧ ChildExits program.start := by
    rw [start_eq]
    exact ⟨fun p => rfl, by simp [ChildExits]⟩
  apply run.invariant first
  intro s t ⟨guarded, exits⟩ ⟨p, h⟩
  exact ⟨guarded.moves (moves_of_step h), exits.step h⟩

theorem remaining_start (program : Program) (n : Int) : program.start.remaining n = 12 * n.toNat + 3 := by
  rw [start_eq]
  simp only [State.remaining, Local.remaining, Process.ending, Int.sub_zero]
  omega

theorem remaining_exited (exited : ∀ p, (s.process p).pc = .exited) : s.remaining n = 0 := by
  simp [State.remaining, Local.remaining, exited]

/-- However the two processes are scheduled, neither blocks the other for ever: a run goes on until it
    is 12n+3 steps long, and then both have exited and the values from 0 to 2n-1 are printed. -/
theorem shared_counter_completes (program : Program) (n : Int) {k : Nat} {s : State}
    (run : Takes (Step n) program.start k s) :
    k ≤ 12 * n.toNat + 3 ∧ (Stuck (Step n) s ↔ k = 12 * n.toNat + 3) ∧
      (k = 12 * n.toNat + 3 → (∀ p, (s.process p).pc = .exited) ∧
        (0 ≤ n → 2 * n ≤ INT_MAX → s.output.map Line.value = (List.range (2 * n).toNat).map Int.ofNat)) := by
  have costs : ∀ s t, Reachable (Step n) program.start s → Step n s t → s.remaining n = t.remaining n + 1 :=
    fun _ _ _ ⟨_, h⟩ => remaining_step h
  have spent := run.spends costs
  rw [remaining_start] at spent
  obtain ⟨guarded, exits⟩ := guarded_of_reachable run.reachable
  have stuck : k = 12 * n.toNat + 3 → Stuck (Step n) s := by
    intro all t ⟨p, h⟩
    have cost := remaining_step h
    omega
  refine ⟨by omega, ⟨?_, stuck⟩, ?_⟩
  · intro stuck
    have nothing := remaining_exited (n := n) (exited_of_stuck guarded exits stuck)
    omega
  · intro all
    have exited := exited_of_stuck guarded exits (stuck all)
    refine ⟨exited, ?_⟩
    intro nonneg fits
    have excludes := excludes_of_reachable nonneg fits run.reachable
    have each := fun p => (excludes.fits p).finished (by rw [exited p]; rfl)
    have lines := excludes.lines .parent
    have parent := each .parent
    have child := each .child
    simp only [Process.other] at lines
    have length : s.output.length = (2 * n).toNat := by omega
    rw [excludes.values, length]

theorem shared_counter_completes_one_loop : ∃ s, Takes (Step 1) Program.works3.start 15 s ∧
    Stuck (Step 1) s ∧ s.output.map Line.value = [0, 1] := by
  let schedule : List Process := .child :: .child :: .parent :: List.replicate 4 .child ++
    [.parent, .child] ++ List.replicate 6 .parent
  have unblocked : (scheduled (step 1) schedule Program.works3.start).isSome = true := by decide
  obtain ⟨s, ran⟩ := Option.isSome_iff_exists.mp unblocked
  have run : Takes (Step 1) Program.works3.start 15 s := takes_of_scheduled ran
  obtain ⟨_, stuck, done⟩ := shared_counter_completes .works3 1 run
  exact ⟨s, run, stuck.mpr rfl, (done rfl).2 (by decide) (by decide)⟩

end OS2.Counter
