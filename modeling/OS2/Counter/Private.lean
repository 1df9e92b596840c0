import OS2.Counter.Progress

namespace OS2.Counter.Private

open OS2.Machine

/-- Behind the `fork` of shared_counter_doesnt_work.c each process has a page of its own with the
    static `count`; only the semaphore is shared. -/
structure State where
  count : Process → Int
  mutex : Nat
  process : Process → Local
  output : List Line

def State.view (s : State) (p : Process) : Counter.State :=
  { count := s.count p, mutex := s.mutex, process := s.process, output := s.output }

def State.install (s : State) (p : Process) (t : Counter.State) : State :=
  { count := Function.update s.count p t.count, mutex := t.mutex, process := t.process, output := t.output }

def step (n : Int) (p : Process) (s : State) : Option State := (Counter.step n p (s.view p)).map (s.install p)

def Step (n : Int) (s t : State) : Prop := ∃ p, step n p s = some t

def start : State := { count := fun _ => 0, mutex := 1, process := fun _ => ⟨.test, 0, 0⟩, output := [] }

def linesOf (p : Process) (output : List Line) : List Int := (output.filter (·.writer = p)).map Line.value

def naturals (k : Nat) : List Int := (List.range k).map Int.ofNat

structure Counts (n count : Int) (lines : List Int) (l : Local) : Prop where
  ahead : count = lines.length + l.pending
  values : lines = naturals lines.length
  fits : l.Fits n count lines.length

structure Separate (n : Int) (s : State) : Prop where
  guarded : Guarded (s.view .parent)
  exits : ChildExits (s.view .parent)
  counts : ∀ p, Counts n (s.count p) (linesOf p s.output) (s.process p)

variable {n : Int} {p : Process} {s t : State} {l : Local}

theorem naturals_succ (k : Nat) : naturals (k + 1) = naturals k ++ [(k : Int)] := by
  rw [naturals, List.range_succ, List.map_append]
  rfl

theorem Counts.put {count : Int} {lines : List Int} {l' : Local} (counts : Counts n count lines l)
    (pending : l'.pending = l.pending) (fits : l'.Fits n count lines.length) : Counts n count lines l' :=
  ⟨by rw [pending]; exact counts.ahead, counts.values, fits⟩

theorem moves_of_step (h : step n p s = some t) :
    ∃ next, Counter.step n p (s.view p) = some next ∧ Moves n p (s.view p) next ∧ t = s.install p next := by
  obtain ⟨next, moved, rfl⟩ := Option.map_eq_some_iff.mp h
  exact ⟨next, moved, Counter.moves_of_step moved, rfl⟩

theorem other_step (h : step n p s = some t) : t.count p.other = s.count p.other ∧
    t.process p.other = s.process p.other ∧ linesOf p.other t.output = linesOf p.other s.output := by
  obtain ⟨next, _, moves, rfl⟩ := moves_of_step h
  have others := other_ne p
  cases moves <;>
    simp [State.install, State.view, linesOf, Counter.State.put, Function.update_of_ne others,
      List.filter_append, others.symm]

theorem linesOf_print (p : Process) (output : List Line) (value : Int) :
    linesOf p (output ++ [⟨p, value⟩]) = linesOf p output ++ [value] := by
  simp [linesOf, List.filter_append]

theorem Counts.store {count : Int} {lines : List Int} (fits : n ≤ INT_MAX) (counts : Counts n count lines l)
    (at' : l.pc = .store) : Counts n (succInt l.loaded) lines { l with pc := .print } := by
  have ahead := counts.ahead
  have own := counts.fits
  simp only [Local.Fits, at'] at own
  have settled : l.pending = 0 := by simp [Local.pending, at']
  have next : succInt l.loaded = count + 1 := by
    rw [own.2.2]
    apply succInt_eq <;> omega
  refine ⟨?_, counts.values, own.1, own.2.1, ?_⟩
  · have pending : ({ l with pc := .print } : Local).pending = 1 := rfl
    rw [next, pending]
    omega
  · show l.loaded + 1 = succInt l.loaded
    rw [next, own.2.2]

theorem Counts.print {count : Int} {lines : List Int} (counts : Counts n count lines l) (at' : l.pc = .print) :
    Counts n count (lines ++ [l.loaded]) { l with pc := .post } := by
  have ahead := counts.ahead
  have own := counts.fits
  simp only [Local.Fits, at'] at own
  have pending : l.pending = 1 := by simp [Local.pending, at']
  have next : l.loaded = lines.length := by omega
  refine ⟨?_, ?_, own.1, ?_⟩
  · have settled : ({ l with pc := .post } : Local).pending = 0 := rfl
    rw [settled, List.length_append, List.length_singleton]
    omega
  · rw [List.length_append, List.length_singleton, naturals_succ, ← counts.values, next]
  · show (((lines ++ [l.loaded]).length : Nat) : Int) = l.i + 1
    rw [List.length_append, List.length_singleton]
    omega

theorem counts_step (fits : n ≤ INT_MAX) (counts : Counts n (s.count p) (linesOf p s.output) (s.process p))
    (h : step n p s = some t) : Counts n (t.count p) (linesOf p t.output) (t.process p) := by
  obtain ⟨next, _, moves, rfl⟩ := moves_of_step h
  have own := counts.fits
  have view : (s.view p).process p = s.process p := rfl
  simp only [State.install, Function.update_self]
  cases moves with
  | enter at' more =>
    simp only [put_self, put_count, put_output, view] at at' more ⊢
    simp only [Local.Fits, at'] at own
    exact counts.put (by simp [Local.pending, at']) ⟨more, own.2⟩
  | leave pc at' done behind =>
    simp only [put_self, put_count, put_output, view] at at' done ⊢
    simp only [Local.Fits, at'] at own
    have here : (s.process p).i = n ∧ ((linesOf p s.output).length : Int) = (s.process p).i := by omega
    apply counts.put
    · cases pc <;> cases behind <;> simp [Local.pending, at']
    · cases pc <;> cases behind <;> exact here
  | wait at' free =>
    simp only [put_self, put_count, put_output, view] at at' ⊢
    simp only [Local.Fits, at'] at own
    exact counts.put (by simp [Local.pending, at']) own
  | load at' =>
    simp only [put_self, put_count, put_output, view] at at' ⊢
    simp only [Local.Fits, at'] at own
    exact counts.put (by simp [Local.pending, at']) ⟨own.1, own.2, rfl⟩
  | store at' =>
    simp only [put_self, put_count, put_output, view] at at' ⊢
    exact counts.store fits at'
  | print at' =>
    simp only [put_self, put_count, put_output, view] at at' ⊢
    rw [show (s.view p).output = s.output from rfl, linesOf_print]
    exact counts.print at'
  | post at' =>
    simp only [put_self, put_count, put_output, view] at at' ⊢
    simp only [Local.Fits, at'] at own
    exact counts.put (by simp [Local.pending, at']) ⟨own.1, own.2⟩
  | reap at' =>
    simp only [put_self, put_count, put_output, view] at at' ⊢
    simp only [Local.Fits, at'] at own
    exact counts.put (by simp [Local.pending, at']) own

theorem Separate.step (fits : n ≤ INT_MAX) (separate : Separate n s) (h : step n p s = some t) : Separate n t := by
  obtain ⟨count, process, lines⟩ := other_step h
  have own := counts_step fits (separate.counts p) h
  have others : Counts n (t.count p.other) (linesOf p.other t.output) (t.process p.other) := by
    rw [count, process, lines]
    exact separate.counts p.other
  obtain ⟨next, moved, moves, rfl⟩ := moves_of_step h
  have guarded : Guarded next := Guarded.moves (s := s.view p) separate.guarded moves
  have exits : ChildExits next := ChildExits.step (s := s.view p) separate.exits moved
  exact ⟨guarded, exits, both_of_sides p own others⟩

theorem separate_start (nonneg : 0 ≤ n) : Separate n start :=
  ⟨fun _ => rfl, by simp [ChildExits, start, State.view], fun _ => ⟨rfl, rfl, nonneg, rfl⟩⟩

theorem separate_of_reachable (nonneg : 0 ≤ n) (fits : n ≤ INT_MAX) (run : Reachable (Step n) start s) :
    Separate n s :=
  run.invariant (separate_start nonneg) fun _ _ separate ⟨_, h⟩ => separate.step fits h

theorem blocked_any_count {s : Counter.State} (c : Int) (blocked : Counter.step n p s = none) :
    Counter.step n p { s with count := c } = none := by
  unfold Counter.step at blocked ⊢
  cases at' : (s.process p).pc <;> simp only [at'] at blocked ⊢
  case test =>
    split at blocked
    · cases blocked
    · cases p <;> cases blocked
  case wait =>
    split at blocked
    · rw [if_pos (by assumption)]
    · cases blocked
  case waitpid =>
    split at blocked
    · cases blocked
    · rw [if_neg (by assumption)]
  all_goals cases blocked

theorem stuck_view (stuck : Stuck (Step n) s) : Stuck (Counter.Step n) (s.view .parent) := by
  intro t ⟨p, h⟩
  have blocked : step n p s = none := by
    rw [Option.eq_none_iff_forall_ne_some]
    intro next moved
    exact stuck next ⟨p, moved⟩
  have own : Counter.step n p (s.view p) = none := by simpa [step] using blocked
  have parent : Counter.step n p (s.view .parent) = none := blocked_any_count (s.count .parent) own
  rw [parent] at h
  cases h

theorem remaining_step (h : step n p s = some t) :
    (s.view .parent).remaining n = (t.view .parent).remaining n + 1 := by
  obtain ⟨next, moved, _, rfl⟩ := moves_of_step h
  have cost : (s.view p).remaining n = next.remaining n + 1 := Counter.remaining_step moved
  exact cost

theorem Counts.finished {count : Int} {lines : List Int} (counts : Counts n count lines l)
    (exited : l.pc = .exited) : count = n ∧ lines = naturals n.toNat := by
  have ahead := counts.ahead
  obtain ⟨all, settled⟩ := counts.fits.finished (by rw [exited]; rfl)
  have length : lines.length = n.toNat := by omega
  exact ⟨by omega, by rw [counts.values, length]⟩

theorem Counts.bound {count : Int} {lines : List Int} (counts : Counts n count lines l) : count ≤ n := by
  have ahead := counts.ahead
  have own := counts.fits
  have all := own.bound
  unfold Local.Fits at own
  cases at' : l.pc <;> simp only [at', Local.pending] at own ahead <;> simp at ahead <;> omega

theorem count_naturals (k : Nat) {v : Int} (low : 0 ≤ v) (high : v < k) : (naturals k).count v = 1 := by
  obtain ⟨m, rfl⟩ := Int.eq_ofNat_of_zero_le low
  apply List.count_eq_one_of_mem
  · exact List.nodup_range.map Int.ofNat_injective
  · exact List.mem_map.mpr ⟨m, List.mem_range.mpr (by omega), rfl⟩

theorem count_lines (output : List Line) (v : Int) : (output.map Line.value).count v =
    (linesOf .parent output).count v + (linesOf .child output).count v := by
  induction output with
  | nil => rfl
  | cons line output ih =>
    obtain ⟨writer, value⟩ := line
    simp only [linesOf] at ih
    cases writer <;> simp [linesOf, List.count_cons, ih] <;> omega

/-- The program that does not work: its processes exclude each other as in the others and come to
    their ends behind the same 12n+3 steps, but each counts for itself from 0 to n-1, so that every
    value is printed twice and neither count ever passes n. -/
theorem shared_counter_doesnt_work {k : Nat} (nonneg : 0 ≤ n) (fits : n ≤ INT_MAX)
    (run : Takes (Step n) start k s) :
    ¬ ((s.process .parent).pc.inside = true ∧ (s.process .child).pc.inside = true) ∧
    (∀ p, linesOf p s.output = naturals (linesOf p s.output).length ∧ s.count p ≤ n) ∧
    k ≤ 12 * n.toNat + 3 ∧ (Stuck (Step n) s ↔ k = 12 * n.toNat + 3) ∧
    (k = 12 * n.toNat + 3 →
      (∀ p, (s.process p).pc = .exited ∧ s.count p = n ∧ linesOf p s.output = naturals n.toNat) ∧
      ∀ v, 0 ≤ v → v < n → (s.output.map Line.value).count v = 2) := by
  have separate := separate_of_reachable nonneg fits run.reachable
  have costs : ∀ s t, Reachable (Step n) start s → Step n s t →
      (s.view .parent).remaining n = (t.view .parent).remaining n + 1 := by
    intro s t _ step
    obtain ⟨p, h⟩ := step
    exact remaining_step h
  have spent := run.spends costs
  have first : (start.view .parent).remaining n = 12 * n.toNat + 3 := by
    simp only [start, State.view, Counter.State.remaining, Local.remaining, Process.ending, Int.sub_zero]
    omega
  rw [first] at spent
  have stuck : k = 12 * n.toNat + 3 → Stuck (Step n) s := by
    intro all t step
    obtain ⟨p, h⟩ := step
    have cost := remaining_step h
    omega
  have exited : Stuck (Step n) s → ∀ p, (s.process p).pc = .exited := fun stuck =>
    exited_of_stuck separate.guarded separate.exits (stuck_view stuck)
  refine ⟨?_, fun p => ⟨(separate.counts p).values, (separate.counts p).bound⟩, by omega, ⟨?_, stuck⟩, ?_⟩
  · intro both
    obtain ⟨parent, child⟩ := both
    have one := separate.guarded .parent
    simp [State.view, Process.other, Local.holds, parent, child] at one
  · intro stuck
    have nothing : (s.view .parent).remaining n = 0 := remaining_exited (exited stuck)
    omega
  · intro all
    have each := fun p => (separate.counts p).finished (exited (stuck all) p)
    refine ⟨fun p => ⟨exited (stuck all) p, each p⟩, ?_⟩
    intro v low high
    rw [count_lines, (each .parent).2, (each .child).2, count_naturals _ low (by omega)]

theorem shared_counter_doesnt_work_one_loop : ∃ s, Takes (Step 1) start 15 s ∧
    (∀ p, (s.process p).pc = .exited ∧ s.count p = 1 ∧ linesOf p s.output = naturals 1) ∧
    (s.output.map Line.value).count 0 = 2 := by
  let schedule : List Process := .child :: .child :: .parent :: List.replicate 4 .child ++
    [.parent, .child] ++ List.replicate 6 .parent
  have unblocked : (scheduled (step 1) schedule start).isSome = true := by decide
  obtain ⟨s, ran⟩ := Option.isSome_iff_exists.mp unblocked
  have run : Takes (Step 1) start 15 s := takes_of_scheduled ran
  obtain ⟨each, twice⟩ := (shared_counter_doesnt_work (by decide) (by decide) run).2.2.2.2 rfl
  exact ⟨s, run, each, twice 0 (by decide) (by decide)⟩

end OS2.Counter.Private
