import OS2.Counter.Shared
import OS2.Machine.Progress
import Mathlib.Data.List.Nodup

namespace OS2.Counter

open OS2.Machine

def PC.inside : PC → Bool
  | .load | .store | .print | .post => true
  | _ => false

def PC.finished : PC → Bool
  | .waitpid | .exited => true
  | _ => false

def Local.holds (l : Local) : Nat := if l.pc.inside then 1 else 0

def Local.pending (l : Local) : Nat := if l.pc = .print then 1 else 0

def State.printed (s : State) (p : Process) : Nat := s.output.countP (·.writer = p)

def Local.Fits (n count : Int) (printed : Nat) (l : Local) : Prop :=
  match l.pc with
  | .test => l.i ≤ n ∧ printed = l.i
  | .wait | .load => l.i < n ∧ printed = l.i
  | .store => l.i < n ∧ printed = l.i ∧ l.loaded = count
  | .print => l.i < n ∧ printed = l.i ∧ l.loaded + 1 = count
  | .post => l.i < n ∧ printed = l.i + 1
  | .waitpid | .exited => l.i = n ∧ printed = l.i

/-- One process at most is inside, the counter is one ahead of the output while a value is stored and
    not printed, and the values printed are the first natural numbers. -/
structure Excludes (n : Int) (s : State) : Prop where
  mutex : ∀ p, s.mutex + (s.process p).holds + (s.process p.other).holds = 1
  count : ∀ p, s.count = s.output.length + (s.process p).pending + (s.process p.other).pending
  values : s.output.map Line.value = (List.range s.output.length).map Int.ofNat
  lines : ∀ p, s.output.length = s.printed p + s.printed p.other
  fits : ∀ p, (s.process p).Fits n s.count (s.printed p)

@[simp] theorem other_other (p : Process) : p.other.other = p := by cases p <;> rfl

theorem other_ne (p : Process) : p.other ≠ p := by cases p <;> decide

@[simp] theorem put_self (s : State) (p : Process) (l : Local) : (s.put p l).process p = l := by
  simp [State.put]

@[simp] theorem put_other (s : State) (p : Process) (l : Local) :
    (s.put p l).process p.other = s.process p.other := by
  simp [State.put, other_ne]

@[simp] theorem put_count (s : State) (p : Process) (l : Local) : (s.put p l).count = s.count := rfl

@[simp] theorem put_mutex (s : State) (p : Process) (l : Local) : (s.put p l).mutex = s.mutex := rfl

@[simp] theorem put_output (s : State) (p : Process) (l : Local) : (s.put p l).output = s.output := rfl

theorem both_of_sides {fact : Process → Prop} (p : Process) (own : fact p) (others : fact p.other) (q : Process) :
    fact q := by
  cases p <;> cases q <;> assumption

theorem Excludes.of_sides {n : Int} {s : State} (p : Process)
    (mutex : s.mutex + (s.process p).holds + (s.process p.other).holds = 1)
    (count : s.count = s.output.length + (s.process p).pending + (s.process p.other).pending)
    (values : s.output.map Line.value = (List.range s.output.length).map Int.ofNat)
    (lines : s.output.length = s.printed p + s.printed p.other)
    (own : (s.process p).Fits n s.count (s.printed p))
    (others : (s.process p.other).Fits n s.count (s.printed p.other)) : Excludes n s := by
  refine ⟨both_of_sides p mutex ?_, both_of_sides p count ?_, values, both_of_sides p lines ?_,
    both_of_sides p own others⟩
  · rw [other_other]
    omega
  · rw [other_other]
    omega
  · rw [other_other]
    omega

inductive Moves (n : Int) (p : Process) (s : State) : State → Prop where
  | enter (at' : (s.process p).pc = .test) (more : (s.process p).i < n) :
      Moves n p s (s.put p { s.process p with pc := .wait })
  | leave (pc : PC) (at' : (s.process p).pc = .test) (done : ¬ (s.process p).i < n) (behind : pc.finished = true) :
      Moves n p s (s.put p { s.process p with pc := pc })
  | wait (at' : (s.process p).pc = .wait) (free : s.mutex ≠ 0) :
      Moves n p s (State.put { s with mutex := s.mutex - 1 } p { s.process p with pc := .load })
  | load (at' : (s.process p).pc = .load) :
      Moves n p s (s.put p { s.process p with pc := .store, loaded := s.count })
  | store (at' : (s.process p).pc = .store) :
      Moves n p s (State.put { s with count := succInt (s.process p).loaded } p { s.process p with pc := .print })
  | print (at' : (s.process p).pc = .print) :
      Moves n p s (State.put { s with output := s.output ++ [⟨p, (s.process p).loaded⟩] } p
        { s.process p with pc := .post })
  | post (at' : (s.process p).pc = .post) :
      Moves n p s (State.put { s with mutex := s.mutex + 1 } p
        { s.process p with pc := .test, i := (s.process p).i + 1 })
  | reap (at' : (s.process p).pc = .waitpid) :
      Moves n p s (s.put p { s.process p with pc := .exited })

theorem moves_of_step {n : Int} {p : Process} {s t : State} (h : step n p s = some t) : Moves n p s t := by
  unfold step at h
  cases at' : (s.process p).pc <;> simp only [at'] at h
  case test =>
    split at h
    · rename_i more
      cases h
      exact .enter at' more
    · rename_i done
      cases p <;> cases h
      · exact .leave .waitpid at' done rfl
      · exact .leave .exited at' done rfl
  case wait =>
    split at h
    · cases h
    · rename_i free
      cases h
      exact .wait at' free
  case load =>
    cases h
    exact .load at'
  case store =>
    cases h
    exact .store at'
  case print =>
    cases h
    exact .print at'
  case post =>
    cases h
    exact .post at'
  case waitpid =>
    split at h
    · cases h
      exact .reap at'
    · cases h
  case exited => cases h

theorem printed_put (s : State) (p q : Process) (l : Local) : (s.put q l).printed p = s.printed p := rfl

theorem Local.Fits.count_irrel {n count count' : Int} {printed : Nat} {l : Local}
    (outside : l.pc.inside = false) (fits : l.Fits n count printed) : l.Fits n count' printed := by
  unfold Local.Fits at fits ⊢
  cases at' : l.pc <;> simp only [at', PC.inside] at outside fits ⊢ <;> first | exact fits | cases outside

theorem Local.Fits.bound {n count : Int} {printed : Nat} {l : Local} (fits : l.Fits n count printed) :
    printed ≤ n := by
  unfold Local.Fits at fits
  cases at' : l.pc <;> simp only [at'] at fits <;> omega

theorem succInt_eq {x : Int} (low : 0 ≤ x) (high : x < INT_MAX) : succInt x = x + 1 := by
  unfold INT_MAX at high
  apply Int.bmod_eq_of_le <;> omega

theorem Local.holds_eq_zero {l : Local} (none : l.holds = 0) : l.pc.inside = false ∧ l.pending = 0 := by
  have outside : l.pc.inside = false := by
    unfold Local.holds at none
    split at none
    · cases none
    · rename_i outside
      exact Bool.eq_false_iff.mpr outside
  refine ⟨outside, ?_⟩
  unfold Local.pending
  split
  · rename_i at'
    rw [at'] at outside
    cases outside
  · rfl

theorem Excludes.put {n : Int} {p : Process} {s : State} {l : Local} (excludes : Excludes n s)
    (holds : l.holds = (s.process p).holds) (pending : l.pending = (s.process p).pending)
    (own : l.Fits n s.count (s.printed p)) : Excludes n (s.put p l) := by
  apply Excludes.of_sides p <;> simp only [put_self, put_other, put_count, put_mutex, put_output, printed_put]
  · rw [holds]
    exact excludes.mutex p
  · rw [pending]
    exact excludes.count p
  · exact excludes.values
  · exact excludes.lines p
  · exact own
  · exact excludes.fits p.other

theorem Excludes.wait {n : Int} {p : Process} {s : State} (excludes : Excludes n s)
    (at' : (s.process p).pc = .wait) (free : s.mutex ≠ 0) :
    Excludes n (State.put { s with mutex := s.mutex - 1 } p { s.process p with pc := .load }) := by
  have mutex := excludes.mutex p
  have count := excludes.count p
  have own := excludes.fits p
  simp only [Local.Fits, at'] at own
  apply Excludes.of_sides p <;> simp only [put_self, put_other, put_count, put_mutex, put_output, printed_put]
  · simp only [Local.holds, PC.inside, at'] at mutex ⊢
    simp only [Bool.false_eq_true, if_false, if_true] at mutex ⊢
    omega
  · simpa [Local.pending, at'] using count
  · exact excludes.values
  · exact excludes.lines p
  · exact own
  · exact excludes.fits p.other

theorem Excludes.post {n : Int} {p : Process} {s : State} (excludes : Excludes n s)
    (at' : (s.process p).pc = .post) :
    Excludes n (State.put { s with mutex := s.mutex + 1 } p
      { s.process p with pc := .test, i := (s.process p).i + 1 }) := by
  have mutex := excludes.mutex p
  have count := excludes.count p
  have own := excludes.fits p
  simp only [Local.Fits, at'] at own
  apply Excludes.of_sides p <;> simp only [put_self, put_other, put_count, put_mutex, put_output, printed_put]
  · simp only [Local.holds, PC.inside, at'] at mutex ⊢
    simp only [Bool.false_eq_true, if_false, if_true] at mutex ⊢
    omega
  · simpa [Local.pending, at'] using count
  · exact excludes.values
  · exact excludes.lines p
  · exact ⟨own.1, own.2⟩
  · exact excludes.fits p.other

theorem Excludes.alone {n : Int} {p : Process} {s : State} (excludes : Excludes n s)
    (inside : (s.process p).pc.inside = true) :
    (s.process p.other).pc.inside = false ∧ (s.process p.other).pending = 0 := by
  have mutex := excludes.mutex p
  have holds : (s.process p).holds = 1 := by simp [Local.holds, inside]
  apply Local.holds_eq_zero
  omega

theorem Excludes.store {n : Int} {p : Process} {s : State} (fits : 2 * n ≤ INT_MAX) (excludes : Excludes n s)
    (at' : (s.process p).pc = .store) :
    Excludes n (State.put { s with count := succInt (s.process p).loaded } p
      { s.process p with pc := .print }) := by
  have mutex := excludes.mutex p
  have count := excludes.count p
  have lines := excludes.lines p
  have own := excludes.fits p
  have others := excludes.fits p.other
  have bound := others.bound
  obtain ⟨outside, settled⟩ := excludes.alone (p := p) (by rw [at']; rfl)
  simp only [Local.Fits, at'] at own
  have ahead : (s.process p).pending = 0 := by simp [Local.pending, at']
  have next : succInt (s.process p).loaded = s.count + 1 := by
    rw [own.2.2]
    apply succInt_eq <;> omega
  apply Excludes.of_sides p <;> simp only [put_self, put_other, put_count, put_mutex, put_output, printed_put]
  · simpa [Local.holds, PC.inside, at'] using mutex
  · have pending : ({ s.process p with pc := .print } : Local).pending = 1 := rfl
    rw [pending, settled]
    omega
  · exact excludes.values
  · exact excludes.lines p
  · exact ⟨own.1, own.2.1, by rw [next, own.2.2]⟩
  · exact others.count_irrel outside

theorem Excludes.print {n : Int} {p : Process} {s : State} (excludes : Excludes n s)
    (at' : (s.process p).pc = .print) :
    Excludes n (State.put { s with output := s.output ++ [⟨p, (s.process p).loaded⟩] } p
      { s.process p with pc := .post }) := by
  have mutex := excludes.mutex p
  have count := excludes.count p
  have lines := excludes.lines p
  have own := excludes.fits p
  obtain ⟨outside, settled⟩ := excludes.alone (p := p) (by rw [at']; rfl)
  simp only [Local.Fits, at'] at own
  have ahead : (s.process p).pending = 1 := by simp [Local.pending, at']
  have next : (s.process p).loaded = s.output.length := by omega
  have printedOwn : (State.put { s with output := s.output ++ [⟨p, (s.process p).loaded⟩] } p
      { s.process p with pc := .post }).printed p = s.printed p + 1 := by
    simp [State.printed, List.countP_append]
  have printedOther : (State.put { s with output := s.output ++ [⟨p, (s.process p).loaded⟩] } p
      { s.process p with pc := .post }).printed p.other = s.printed p.other := by
    simp [State.printed, List.countP_append, (other_ne p).symm]
  apply Excludes.of_sides p <;>
    simp only [put_self, put_other, put_count, put_mutex, put_output, printedOwn, printedOther, List.length_append,
      List.length_singleton]
  · simpa [Local.holds, PC.inside, at'] using mutex
  · have pending : ({ s.process p with pc := .post } : Local).pending = 0 := rfl
    rw [pending, settled]
    omega
  · rw [List.map_append, excludes.values, List.range_succ, List.map_append, List.map_singleton,
      List.map_singleton, next]
    rfl
  · omega
  · refine ⟨own.1, ?_⟩
    show ((s.printed p + 1 : Nat) : Int) = (s.process p).i + 1
    omega
  · exact excludes.fits p.other

theorem Excludes.moves {n : Int} {p : Process} {s t : State} (fits : 2 * n ≤ INT_MAX) (excludes : Excludes n s)
    (moves : Moves n p s t) : Excludes n t := by
  have own := excludes.fits p
  cases moves with
  | enter at' more =>
    simp only [Local.Fits, at'] at own
    apply excludes.put
    · simp [Local.holds, at', PC.inside]
    · simp [Local.pending, at']
    · exact ⟨more, own.2⟩
  | leave pc at' done behind =>
    simp only [Local.Fits, at'] at own
    have here : (s.process p).i = n ∧ s.printed p = (s.process p).i := by omega
    apply excludes.put
    · cases pc <;> cases behind <;> simp [Local.holds, at', PC.inside]
    · cases pc <;> cases behind <;> simp [Local.pending, at']
    · cases pc <;> cases behind <;> exact here
  | wait at' free => exact excludes.wait at' free
  | load at' =>
    simp only [Local.Fits, at'] at own
    apply excludes.put
    · simp [Local.holds, at', PC.inside]
    · simp [Local.pending, at']
    · exact ⟨own.1, own.2, rfl⟩
  | store at' => exact excludes.store fits at'
  | print at' => exact excludes.print at'
  | post at' => exact excludes.post at'
  | reap at' =>
    simp only [Local.Fits, at'] at own
    apply excludes.put
    · simp [Local.holds, at', PC.inside]
    · simp [Local.pending, at']
    · exact own

theorem byte_write_zeros (b : Backing) {size i : Nat} (bound : i < size) :
    (b.write (List.replicate size 0)).byte i = 0 := by
  cases b with
  | file bytes => simp [Backing.write, Backing.byte, List.getElem?_append_left, bound]
  | devZero => rfl

theorem int_write_zeros (b : Backing) {size : Nat} (bound : 4 ≤ size) :
    (b.write (List.replicate size 0)).int = 0 := by
  have bytes := fun i (inside : i < 4) => byte_write_zeros b (Nat.lt_of_lt_of_le inside bound)
  unfold Backing.int
  rw [bytes 0 (by decide), bytes 1 (by decide), bytes 2 (by decide), bytes 3 (by decide)]
  simp

theorem start_eq (program : Program) :
    program.start = { count := 0, mutex := 1, process := fun _ => ⟨.test, 0, 0⟩, output := [] } := by
  have forkedAt : ∀ b : Backing, b.int = 0 →
      forked b 1 = { count := 0, mutex := 1, process := fun _ => ⟨.test, 0, 0⟩, output := [] } := by
    intro b start
    rw [forked, start]
  cases program with
  | works1 pathname => exact forkedAt _ (int_write_zeros _ (Nat.le_refl 4))
  | works2 pathname => exact forkedAt _ (int_write_zeros _ (show 4 ≤ 40 by omega))
  | works3 => exact forkedAt _ (int_write_zeros _ (show 4 ≤ 40 by omega))

theorem excludes_start {n : Int} (nonneg : 0 ≤ n) (program : Program) : Excludes n program.start := by
  rw [start_eq]
  apply Excludes.of_sides .parent
  · rfl
  · rfl
  · rfl
  · rfl
  · exact ⟨nonneg, rfl⟩
  · exact ⟨nonneg, rfl⟩

theorem excludes_of_reachable {n : Int} (nonneg : 0 ≤ n) (fits : 2 * n ≤ INT_MAX) {program : Program} {s : State}
    (run : Reachable (Step n) program.start s) : Excludes n s :=
  run.invariant (excludes_start nonneg program)
    fun _ _ excludes ⟨_, h⟩ => excludes.moves fits (moves_of_step h)

theorem Local.Fits.finished {n count : Int} {printed : Nat} {l : Local} (fits : l.Fits n count printed)
    (done : l.pc.finished = true) : printed = n ∧ l.pending = 0 := by
  unfold Local.Fits at fits
  cases at' : l.pc <;> rw [at'] at done <;> cases done <;> simp only [at'] at fits <;>
    exact ⟨by omega, by simp [Local.pending, at']⟩

/-- In every interleaving one process at most is between its `sem_wait` and its `sem_post`, the values
    are printed in their order, and behind both loops each of the 2n values is printed once, n of them
    by each process. -/
theorem shared_counter_works (program : Program) {n : Int} (nonneg : 0 ≤ n) (fits : 2 * n ≤ INT_MAX) {s : State}
    (run : Reachable (Step n) program.start s) :
    ¬ ((s.process .parent).pc.inside = true ∧ (s.process .child).pc.inside = true) ∧
    s.output.map Line.value = (List.range s.output.length).map Int.ofNat ∧
    ((∀ p, (s.process p).pc.finished = true) →
      s.count = 2 * n ∧ (∀ p, s.printed p = n) ∧
      s.output.map Line.value = (List.range (2 * n).toNat).map Int.ofNat ∧ (s.output.map Line.value).Nodup) := by
  have excludes := excludes_of_reachable nonneg fits run
  refine ⟨?_, excludes.values, ?_⟩
  · intro ⟨parent, child⟩
    have outside := (excludes.alone parent).1
    rw [Process.other, child] at outside
    cases outside
  · intro done
    have each := fun p => (excludes.fits p).finished (done p)
    have count := excludes.count .parent
    have lines := excludes.lines .parent
    have parent := each .parent
    have child := each .child
    simp only [Process.other] at count lines
    have length : s.output.length = (2 * n).toNat := by omega
    refine ⟨by omega, fun p => (each p).1, ?_, ?_⟩
    · rw [excludes.values, length]
    · rw [excludes.values]
      exact List.nodup_range.map Int.ofNat_injective

theorem shared_counter_works_one_loop :
    ∃ s, Reachable (Step 1) Program.works3.start s ∧
      s.output = [⟨.child, 0⟩, ⟨.parent, 1⟩] ∧ s.count = 2 * 1 ∧ ∀ p, s.printed p = (1 : Int) := by
  let schedule : List Process := [.child, .child, .parent, .child, .child, .child, .child, .parent, .child] ++
    List.replicate 6 .parent
  have ran : (scheduled (step 1) schedule Program.works3.start).map (fun s => (s.output, (s.process .parent).pc,
      (s.process .child).pc)) = some ([⟨.child, 0⟩, ⟨.parent, 1⟩], .exited, .exited) := by decide
  obtain ⟨s, followed, shape⟩ := Option.map_eq_some_iff.mp ran
  obtain ⟨output, parent, child⟩ : s.output = _ ∧ (s.process .parent).pc = _ ∧ (s.process .child).pc = _ := by
    simpa using shape
  have run : Reachable (Step 1) Program.works3.start s := (takes_of_scheduled followed).reachable
  have finished : ∀ p, (s.process p).pc.finished = true := by
    intro p
    cases p
    · rw [parent]
      rfl
    · rw [child]
      rfl
  have works := (shared_counter_works .works3 (by decide) (by decide) run).2.2 finished
  exact ⟨s, run, output, works.1, works.2.1⟩

end OS2.Counter
