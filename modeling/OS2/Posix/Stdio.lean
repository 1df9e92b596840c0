import OS2.Machine.Progress

namespace OS2.Posix.Stdio

open OS2.Machine

variable {M : Type}

inductive Buffering where
  | line
  | full
  deriving DecidableEq, Repr

inductive Action (M : Type) where
  | printf (m : M)
  | fork
  | waitpid
  | exit
  deriving DecidableEq, Repr

structure Program (M : Type) where
  before : List M
  child : List M
  parent : List M
  behind : List M

structure Process (M : Type) where
  todo : List (Action M)
  buffer : List M
  deriving DecidableEq, Repr

structure State (M : Type) where
  parent : Process M
  child : Option (Process M)
  output : List M
  deriving DecidableEq, Repr

def Program.behindWait (p : Program M) : List (Action M) := p.behind.map .printf ++ [.exit]

def Program.behindFork (p : Program M) : List (Action M) := p.parent.map .printf ++ .waitpid :: p.behindWait

def Program.main (p : Program M) : List (Action M) := p.before.map .printf ++ .fork :: p.behindFork

def Program.forked (p : Program M) : List (Action M) := p.child.map .printf ++ [.exit]

def start (p : Program M) : State M := { parent := ⟨p.main, []⟩, child := none, output := [] }

def Buffering.print (b : Buffering) (m : M) (buffer output : List M) : List M × List M :=
  match b with
  | .line => ([], output ++ (buffer ++ [m]))
  | .full => (buffer ++ [m], output)

/-- `fork` copies the buffer, and `exit` writes what is in it. -/
inductive Step (b : Buffering) (p : Program M) (s : State M) : State M → Prop where
  | parentPrints {m : M} {todo : List (Action M)} (here : s.parent.todo = .printf m :: todo) :
      Step b p s { s with
        parent := ⟨todo, (b.print m s.parent.buffer s.output).1⟩
        output := (b.print m s.parent.buffer s.output).2 }
  | fork {todo : List (Action M)} (here : s.parent.todo = .fork :: todo) :
      Step b p s { s with parent := ⟨todo, s.parent.buffer⟩, child := some ⟨p.forked, s.parent.buffer⟩ }
  | forkFails {todo : List (Action M)} (here : s.parent.todo = .fork :: todo) :
      Step b p s { s with parent := ⟨[.exit], s.parent.buffer⟩ }
  | waitpid {todo : List (Action M)} {child : Process M} (here : s.parent.todo = .waitpid :: todo)
      (exists' : s.child = some child) (ended : child.todo = []) :
      Step b p s { s with parent := ⟨todo, s.parent.buffer⟩ }
  | parentExits {todo : List (Action M)} (here : s.parent.todo = .exit :: todo) :
      Step b p s { s with parent := ⟨[], []⟩, output := s.output ++ s.parent.buffer }
  | childPrints {m : M} {todo : List (Action M)} {child : Process M} (exists' : s.child = some child)
      (here : child.todo = .printf m :: todo) :
      Step b p s { s with
        child := some ⟨todo, (b.print m child.buffer s.output).1⟩
        output := (b.print m child.buffer s.output).2 }
  | childExits {todo : List (Action M)} {child : Process M} (exists' : s.child = some child)
      (here : child.todo = .exit :: todo) :
      Step b p s { s with child := some ⟨[], []⟩, output := s.output ++ child.buffer }

inductive Mixed : List M → List M → List M → Prop where
  | nil : Mixed [] [] []
  | left {mix xs ys : List M} (mixed : Mixed mix xs ys) (x : M) : Mixed (mix ++ [x]) (xs ++ [x]) ys
  | right {mix xs ys : List M} (mixed : Mixed mix xs ys) (y : M) : Mixed (mix ++ [y]) xs (ys ++ [y])

def Buffering.choose {α : Type} (b : Buffering) (line full : α) : α :=
  match b with
  | .line => line
  | .full => full

inductive Inv (b : Buffering) (p : Program M) : State M → Prop where
  | early {done left : List M} (before : p.before = done ++ left) :
      Inv b p ⟨⟨left.map .printf ++ .fork :: p.behindFork, b.choose [] done⟩, none, b.choose done []⟩
  | failed : Inv b p ⟨⟨[.exit], b.choose [] p.before⟩, none, b.choose p.before []⟩
  | alone : Inv b p ⟨⟨[], []⟩, none, p.before⟩
  | both {xs xs' ys ys' mix : List M} (child : p.child = xs ++ xs') (parent : p.parent = ys ++ ys')
      (mixed : Mixed mix xs ys) :
      Inv b p ⟨⟨ys'.map .printf ++ .waitpid :: p.behindWait, b.choose [] (p.before ++ ys)⟩,
        some ⟨xs'.map .printf ++ [.exit], b.choose [] (p.before ++ xs)⟩, b.choose (p.before ++ mix) []⟩
  | zombie {ys ys' mix : List M} (parent : p.parent = ys ++ ys') (mixed : Mixed mix p.child ys) :
      Inv b p ⟨⟨ys'.map .printf ++ .waitpid :: p.behindWait, b.choose [] (p.before ++ ys)⟩, some ⟨[], []⟩,
        b.choose (p.before ++ mix) (p.before ++ p.child)⟩
  | reaped {zs zs' mix : List M} (behind : p.behind = zs ++ zs') (mixed : Mixed mix p.child p.parent) :
      Inv b p ⟨⟨zs'.map .printf ++ [.exit], b.choose [] (p.before ++ p.parent ++ zs)⟩, some ⟨[], []⟩,
        b.choose (p.before ++ mix ++ zs) (p.before ++ p.child)⟩
  | ended {mix : List M} (mixed : Mixed mix p.child p.parent) :
      Inv b p ⟨⟨[], []⟩, some ⟨[], []⟩, b.choose (p.before ++ mix ++ p.behind)
        (p.before ++ p.child ++ (p.before ++ p.parent ++ p.behind))⟩

variable {b : Buffering} {p : Program M} {s t : State M}

theorem inv_start (b : Buffering) (p : Program M) : Inv b p (start p) := by
  cases b <;> exact @Inv.early _ _ p [] p.before rfl

theorem inv_early {done left : List M} (before : p.before = done ++ left)
    (step : Step b p ⟨⟨left.map .printf ++ .fork :: p.behindFork, b.choose [] done⟩, none, b.choose done []⟩ t) :
    Inv b p t := by
  cases left with
  | nil =>
    rw [List.append_nil] at before
    cases step with
    | parentPrints here => cases here
    | fork here =>
      cases here
      have next := @Inv.both _ b p [] p.child [] p.parent [] rfl rfl .nil
      rw [List.append_nil, before] at next
      exact next
    | forkFails here =>
      cases here
      have next := @Inv.failed _ b p
      rw [before] at next
      exact next
    | waitpid here => cases here
    | parentExits here => cases here
    | childPrints exists' => cases exists'
    | childExits exists' => cases exists'
  | cons m left =>
    cases step with
    | parentPrints here =>
      cases here
      have next := @Inv.early _ b p (done ++ [m]) left (by rw [before, List.append_assoc]; rfl)
      cases b <;> exact next
    | fork here => cases here
    | forkFails here => cases here
    | waitpid here => cases here
    | parentExits here => cases here
    | childPrints exists' => cases exists'
    | childExits exists' => cases exists'

theorem inv_failed (step : Step b p ⟨⟨[.exit], b.choose [] p.before⟩, none, b.choose p.before []⟩ t) : Inv b p t := by
  cases step with
  | parentPrints here => cases here
  | fork here => cases here
  | forkFails here => cases here
  | waitpid here => cases here
  | parentExits here =>
    cases here
    have next := @Inv.alone _ b p
    cases b with
    | line => simpa [Buffering.choose] using next
    | full => exact next
  | childPrints exists' => cases exists'
  | childExits exists' => cases exists'

theorem inv_alone (step : Step b p ⟨⟨[], []⟩, none, p.before⟩ t) : Inv b p t := by
  cases step with
  | parentPrints here => cases here
  | fork here => cases here
  | forkFails here => cases here
  | waitpid here => cases here
  | parentExits here => cases here
  | childPrints exists' => cases exists'
  | childExits exists' => cases exists'

theorem inv_both {xs xs' ys ys' mix : List M} (child : p.child = xs ++ xs') (parent : p.parent = ys ++ ys')
    (mixed : Mixed mix xs ys)
    (step : Step b p ⟨⟨ys'.map .printf ++ .waitpid :: p.behindWait, b.choose [] (p.before ++ ys)⟩,
      some ⟨xs'.map .printf ++ [.exit], b.choose [] (p.before ++ xs)⟩, b.choose (p.before ++ mix) []⟩ t) :
    Inv b p t := by
  cases step with
  | @parentPrints m todo here =>
    cases ys' with
    | nil => cases here
    | cons y ys' =>
      cases here
      have next := @Inv.both _ b p xs xs' (ys ++ [m]) ys' (mix ++ [m]) child (by rw [parent, List.append_assoc]; rfl)
        (mixed.right m)
      cases b <;> simpa [Buffering.choose, Buffering.print] using next
  | fork here => cases ys' <;> cases here
  | forkFails here => cases ys' <;> cases here
  | waitpid here exists' ended =>
    cases exists'
    cases xs' <;> cases ended
  | parentExits here => cases ys' <;> cases here
  | @childPrints m todo child' exists' here =>
    cases exists'
    cases xs' with
    | nil => cases here
    | cons x xs' =>
      cases here
      have next := @Inv.both _ b p (xs ++ [m]) xs' ys ys' (mix ++ [m]) (by rw [child, List.append_assoc]; rfl) parent
        (mixed.left m)
      cases b <;> simpa [Buffering.choose, Buffering.print] using next
  | childExits exists' here =>
    cases exists'
    cases xs' with
    | cons x xs' => cases here
    | nil =>
      rw [List.append_nil] at child
      have next := @Inv.zombie _ b p ys ys' mix parent (child ▸ mixed)
      cases b <;> simpa [Buffering.choose, child] using next

theorem inv_zombie {ys ys' mix : List M} (parent : p.parent = ys ++ ys') (mixed : Mixed mix p.child ys)
    (step : Step b p ⟨⟨ys'.map .printf ++ .waitpid :: p.behindWait, b.choose [] (p.before ++ ys)⟩, some ⟨[], []⟩,
      b.choose (p.before ++ mix) (p.before ++ p.child)⟩ t) : Inv b p t := by
  cases step with
  | @parentPrints m todo here =>
    cases ys' with
    | nil => cases here
    | cons y ys' =>
      cases here
      have next := @Inv.zombie _ b p (ys ++ [m]) ys' (mix ++ [m]) (by rw [parent, List.append_assoc]; rfl)
        (mixed.right m)
      cases b <;> simpa [Buffering.choose, Buffering.print] using next
  | fork here => cases ys' <;> cases here
  | forkFails here => cases ys' <;> cases here
  | waitpid here exists' ended =>
    cases ys' with
    | cons y ys' => cases here
    | nil =>
      cases here
      rw [List.append_nil] at parent
      have next := @Inv.reaped _ b p [] p.behind mix rfl (parent ▸ mixed)
      cases b <;> simpa [Buffering.choose, Program.behindWait, parent] using next
  | parentExits here => cases ys' <;> cases here
  | childPrints exists' here =>
    cases exists'
    cases here
  | childExits exists' here =>
    cases exists'
    cases here

theorem inv_reaped {zs zs' mix : List M} (behind : p.behind = zs ++ zs') (mixed : Mixed mix p.child p.parent)
    (step : Step b p ⟨⟨zs'.map .printf ++ [.exit], b.choose [] (p.before ++ p.parent ++ zs)⟩, some ⟨[], []⟩,
      b.choose (p.before ++ mix ++ zs) (p.before ++ p.child)⟩ t) : Inv b p t := by
  cases step with
  | @parentPrints m todo here =>
    cases zs' with
    | nil => cases here
    | cons z zs' =>
      cases here
      have next := @Inv.reaped _ b p (zs ++ [m]) zs' mix (by rw [behind, List.append_assoc]; rfl) mixed
      cases b <;> simpa [Buffering.choose, Buffering.print] using next
  | fork here => cases zs' <;> cases here
  | forkFails here => cases zs' <;> cases here
  | waitpid here => cases zs' <;> cases here
  | parentExits here =>
    cases zs' with
    | cons z zs' => cases here
    | nil =>
      rw [List.append_nil] at behind
      have next := @Inv.ended _ b p mix mixed
      cases b <;> simpa [Buffering.choose, behind] using next
  | childPrints exists' here =>
    cases exists'
    cases here
  | childExits exists' here =>
    cases exists'
    cases here

theorem inv_step (inv : Inv b p s) (step : Step b p s t) : Inv b p t := by
  cases inv with
  | early before => exact inv_early before step
  | failed => exact inv_failed step
  | alone => exact inv_alone step
  | both child parent mixed => exact inv_both child parent mixed step
  | zombie parent mixed => exact inv_zombie parent mixed step
  | reaped behind mixed => exact inv_reaped behind mixed step
  | ended mixed =>
    cases step with
    | parentPrints here => cases here
    | fork here => cases here
    | forkFails here => cases here
    | waitpid here => cases here
    | parentExits here => cases here
    | childPrints exists' here =>
      cases exists'
      cases here
    | childExits exists' here =>
      cases exists'
      cases here

theorem inv_of_reachable (run : Reachable (Step b p) (start p) s) : Inv b p s :=
  run.invariant (inv_start b p) fun _ _ => inv_step

/-- What has been written when the parent is over: fully buffered, the lines from before the `fork` come
    once more, behind those of the child. -/
theorem written (run : Reachable (Step b p) (start p) s) (ended : s.parent.todo = []) :
    s.child = none ∧ s.output = p.before ∨ ∃ mix, Mixed mix p.child p.parent ∧
      s.output =
        b.choose (p.before ++ mix ++ p.behind) (p.before ++ p.child ++ (p.before ++ p.parent ++ p.behind)) := by
  cases inv_of_reachable run with
  | @early done left before => cases left <;> cases ended
  | failed => cases ended
  | alone => exact .inl ⟨rfl, rfl⟩
  | @both xs xs' ys ys' => cases ys' <;> cases ended
  | @zombie ys ys' => cases ys' <;> cases ended
  | @reaped zs zs' => cases zs' <;> cases ended
  | ended mixed => exact .inr ⟨_, mixed, rfl⟩

def State.remaining (p : Program M) (s : State M) : Nat :=
  s.parent.todo.length + match s.child with
    | none => p.forked.length
    | some child => child.todo.length

theorem Inv.forking {todo : List (Action M)} (inv : Inv b p s) (here : s.parent.todo = .fork :: todo) :
    s.child = none ∧ todo = p.behindFork := by
  cases inv with
  | @early done left before =>
    cases left with
    | nil =>
      cases here
      exact ⟨rfl, rfl⟩
    | cons m left => cases here
  | failed => cases here
  | alone => cases here
  | @both xs xs' ys ys' => cases ys' <;> cases here
  | @zombie ys ys' => cases ys' <;> cases here
  | @reaped zs zs' => cases zs' <;> cases here
  | ended => cases here

theorem remaining_step (inv : Inv b p s) (step : Step b p s t) : t.remaining p < s.remaining p := by
  cases step with
  | parentPrints here => simp [State.remaining, here]
  | fork here => simp [State.remaining, here, (inv.forking here).1]
  | forkFails here =>
    obtain ⟨absent, rfl⟩ := inv.forking here
    simp only [State.remaining, here, absent, Program.behindFork, List.length_cons, List.length_append,
      List.length_nil]
    omega
  | waitpid here exists' ended => simp [State.remaining, here]
  | parentExits here =>
    simp only [State.remaining, here, List.length_nil, List.length_cons]
    omega
  | childPrints exists' here => simp [State.remaining, here, exists']
  | childExits exists' here => simp [State.remaining, here, exists']

theorem over_of_stuck (inv : Inv b p s) (stuck : Stuck (Step b p) s) : s.parent.todo = [] := by
  cases inv with
  | @early done left before =>
    cases left with
    | nil => exact absurd (Step.fork rfl) (stuck _)
    | cons m left => exact absurd (Step.parentPrints rfl) (stuck _)
  | failed => exact absurd (Step.parentExits rfl) (stuck _)
  | alone => rfl
  | @both xs xs' ys ys' =>
    cases xs' with
    | nil => exact absurd (Step.childExits rfl rfl) (stuck _)
    | cons x xs' => exact absurd (Step.childPrints rfl rfl) (stuck _)
  | @zombie ys ys' =>
    cases ys' with
    | nil => exact absurd (Step.waitpid rfl rfl rfl) (stuck _)
    | cons y ys' => exact absurd (Step.parentPrints rfl) (stuck _)
  | @reaped zs zs' =>
    cases zs' with
    | nil => exact absurd (Step.parentExits rfl) (stuck _)
    | cons z zs' => exact absurd (Step.parentPrints rfl) (stuck _)
  | ended => rfl

theorem can_end (run : Reachable (Step b p) (start p) s) : ∃ t, Reachable (Step b p) s t ∧ t.parent.todo = [] := by
  have falls : ∀ s t, Reachable (Step b p) (start p) s → Step b p s t → t.remaining p < s.remaining p :=
    fun _ _ run step => remaining_step (inv_of_reachable run) step
  obtain ⟨t, rest, stuck⟩ := run.finishes falls
  exact ⟨t, rest, over_of_stuck (inv_of_reachable (run.trans rest)) stuck⟩

theorem Mixed.count [BEq M] {mix xs ys : List M} (mixed : Mixed mix xs ys) (m : M) :
    mix.count m = xs.count m + ys.count m := by
  induction mixed with
  | nil => rfl
  | left mixed x ih =>
    rw [List.count_append, List.count_append, ih]
    omega
  | right mixed y ih =>
    rw [List.count_append, List.count_append, ih]
    omega

theorem Mixed.length {mix xs ys : List M} (mixed : Mixed mix xs ys) : mix.length = xs.length + ys.length := by
  induction mixed with
  | nil => rfl
  | left mixed x ih =>
    rw [List.length_append, List.length_append, ih]
    omega
  | right mixed y ih =>
    rw [List.length_append, List.length_append, ih]
    omega

theorem Mixed.sublists {mix xs ys : List M} (mixed : Mixed mix xs ys) : xs.Sublist mix ∧ ys.Sublist mix := by
  induction mixed with
  | nil => exact ⟨.slnil, .slnil⟩
  | left mixed x ih => exact ⟨ih.1.append_right [x], ih.2.trans (List.sublist_append_left _ _)⟩
  | right mixed y ih => exact ⟨ih.1.trans (List.sublist_append_left _ _), ih.2.append_right [y]⟩

end OS2.Posix.Stdio
