import Mathlib.Data.Nat.Find
import Mathlib.Logic.Function.Basic

namespace OS2.Posix

variable {α : Type}

/-- The open descriptors of a process, finitely many, and what each refers to. -/
structure Table (α : Type) where
  entry : Nat → Option α
  finite : ∃ limit, ∀ fd, limit ≤ fd → entry fd = none

@[ext] theorem Table.ext {t u : Table α} (same : ∀ fd, t.entry fd = u.entry fd) : t = u := by
  cases t
  cases u
  congr
  funext fd
  exact same fd

theorem Table.exists_free (t : Table α) : ∃ fd, (t.entry fd).isNone = true := by
  obtain ⟨limit, free⟩ := t.finite
  exact ⟨limit, by rw [free limit (Nat.le_refl _)]; rfl⟩

def Table.lowest (t : Table α) : Nat := Nat.find t.exists_free

def Table.update (t : Table α) (fd : Nat) (x : Option α) : Table α where
  entry := Function.update t.entry fd x
  finite := by
    obtain ⟨limit, free⟩ := t.finite
    refine ⟨max limit (fd + 1), fun other bound => ?_⟩
    rw [Function.update_of_ne (by omega)]
    exact free other (by omega)

def Table.assign (t : Table α) (fd : Nat) (x : α) : Table α := t.update fd (some x)

def Table.close (t : Table α) (fd : Nat) : Table α := t.update fd none

def Table.dup2 (t : Table α) (old new : Nat) : Table α :=
  match t.entry old with
  | some x => t.assign new x
  | none => t

/-- `pipe(fds)`: both ends on the lowest free descriptors, the read end first. -/
def Table.pipe (t : Table α) (read write : α) : Table α × Nat × Nat :=
  let first := t.assign t.lowest read
  (first.assign first.lowest write, t.lowest, first.lowest)

def Table.map {β : Type} (f : α → β) (t : Table α) : Table β where
  entry := fun fd => (t.entry fd).map f
  finite := by
    obtain ⟨limit, free⟩ := t.finite
    exact ⟨limit, fun fd bound => by rw [free fd bound]; rfl⟩

@[simp] theorem Table.entry_map {β : Type} (f : α → β) (t : Table α) (fd : Nat) :
    (t.map f).entry fd = (t.entry fd).map f := rfl

theorem Table.entry_update (t : Table α) (fd other : Nat) (x : Option α) :
    (t.update fd x).entry other = if other = fd then x else t.entry other := by
  simp [Table.update, Function.update_apply]

@[simp] theorem Table.entry_assign (t : Table α) (fd other : Nat) (x : α) :
    (t.assign fd x).entry other = if other = fd then some x else t.entry other :=
  t.entry_update fd other (some x)

@[simp] theorem Table.entry_close (t : Table α) (fd other : Nat) :
    (t.close fd).entry other = if other = fd then none else t.entry other :=
  t.entry_update fd other none

@[simp] theorem Table.assign_assign (t : Table α) (fd : Nat) (x y : α) :
    (t.assign fd x).assign fd y = t.assign fd y := by
  ext1 other
  simp only [Table.entry_assign]
  split <;> rfl

theorem Table.dup2_open {t : Table α} {old : Nat} {x : α} (opened : t.entry old = some x) (new : Nat) :
    t.dup2 old new = t.assign new x := by
  rw [Table.dup2, opened]

theorem Table.lowest_free (t : Table α) : t.entry t.lowest = none :=
  Option.isNone_iff_eq_none.mp (Nat.find_spec t.exists_free)

theorem Table.pipe_fresh (t : Table α) (read write : α) :
    ∃ r w, t.pipe read write = ((t.assign r read).assign w write, r, w) ∧
      t.entry r = none ∧ t.entry w = none ∧ r ≠ w := by
  refine ⟨t.lowest, (t.assign t.lowest read).lowest, rfl, t.lowest_free, ?_⟩
  have free := (t.assign t.lowest read).lowest_free
  rw [Table.entry_assign] at free
  split at free
  · cases free
  · rename_i other
    exact ⟨free, fun same => other same.symm⟩

theorem Table.ne_of_free {t : Table α} {fd other : Nat} (free : t.entry fd = none)
    (opened : (t.entry other).isSome = true) : other ≠ fd := by
  intro same
  subst same
  rw [free] at opened
  cases opened

end OS2.Posix
