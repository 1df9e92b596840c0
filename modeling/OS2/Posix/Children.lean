import Mathlib.Data.Finset.Card
import Mathlib.Logic.Function.Basic

namespace OS2.Posix

inductive Life where
  | absent
  | running (execed : Bool)
  | terminated (execed : Bool)
  | reaped
  deriving DecidableEq, Repr

abbrev Children := Nat → Life

inductive Lives (children : Children) : Children → Prop where
  | exec (k : Nat) (running : children k = .running false) :
      Lives children (Function.update children k (.running true))
  | terminate (k : Nat) (execed : Bool) (running : children k = .running execed) :
      Lives children (Function.update children k (.terminated execed))

/-- `setpgid(pid, 0)` fails on a child that has called `exec`. -/
def Life.execed : Life → Bool
  | .running execed => execed
  | .terminated execed => execed
  | _ => false

/-- `waitpid(pid, NULL, 0)` where it returns; `none` is the pid -1. It reaps a terminated child, or fails
    because there is none left to wait for. -/
inductive WaitPid (children : Children) : Option Nat → Children → Prop where
  | reap (k : Nat) (execed : Bool) (terminated : children k = .terminated execed) :
      WaitPid children (some k) (Function.update children k .reaped)
  | reapAny (k : Nat) (execed : Bool) (terminated : children k = .terminated execed) :
      WaitPid children none (Function.update children k .reaped)
  | noSuchChild (k : Nat) (gone : children k = .absent ∨ children k = .reaped) : WaitPid children (some k) children
  | noChild (gone : ∀ k, children k = .absent ∨ children k = .reaped) : WaitPid children none children

def reapedOf (children : Children) (count : Nat) : Nat :=
  ((Finset.range count).filter fun k => children k = .reaped).card

variable {children children' : Children} {count k : Nat}

theorem reapedOf_reap (bound : k < count) (unreaped : children k ≠ .reaped) :
    reapedOf (Function.update children k .reaped) count = reapedOf children count + 1 := by
  have grown : (Finset.range count).filter (fun j => Function.update children k .reaped j = .reaped) =
      insert k ((Finset.range count).filter fun j => children j = .reaped) := by
    ext j
    simp only [Finset.mem_filter, Finset.mem_range, Finset.mem_insert, Function.update_apply]
    grind
  rw [reapedOf, grown, Finset.card_insert_of_notMem (by simp [unreaped])]
  rfl

theorem reapedOf_congr (same : ∀ k, children' k = .reaped ↔ children k = .reaped) :
    reapedOf children' count = reapedOf children count := by
  simp only [reapedOf, same]

theorem reapedOf_zero (unreaped : ∀ k, children k ≠ .reaped) : reapedOf children count = 0 := by
  simp [reapedOf, unreaped]

theorem reapedOf_eq_iff : reapedOf children count = count ↔ ∀ k < count, children k = .reaped := by
  have whole : reapedOf children count = count ↔
      ((Finset.range count).filter fun k => children k = .reaped).card = (Finset.range count).card := by
    rw [Finset.card_range]
    rfl
  rw [whole, Finset.card_filter_eq_iff]
  simp

theorem Lives.kept (lives : Lives children children') (k : Nat) :
    (children' k = .absent ↔ children k = .absent) ∧ (children' k = .reaped ↔ children k = .reaped) := by
  cases lives with
  | exec j running =>
    by_cases same : k = j
    · simp [same, running]
    · simp [same]
  | terminate j execed running =>
    by_cases same : k = j
    · simp [same, running]
    · simp [same]

theorem WaitPid.reaps {pid : Option Nat} (waits : WaitPid children pid children') :
    (∃ k, (∀ j, pid = some j → j = k) ∧ children k ≠ .absent ∧ children k ≠ .reaped ∧
      children' = Function.update children k .reaped) ∨
    (children' = children ∧
      ∀ k, pid = none ∨ pid = some k → children k = .absent ∨ children k = .reaped) := by
  cases waits with
  | reap k execed terminated => exact .inl ⟨k, by simp, by simp [terminated], by simp [terminated], rfl⟩
  | reapAny k execed terminated => exact .inl ⟨k, by simp, by simp [terminated], by simp [terminated], rfl⟩
  | noSuchChild k gone =>
    refine .inr ⟨rfl, fun j same => ?_⟩
    obtain rfl : k = j := by simpa using same
    exact gone
  | noChild gone => exact .inr ⟨rfl, fun k _ => gone k⟩

theorem absent_update_reaped (present : children k ≠ .absent) (j : Nat) :
    Function.update children k .reaped j = .absent ↔ children j = .absent := by
  by_cases same : j = k
  · simp [same, present]
  · simp [same]

end OS2.Posix
