import Mathlib.Logic.Relation

namespace OS2.Machine

variable {σ : Type}

def Reachable (step : σ → σ → Prop) (start : σ) : σ → Prop := Relation.ReflTransGen step start

variable {step : σ → σ → Prop} {start s t : σ}

theorem Reachable.refl : Reachable step s s := Relation.ReflTransGen.refl

theorem Reachable.next (run : Reachable step start s) (h : step s t) : Reachable step start t := run.tail h

theorem Reachable.trans (first : Reachable step start s) (second : Reachable step s t) :
    Reachable step start t := Relation.ReflTransGen.trans first second

/-- What holds at the start and survives every step, holds in every state reached. -/
theorem Reachable.invariant {invariant : σ → Prop} (run : Reachable step start s)
    (first : invariant start) (kept : ∀ s t, invariant s → step s t → invariant t) : invariant s := by
  induction run with
  | refl => exact first
  | tail _ h ih => exact kept _ _ ih h

end OS2.Machine
