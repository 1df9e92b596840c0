import OS2.Machine.Runs
import Mathlib.Order.OrderIsoNat

namespace OS2.Machine

variable {σ : Type}

inductive Takes (step : σ → σ → Prop) (s : σ) : Nat → σ → Prop where
  | refl : Takes step s 0 s
  | next {n : Nat} {t u : σ} (run : Takes step s n t) (h : step t u) : Takes step s (n + 1) u

def Stuck (step : σ → σ → Prop) (s : σ) : Prop := ∀ t, ¬ step s t

def Endless (step : σ → σ → Prop) (start : σ) (run : Nat → σ) : Prop :=
  run 0 = start ∧ ∀ i, step (run i) (run (i + 1))

/-- The state behind a schedule of processes, none of which may be blocked at its turn. -/
def scheduled {ι : Type} (step : ι → σ → Option σ) : List ι → σ → Option σ
  | [], s => some s
  | p :: schedule, s => (step p s).bind (scheduled step schedule)

variable {step : σ → σ → Prop} {start s t : σ} {n : Nat}

theorem Takes.head (first : step start s) (run : Takes step s n t) : Takes step start (n + 1) t := by
  induction run with
  | refl => exact Takes.refl.next first
  | next _ h ih => exact ih.next h

theorem takes_of_scheduled {ι : Type} {step : ι → σ → Option σ} {schedule : List ι}
    (ran : scheduled step schedule s = some t) : Takes (fun s t => ∃ p, step p s = some t) s schedule.length t := by
  induction schedule generalizing s with
  | nil =>
    cases ran
    exact .refl
  | cons p schedule ih =>
    obtain ⟨next, moved, later⟩ := Option.bind_eq_some_iff.mp ran
    exact (ih later).head ⟨p, moved⟩

theorem Takes.reachable (run : Takes step start n s) : Reachable step start s := by
  induction run with
  | refl => exact .refl
  | next _ h ih => exact ih.next h

theorem Reachable.takes (run : Reachable step start s) : ∃ n, Takes step start n s := by
  induction run with
  | refl => exact ⟨0, .refl⟩
  | tail _ h ih =>
    obtain ⟨n, run⟩ := ih
    exact ⟨n + 1, run.next h⟩

theorem Endless.reachable {run : Nat → σ} (endless : Endless step start run) (i : Nat) :
    Reachable step start (run i) := by
  induction i with
  | zero =>
    rw [endless.1]
    exact .refl
  | succ i ih => exact ih.next (endless.2 i)

section Rank

variable {rank : σ → Nat}

theorem Takes.spends (run : Takes step start n s)
    (costs : ∀ s t, Reachable step start s → step s t → rank s = rank t + 1) :
    rank s + n = rank start := by
  induction run with
  | refl => rfl
  | next run h ih =>
    have cost := costs _ _ run.reachable h
    omega

theorem Takes.bounded (run : Takes step start n s)
    (falls : ∀ s t, Reachable step start s → step s t → rank t < rank s) :
    rank s + n ≤ rank start := by
  induction run with
  | refl => exact Nat.le_refl _
  | next run h ih =>
    have fall := falls _ _ run.reachable h
    omega

theorem Reachable.finishes (run : Reachable step start s)
    (falls : ∀ s t, Reachable step start s → step s t → rank t < rank s) :
    ∃ t, Reachable step s t ∧ Stuck step t := by
  obtain ⟨height, same⟩ : ∃ height, height = rank s := ⟨_, rfl⟩
  induction height using Nat.strong_induction_on generalizing s with
  | _ height ih =>
    by_cases stuck : Stuck step s
    · exact ⟨s, .refl, stuck⟩
    · obtain ⟨next, h⟩ : ∃ next, step s next := by
        simpa [Stuck] using stuck
      have fall := falls s next run h
      obtain ⟨last, rest, stuck⟩ := ih (rank next) (by omega) (run.next h) rfl
      exact ⟨last, (Reachable.refl.next h).trans rest, stuck⟩

theorem exists_rise (rank : Nat → Nat) (i : Nat) : ∃ j, i ≤ j ∧ rank j ≤ rank (j + 1) := by
  by_contra none
  have falls : StrictAnti fun k => rank (i + k) := by
    apply strictAnti_nat_of_succ_lt
    intro k
    by_contra level
    exact none ⟨i + k, by omega, Nat.le_of_not_lt level⟩
  exact not_strictAnti_of_wellFoundedLT _ falls

end Rank

end OS2.Machine
