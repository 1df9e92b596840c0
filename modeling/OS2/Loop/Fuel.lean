import Mathlib.Logic.Relation
import Mathlib.Order.Basic

namespace OS2.Loop

inductive Stop (ε : Type) where
  | fuel
  | fault (e : ε)
  deriving DecidableEq, Repr

variable {ε ε' σ α β : Type}

def Stop.map (f : ε → ε') : Stop ε → Stop ε'
  | .fuel => .fuel
  | .fault e => .fault (f e)

def whileLoop (cond : σ → Bool) (body : σ → Except ε σ) : Nat → σ → Except (Stop ε) σ
  | 0, _ => .error .fuel
  | fuel + 1, s =>
    if cond s then
      match body s with
      | .ok t => whileLoop cond body fuel t
      | .error e => .error (.fault e)
    else .ok s

/-- From some amount of fuel on, the computation gives `result`. -/
def Ends (run : Nat → Except (Stop ε) α) (result : Except (Stop ε) α) : Prop :=
  ∃ least, ∀ fuel, least ≤ fuel → run fuel = result

def Hangs (run : Nat → Except (Stop ε) α) : Prop := ∀ fuel, run fuel = .error .fuel

def Monotone (run : Nat → Except (Stop ε) α) : Prop :=
  ∀ fuel more, fuel ≤ more → run fuel ≠ .error .fuel → run more = run fuel

theorem bind_ok {x : Except ε α} {f : α → Except ε β} {b : β} (h : (x >>= f) = .ok b) :
    ∃ a, x = .ok a ∧ f a = .ok b := by
  cases x with
  | error e => cases h
  | ok a => exact ⟨a, rfl, h⟩

theorem Ends.unique {run : Nat → Except (Stop ε) α} {r r' : Except (Stop ε) α}
    (h : Ends run r) (h' : Ends run r') : r = r' := by
  obtain ⟨n, hn⟩ := h
  obtain ⟨m, hm⟩ := h'
  rw [← hn (max n m) (Nat.le_max_left _ _), hm (max n m) (Nat.le_max_right _ _)]

theorem Ends.const (r : Except (Stop ε) α) : Ends (fun _ => r) r := ⟨0, fun _ _ => rfl⟩

theorem Ends.bind {run : Nat → Except (Stop ε) α} {next : Nat → α → Except (Stop ε) β} {a : α}
    {r : Except (Stop ε) β} (first : Ends run (.ok a)) (second : Ends (next · a) r) :
    Ends (fun fuel => run fuel >>= next fuel) r := by
  obtain ⟨n, hn⟩ := first
  obtain ⟨m, hm⟩ := second
  refine ⟨max n m, fun fuel bound => ?_⟩
  have enough : n ≤ fuel ∧ m ≤ fuel := by omega
  simp only [hn fuel enough.1, Bind.bind, Except.bind, hm fuel enough.2]

theorem Ends.bind_error {run : Nat → Except (Stop ε) α} {e : Stop ε} (first : Ends run (.error e))
    (next : Nat → α → Except (Stop ε) β) : Ends (fun fuel => run fuel >>= next fuel) (.error e) := by
  obtain ⟨n, hn⟩ := first
  exists n
  intro fuel bound
  simp only [hn fuel bound, Bind.bind, Except.bind]

theorem Ends.map {run : Nat → Except (Stop ε) α} {r : Except (Stop ε) α} (f : α → β)
    (ends : Ends run r) : Ends (fun fuel => (run fuel).map f) (r.map f) := by
  obtain ⟨n, hn⟩ := ends
  exact ⟨n, fun fuel bound => congrArg (Except.map f) (hn fuel bound)⟩

theorem Monotone.ends {run : Nat → Except (Stop ε) α} (mono : Monotone run) {fuel : Nat}
    {r : Except (Stop ε) α} (h : run fuel = r) (done : r ≠ .error .fuel) : Ends run r := by
  subst h
  exact ⟨fuel, fun more bound => mono fuel more bound done⟩

theorem Monotone.map {run : Nat → Except (Stop ε) α} (mono : Monotone run) (f : α → β) :
    Monotone fun fuel => (run fuel).map f := by
  intro fuel more bound done
  have first : run fuel ≠ .error .fuel := by
    intro out
    apply done
    exact congrArg (Except.map f) out
  exact congrArg (Except.map f) (mono fuel more bound first)

section While

variable {cond : σ → Bool} {body : σ → Except ε σ} {s t : σ}

def Iter (cond : σ → Bool) (body : σ → Except ε σ) (s t : σ) : Prop :=
  cond s = true ∧ body s = .ok t

def Reaches (cond : σ → Bool) (body : σ → Except ε σ) : σ → σ → Prop :=
  Relation.ReflTransGen (Iter cond body)

theorem whileLoop_exit (done : cond s = false) (fuel : Nat) :
    whileLoop cond body (fuel + 1) s = .ok s := by
  simp [whileLoop, done]

theorem whileLoop_iter (iter : Iter cond body s t) (fuel : Nat) :
    whileLoop cond body (fuel + 1) s = whileLoop cond body fuel t := by
  simp [whileLoop, iter.1, iter.2]

theorem whileLoop_monotone (s : σ) : Monotone (whileLoop cond body · s) := by
  intro fuel
  induction fuel generalizing s with
  | zero => intro more _ done; exact absurd rfl done
  | succ fuel ih =>
    intro more bound done
    obtain ⟨more, rfl⟩ : ∃ k, more = k + 1 := ⟨more - 1, by omega⟩
    simp only [whileLoop] at done ⊢
    split
    · cases hb : body s with
      | error e => rfl
      | ok t =>
        simp only [*, if_true] at done
        exact ih t more (by omega) done
    · rfl

def SameEnd (cond : σ → Bool) (body : σ → Except ε σ) (s t : σ) : Prop :=
  ∀ r, Ends (whileLoop cond body · s) r ↔ Ends (whileLoop cond body · t) r

theorem SameEnd.refl (s : σ) : SameEnd cond body s s := fun _ => Iff.rfl

theorem SameEnd.symm (h : SameEnd cond body s t) : SameEnd cond body t s := fun r => (h r).symm

theorem SameEnd.trans {u : σ} (h : SameEnd cond body s t) (h' : SameEnd cond body t u) :
    SameEnd cond body s u := fun r => (h r).trans (h' r)

theorem Iter.sameEnd (iter : Iter cond body s t) : SameEnd cond body s t := by
  intro r
  constructor
  · intro ⟨n, hn⟩
    refine ⟨n, fun fuel bound => ?_⟩
    change whileLoop cond body fuel t = r
    rw [← whileLoop_iter iter]
    exact hn _ (by omega)
  · intro ⟨n, hn⟩
    refine ⟨n + 1, fun fuel bound => ?_⟩
    obtain ⟨fuel, rfl⟩ : ∃ k, fuel = k + 1 := ⟨fuel - 1, by omega⟩
    change whileLoop cond body (fuel + 1) s = r
    rw [whileLoop_iter iter]
    exact hn _ (by omega)

theorem Reaches.sameEnd (reaches : Reaches cond body s t) : SameEnd cond body s t := by
  induction reaches with
  | refl => exact .refl _
  | tail _ iter ih => exact ih.trans iter.sameEnd

theorem ends_exit (done : cond s = false) : Ends (whileLoop cond body · s) (.ok s) := by
  refine ⟨1, fun fuel bound => ?_⟩
  obtain ⟨fuel, rfl⟩ : ∃ k, fuel = k + 1 := ⟨fuel - 1, by omega⟩
  exact whileLoop_exit done fuel

theorem ends_fault {e : ε} (more : cond s = true) (fails : body s = .error e) :
    Ends (whileLoop cond body · s) (.error (.fault e)) := by
  refine ⟨1, fun fuel bound => ?_⟩
  obtain ⟨fuel, rfl⟩ : ∃ k, fuel = k + 1 := ⟨fuel - 1, by omega⟩
  simp only [whileLoop, more, if_true, fails]

/-- The divergence rule: an invariant under which the condition holds and every passage
    through the body leads back into the invariant. -/
theorem hangs_of_invariant (invariant : σ → Prop)
    (again : ∀ s, invariant s → ∃ t, Iter cond body s t ∧ invariant t) (start : invariant s) :
    Hangs (whileLoop cond body · s) := by
  intro fuel
  induction fuel generalizing s with
  | zero => rfl
  | succ fuel ih =>
    obtain ⟨t, iter, kept⟩ := again s start
    change whileLoop cond body (fuel + 1) s = _
    rw [whileLoop_iter iter]
    exact ih kept

theorem whileLoop_invariant {invariant : σ → Prop}
    (kept : ∀ s t, invariant s → Iter cond body s t → invariant t) (start : invariant s) {fuel : Nat}
    (h : whileLoop cond body fuel s = .ok t) : invariant t ∧ cond t = false := by
  induction fuel generalizing s with
  | zero => cases h
  | succ fuel ih =>
    rw [whileLoop] at h
    split at h
    · rename_i more
      cases passed : body s with
      | error e => rw [passed] at h; cases h
      | ok next =>
        rw [passed] at h
        exact ih (kept s next start ⟨more, passed⟩) h
    · rename_i done
      cases h
      exact ⟨start, Bool.eq_false_iff.mpr done⟩

theorem ends_fuel_iff : Ends (whileLoop cond body · s) (.error .fuel) ↔
    Hangs (whileLoop cond body · s) := by
  constructor
  · intro ⟨n, hn⟩ fuel
    by_contra done
    have later := whileLoop_monotone s fuel (max n fuel) (Nat.le_max_right _ _) done
    exact done (later.symm.trans (hn _ (Nat.le_max_left _ _)))
  · intro hangs
    exact ⟨0, fun fuel _ => hangs fuel⟩

end While

end OS2.Loop
