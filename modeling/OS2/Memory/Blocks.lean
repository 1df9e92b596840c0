import OS2.Loop.Fuel
import Mathlib.Data.List.Nodup
import Mathlib.Data.Nat.Find

namespace OS2.Memory

open OS2.Loop

variable {β : Type}

/-- The blocks that `malloc` has given out and that are not freed, by their addresses; none is at NULL. -/
structure Store (β : Type) where
  block : Nat → Option β
  finite : ∃ limit, ∀ a, limit ≤ a → block a = none
  null : block 0 = none

inductive Misuse where
  | access
  | free
  deriving DecidableEq, Repr

def Store.empty : Store β := ⟨fun _ => none, ⟨0, fun _ _ => rfl⟩, rfl⟩

def Store.put (s : Store β) (a : Nat) (b : Option β) : Store β where
  block := fun x => if x = a ∧ a ≠ 0 then b else s.block x
  finite := by
    obtain ⟨limit, free⟩ := s.finite
    exists limit + a + 1
    intro x bound
    have above : limit ≤ x ∧ x ≠ a := by omega
    rw [if_neg fun same => above.2 same.1]
    exact free x above.1
  null := by
    rw [if_neg (by omega)]
    exact s.null

/-- A `malloc` that never fails: it returns any address that is not in use. -/
structure Malloc (β : Type) where
  pick : Store β → Nat
  fresh : ∀ s : Store β, s.block (pick s) = none
  nonnull : ∀ s : Store β, pick s ≠ 0

def Malloc.alloc (malloc : Malloc β) (s : Store β) (b : β) : Store β × Nat :=
  (s.put (malloc.pick s) (some b), malloc.pick s)

def Store.load (s : Store β) (a : Nat) : Except (Stop Misuse) β :=
  match s.block a with
  | some b => .ok b
  | none => .error (.fault .access)

def Store.write (s : Store β) (a : Nat) (b : β) : Except (Stop Misuse) (Store β) :=
  if (s.block a).isSome then .ok (s.put a (some b)) else .error (.fault .access)

def Store.free (s : Store β) (a : Nat) : Except (Stop Misuse) (Store β) :=
  if a = 0 then .ok s else if (s.block a).isSome then .ok (s.put a none) else .error (.fault .free)

structure Live (s : Store β) (owned : List Nat) : Prop where
  nodup : owned.Nodup
  live : ∀ a, (s.block a).isSome = true ↔ a ∈ owned

variable {s t : Store β} {a x : Nat} {b : β} {owned owned' : List Nat} {malloc : Malloc β}

theorem Store.block_put (nonnull : a ≠ 0) (b : Option β) (x : Nat) :
    (s.put a b).block x = if x = a then b else s.block x := by
  simp [Store.put, nonnull]

theorem Store.ne_zero (used : s.block a = some b) : a ≠ 0 := by
  intro zero
  rw [zero, s.null] at used
  cases used

theorem Store.load_eq (used : s.block a = some b) : s.load a = .ok b := by
  rw [Store.load, used]

theorem Store.write_eq (used : s.block a = some b) (b' : β) :
    ∃ t, s.write a b' = .ok t ∧ ∀ x, t.block x = if x = a then some b' else s.block x :=
  ⟨_, by rw [Store.write, used]; rfl, Store.block_put (Store.ne_zero used) _⟩

theorem Malloc.alloc_block (malloc : Malloc β) (s : Store β) (b : β) (x : Nat) :
    (malloc.alloc s b).1.block x = if x = (malloc.alloc s b).2 then some b else s.block x :=
  Store.block_put (malloc.nonnull s) _ x

theorem Live.empty : Live (.empty : Store β) [] := ⟨List.nodup_nil, by simp [Store.empty]⟩

theorem Live.perm (live : Live s owned) (same : owned.Perm owned') : Live s owned' :=
  ⟨same.nodup_iff.mp live.nodup, fun a => (live.live a).trans same.mem_iff⟩

theorem Live.fresh (live : Live s owned) (malloc : Malloc β) (b : β) : (malloc.alloc s b).2 ∉ owned := by
  intro member
  have used := (live.live _).mpr member
  rw [show s.block (malloc.alloc s b).2 = none from malloc.fresh s] at used
  cases used

theorem Live.alloc (live : Live s owned) (malloc : Malloc β) (b : β) :
    Live (malloc.alloc s b).1 ((malloc.alloc s b).2 :: owned) := by
  refine ⟨List.nodup_cons.mpr ⟨live.fresh malloc b, live.nodup⟩, ?_⟩
  intro x
  rw [malloc.alloc_block, List.mem_cons]
  split
  · rename_i new
    simp [new]
  · rename_i other
    simp [other, live.live]

theorem Live.write (live : Live s owned) (used : s.block a = some b) {b' : β}
    (written : ∀ x, t.block x = if x = a then some b' else s.block x) : Live t owned := by
  refine ⟨live.nodup, ?_⟩
  intro x
  rw [written, ← live.live x]
  split
  · rename_i same
    simp [same, used]
  · rfl

theorem Live.free (live : Live s (a :: owned)) :
    ∃ t, s.free a = .ok t ∧ Live t owned ∧ ∀ x, x ≠ a → t.block x = s.block x := by
  have used := (live.live a).mpr List.mem_cons_self
  obtain ⟨b, used⟩ := Option.isSome_iff_exists.mp used
  have nonnull := Store.ne_zero used
  obtain ⟨outside, later⟩ := List.nodup_cons.mp live.nodup
  refine ⟨s.put a none, ?_, ⟨later, ?_⟩, ?_⟩
  · rw [Store.free, if_neg nonnull, used]
    rfl
  · intro x
    rw [Store.block_put nonnull]
    split
    · rename_i same
      simp [same, outside]
    · rename_i other
      rw [live.live, List.mem_cons]
      simp [other]
  · intro x other
    rw [Store.block_put nonnull, if_neg other]

theorem Live.alloc_kept (live : Live s owned) (malloc : Malloc β) (b : β) (inside : x ∈ owned) :
    (malloc.alloc s b).1.block x = s.block x := by
  rw [malloc.alloc_block, if_neg]
  rintro rfl
  exact live.fresh malloc b inside

/-- `realloc`, where the block may stay in its place or move; `realloc(NULL, size)` is `malloc(size)`. -/
def Malloc.realloc (malloc : Malloc β) (s : Store β) (a : Nat) (b : β) : Except (Stop Misuse) (Store β × Nat) := do
  let s ← s.free a
  .ok (malloc.alloc s b)

theorem Live.realloc_null (live : Live s owned) (malloc : Malloc β) (b : β) :
    ∃ t new, malloc.realloc s 0 b = .ok (t, new) ∧ Live t (new :: owned) ∧ t.block new = some b ∧
      ∀ x ∈ owned, t.block x = s.block x := by
  refine ⟨_, _, rfl, live.alloc malloc b, ?_, fun x inside => live.alloc_kept malloc b inside⟩
  exact (malloc.alloc_block s b _).trans (if_pos rfl)

theorem Live.realloc (live : Live s (a :: owned)) (malloc : Malloc β) (b : β) :
    ∃ t new, malloc.realloc s a b = .ok (t, new) ∧ Live t (new :: owned) ∧ t.block new = some b ∧
      ∀ x ∈ owned, t.block x = s.block x := by
  obtain ⟨s', freed, live', kept⟩ := live.free
  refine ⟨_, _, ?_, live'.alloc malloc b, ?_, ?_⟩
  · rw [Malloc.realloc, freed]
    rfl
  · exact (malloc.alloc_block s' b _).trans (if_pos rfl)
  · intro x inside
    rw [live'.alloc_kept malloc b inside]
    apply kept
    rintro rfl
    exact (List.nodup_cons.mp live.nodup).1 inside

theorem Store.exists_free (s : Store β) : ∃ a, a ≠ 0 ∧ (s.block a).isNone = true := by
  obtain ⟨limit, free⟩ := s.finite
  exact ⟨limit + 1, by omega, by rw [free _ (by omega)]; rfl⟩

def Malloc.lowest : Malloc β where
  pick := fun s => Nat.find s.exists_free
  fresh := fun s => Option.isNone_iff_eq_none.mp (Nat.find_spec s.exists_free).2
  nonnull := fun s => (Nat.find_spec s.exists_free).1

end OS2.Memory
