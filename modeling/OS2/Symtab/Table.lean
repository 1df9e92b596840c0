import OS2.Text.Chars

namespace OS2.Symtab

open OS2.Text

inductive SType where
  | var
  | internal
  deriving DecidableEq, Repr

/-- A `void *` of the symbol table. `H` is the type of the functions of the program; a string is static,
    or in a block of the caller's own, or the copy that one `strdup` of the table made. -/
inductive Ptr (H : Type) where
  | null
  | code (h : H)
  | text (s : Str)
  | own (block : Nat)
  | dup (block : Nat) (s : Str)
  deriving DecidableEq, Repr

def Ptr.chars {H : Type} : Ptr H → Option Str
  | .text s | .dup _ s => some s
  | .null | .code _ | .own _ => none

def Ptr.block {H : Type} : Ptr H → Option Nat
  | .dup block _ => some block
  | _ => none

structure Symbol (H : Type) where
  name : Str
  value : Ptr H
  type : SType
  deriving DecidableEq, Repr

structure Heap (H : Type) where
  dups : Nat
  freed : List (Ptr H)
  deriving DecidableEq, Repr

/-- The arguments `type` and `value` of `symtab_set`: a `SYM_VAR` comes with a string, which is
    copied, a `SYM_INTERNAL` with any address. -/
inductive Setting (H : Type) where
  | var (s : Str)
  | internal (value : Ptr H)
  deriving DecidableEq, Repr

variable {H : Type}

def Setting.type : Setting H → SType
  | .var _ => .var
  | .internal _ => .internal

def Heap.init : Heap H := { dups := 0, freed := [] }

def strdup (heap : Heap H) (s : Str) : Ptr H × Heap H :=
  (.dup heap.dups s, { heap with dups := heap.dups + 1 })

def Heap.Owns (heap : Heap H) : Ptr H → Prop
  | .dup block _ => block < heap.dups ∧ block ∉ heap.freed.filterMap Ptr.block
  | .own block => .own block ∉ heap.freed
  | .null | .code _ | .text _ => False

instance [DecidableEq H] (heap : Heap H) : (p : Ptr H) → Decidable (heap.Owns p)
  | .dup _ _ => inferInstanceAs (Decidable (_ ∧ _))
  | .own _ => inferInstanceAs (Decidable (¬ _))
  | .null | .code _ | .text _ => .isFalse not_false

def Heap.called (heap : Heap H) (p : Ptr H) : Heap H := { heap with freed := heap.freed ++ [p] }

/-- The process is aborted where the address is of no block that can be freed. -/
def free [DecidableEq H] (heap : Heap H) (p : Ptr H) : Except (Heap H) (Heap H) :=
  if heap.Owns p then .ok (heap.called p) else .error (heap.called p)

def symtabLookup (symtab : List (Symbol H)) (name : Str) : Option (Symbol H) :=
  match symtab with
  | [] => none
  | symbol :: next => if symbol.name = name then some symbol else symtabLookup next name

def overwrite (symtab : List (Symbol H)) (name : Str) (value : Ptr H) (type : SType) : List (Symbol H) :=
  match symtab with
  | [] => []
  | symbol :: next =>
    if symbol.name = name then { symbol with value := value, type := type } :: next
    else symbol :: overwrite next name value type

def copyIn (heap : Heap H) (setting : Setting H) : Ptr H × Heap H :=
  match setting with
  | .var s => strdup heap s
  | .internal value => (value, heap)

def symtabSet [DecidableEq H] (symtab : List (Symbol H)) (heap : Heap H) (name : Str)
    (setting : Setting H) : Except (Heap H) (List (Symbol H) × Heap H) :=
  let (value, heap) := copyIn heap setting
  match symtabLookup symtab name with
  | none => .ok ({ name := name, value := value, type := setting.type } :: symtab, heap)
  | some symbol => do
    let heap ← if symbol.value = .null then .ok heap else free heap symbol.value
    .ok (overwrite symtab name value setting.type, heap)

def symtabRemove (symtab : List (Symbol H)) (name : Str) : List (Symbol H) :=
  match symtab with
  | [] => []
  | symbol :: next => if symbol.name = name then next else symbol :: symtabRemove next name

def symtabFetch (symtab : List (Symbol H)) (name : Str) (value : Ptr H) : Ptr H :=
  match symtabLookup symtab name with
  | some symbol => symbol.value
  | none => value

def symtabSize : List (Symbol H) → Nat
  | [] => 0
  | _ :: next => symtabSize next + 1

def symtabFree [DecidableEq H] (symtab : List (Symbol H)) (heap : Heap H) : Except (Heap H) (Heap H) :=
  match symtab with
  | [] => .ok heap
  | symbol :: next => do
    let heap ← if symbol.type = .var then free heap symbol.value else .ok heap
    symtabFree next heap

def names (symtab : List (Symbol H)) : List Str := symtab.map Symbol.name

@[simp] theorem names_nil : names ([] : List (Symbol H)) = [] := rfl

@[simp] theorem names_cons (symbol : Symbol H) (next : List (Symbol H)) :
    names (symbol :: next) = symbol.name :: names next := rfl

theorem mem_names_of_mem {symtab : List (Symbol H)} {symbol : Symbol H} (member : symbol ∈ symtab) :
    symbol.name ∈ names symtab := List.mem_map_of_mem member

theorem symtabLookup_some {symtab : List (Symbol H)} {name : Str} {symbol : Symbol H}
    (found : symtabLookup symtab name = some symbol) : symbol ∈ symtab ∧ symbol.name = name := by
  induction symtab with
  | nil => simp [symtabLookup] at found
  | cons head next ih =>
    simp only [symtabLookup] at found
    split at found
    · rename_i same
      obtain rfl : head = symbol := by simpa using found
      exact ⟨List.mem_cons_self, same⟩
    · exact ⟨List.mem_cons_of_mem _ (ih found).1, (ih found).2⟩

theorem symtabLookup_none {symtab : List (Symbol H)} {name : Str} :
    symtabLookup symtab name = none ↔ name ∉ names symtab := by
  induction symtab with
  | nil => simp [symtabLookup]
  | cons head next ih =>
    simp only [symtabLookup, names_cons, List.mem_cons, not_or]
    split
    · rename_i same
      simp [same]
    · rename_i other
      rw [ih]
      simp [Ne.symm other]

theorem symtabLookup_of_mem {symtab : List (Symbol H)} {symbol : Symbol H}
    (unique : (names symtab).Nodup) (member : symbol ∈ symtab) :
    symtabLookup symtab symbol.name = some symbol := by
  induction symtab with
  | nil => simp at member
  | cons head next ih =>
    obtain ⟨outside, later⟩ := List.nodup_cons.mp unique
    rcases List.mem_cons.mp member with rfl | member
    · simp [symtabLookup]
    · have other : head.name ≠ symbol.name := fun same => outside (same ▸ mem_names_of_mem member)
      rw [symtabLookup, if_neg other]
      exact ih later member

@[simp] theorem names_overwrite (symtab : List (Symbol H)) (name : Str) (value : Ptr H) (type : SType) :
    names (overwrite symtab name value type) = names symtab := by
  induction symtab with
  | nil => rfl
  | cons head next ih =>
    rw [overwrite]
    split <;> simp [ih]

theorem overwrite_eq_map {symtab : List (Symbol H)} (unique : (names symtab).Nodup) (name : Str)
    (value : Ptr H) (type : SType) :
    overwrite symtab name value type =
      symtab.map fun symbol => if symbol.name = name then ⟨name, value, type⟩ else symbol := by
  induction symtab with
  | nil => rfl
  | cons head next ih =>
    obtain ⟨outside, later⟩ := List.nodup_cons.mp unique
    rw [overwrite, List.map_cons]
    split
    · rename_i same
      have others : next.map (fun symbol => if symbol.name = name then ⟨name, value, type⟩ else symbol) = next := by
        conv_rhs => rw [← List.map_id next]
        refine List.map_congr_left fun symbol member => if_neg fun equal => outside ?_
        rw [same, ← equal]
        exact mem_names_of_mem member
      rw [others, same]
    · rw [ih later]

theorem mem_overwrite {symtab : List (Symbol H)} {name : Str} {value : Ptr H} {type : SType}
    {symbol : Symbol H} (member : symbol ∈ overwrite symtab name value type) :
    symbol = ⟨name, value, type⟩ ∨ symbol ∈ symtab := by
  induction symtab with
  | nil => exact .inr member
  | cons head next ih =>
    unfold overwrite at member
    split at member
    · rename_i same
      rcases List.mem_cons.mp member with rfl | member
      · exact .inl (by rw [← same])
      · exact .inr (List.mem_cons_of_mem _ member)
    · rcases List.mem_cons.mp member with rfl | member
      · exact .inr List.mem_cons_self
      · rcases ih member with new | old
        · exact .inl new
        · exact .inr (List.mem_cons_of_mem _ old)

theorem symtabLookup_overwrite_self {symtab : List (Symbol H)} {name : Str} (bound : name ∈ names symtab)
    (value : Ptr H) (type : SType) :
    symtabLookup (overwrite symtab name value type) name = some ⟨name, value, type⟩ := by
  induction symtab with
  | nil => cases bound
  | cons head next ih =>
    by_cases same : head.name = name
    · simp [overwrite, symtabLookup, same]
    · rw [names_cons, List.mem_cons] at bound
      have later := bound.resolve_left (Ne.symm same)
      simp only [overwrite, if_neg same, symtabLookup]
      exact ih later

theorem symtabLookup_overwrite_other {name other : Str} (different : other ≠ name) (symtab : List (Symbol H))
    (value : Ptr H) (type : SType) :
    symtabLookup (overwrite symtab name value type) other = symtabLookup symtab other := by
  induction symtab with
  | nil => rfl
  | cons head next ih =>
    by_cases same : head.name = name
    · simp [overwrite, symtabLookup, same, Ne.symm different]
    · simp only [overwrite, if_neg same, symtabLookup, ih]

theorem Heap.Owns.copyIn {heap : Heap H} {p : Ptr H} (owns : heap.Owns p) (setting : Setting H) :
    (copyIn heap setting).2.Owns p := by
  cases setting with
  | internal value => exact owns
  | var s =>
    cases p with
    | dup block s => exact ⟨Nat.lt_succ_of_lt owns.1, owns.2⟩
    | own block => exact owns
    | _ => exact owns.elim

theorem Heap.Owns.not_freed {heap : Heap H} {p : Ptr H} (owns : heap.Owns p) : p ∉ heap.freed := by
  intro freed
  cases p with
  | dup block s => exact owns.2 (List.mem_filterMap.mpr ⟨_, freed, rfl⟩)
  | own block => exact owns freed
  | _ => exact owns

section Set

variable [DecidableEq H] {symtab : List (Symbol H)} {heap : Heap H} {name : Str} {setting : Setting H}

def entered (symtab : List (Symbol H)) (heap : Heap H) (name : Str) (setting : Setting H) :
    List (Symbol H) × Heap H :=
  let (value, heap) := copyIn heap setting
  match symtabLookup symtab name with
  | none => ({ name := name, value := value, type := setting.type } :: symtab, heap)
  | some symbol =>
    (overwrite symtab name value setting.type, if symbol.value = .null then heap else heap.called symbol.value)

def Yields (symtab : List (Symbol H)) (heap : Heap H) (name : Str) : Prop :=
  ∀ symbol, symtabLookup symtab name = some symbol → symbol.value = .null ∨ heap.Owns symbol.value

theorem symtabSet_cases (symtab : List (Symbol H)) (heap : Heap H) (name : Str) (setting : Setting H) :
    Yields symtab (copyIn heap setting).2 name ∧
        symtabSet symtab heap name setting = .ok (entered symtab heap name setting) ∨
      ¬ Yields symtab (copyIn heap setting).2 name ∧
        symtabSet symtab heap name setting = .error (entered symtab heap name setting).2 := by
  unfold symtabSet entered Yields
  cases found : symtabLookup symtab name with
  | none => simp
  | some symbol =>
    by_cases null : symbol.value = .null
    · simp [null, Bind.bind, Except.bind]
    · by_cases owns : (copyIn heap setting).2.Owns symbol.value
      · simp [null, owns, free, Bind.bind, Except.bind]
      · simp [null, owns, free, Bind.bind, Except.bind]

theorem symtabSet_ok (yields : Yields symtab (copyIn heap setting).2 name) :
    symtabSet symtab heap name setting = .ok (entered symtab heap name setting) := by
  rcases symtabSet_cases symtab heap name setting with ⟨_, returns⟩ | ⟨refused, _⟩
  · exact returns
  · exact absurd yields refused

theorem mem_entered {symbol : Symbol H} (member : symbol ∈ (entered symtab heap name setting).1) :
    symbol = ⟨name, (copyIn heap setting).1, setting.type⟩ ∨ symbol ∈ symtab := by
  unfold entered at member
  cases found : symtabLookup symtab name <;> simp only [found] at member
  · exact List.mem_cons.mp member
  · exact mem_overwrite member

theorem mem_entered_of_unique (unique : (names symtab).Nodup) {symbol : Symbol H}
    (member : symbol ∈ (entered symtab heap name setting).1) :
    symbol = ⟨name, (copyIn heap setting).1, setting.type⟩ ∨ symbol ∈ symtab ∧ symbol.name ≠ name := by
  unfold entered at member
  cases found : symtabLookup symtab name with
  | none =>
    simp only [found] at member
    rcases List.mem_cons.mp member with new | old
    · exact .inl new
    · refine .inr ⟨old, ?_⟩
      rintro rfl
      exact symtabLookup_none.mp found (mem_names_of_mem old)
  | some bound =>
    simp only [found, overwrite_eq_map unique] at member
    obtain ⟨old, inside, rfl⟩ := List.mem_map.mp member
    by_cases same : old.name = name
    · rw [if_pos same]
      exact .inl rfl
    · rw [if_neg same]
      exact .inr ⟨inside, same⟩

theorem entered_freed (found : symtabLookup symtab name = none ∨
      ∃ symbol, symtabLookup symtab name = some symbol ∧ symbol.value = .null) :
    (entered symtab heap name setting).2 = (copyIn heap setting).2 := by
  unfold entered
  rcases found with none | ⟨symbol, found, null⟩
  · rw [none]
  · simp [found, null]

theorem entered_called {symbol : Symbol H} (found : symtabLookup symtab name = some symbol)
    (present : symbol.value ≠ .null) :
    (entered symtab heap name setting).2 = (copyIn heap setting).2.called symbol.value := by
  simp [entered, found, present]

theorem symtabLookup_entered_self : symtabLookup (entered symtab heap name setting).1 name =
    some ⟨name, (copyIn heap setting).1, setting.type⟩ := by
  unfold entered
  cases found : symtabLookup symtab name with
  | none => simp [symtabLookup]
  | some symbol =>
    obtain ⟨member, rfl⟩ := symtabLookup_some found
    exact symtabLookup_overwrite_self (mem_names_of_mem member) _ _

theorem symtabLookup_entered_other {other : Str} (different : other ≠ name) :
    symtabLookup (entered symtab heap name setting).1 other = symtabLookup symtab other := by
  unfold entered
  cases found : symtabLookup symtab name with
  | none => simp [symtabLookup, Ne.symm different]
  | some symbol => exact symtabLookup_overwrite_other different _ _ _

end Set

theorem symtabRemove_eq_filter {symtab : List (Symbol H)} (unique : (names symtab).Nodup) (name : Str) :
    symtabRemove symtab name = symtab.filter (·.name ≠ name) := by
  induction symtab with
  | nil => rfl
  | cons head next ih =>
    obtain ⟨outside, later⟩ := List.nodup_cons.mp unique
    rw [symtabRemove]
    split
    · rename_i same
      have others : next.filter (·.name ≠ name) = next := by
        refine List.filter_eq_self.mpr fun symbol member => ?_
        have other : symbol.name ≠ name := fun equal =>
          outside (by rw [same, ← equal]; exact mem_names_of_mem member)
        simpa using other
      rw [List.filter_cons_of_neg (by simp [same]), others]
    · rename_i other
      rw [List.filter_cons_of_pos (by simpa using other), ih later]

theorem names_symtabRemove {symtab : List (Symbol H)} (unique : (names symtab).Nodup) (name : Str) :
    names (symtabRemove symtab name) = (names symtab).filter (· ≠ name) := by
  rw [symtabRemove_eq_filter unique, names, names, List.filter_map]
  rfl

theorem symtabSize_eq_length (symtab : List (Symbol H)) : symtabSize symtab = symtab.length := by
  induction symtab with
  | nil => rfl
  | cons head next ih => simp [symtabSize, ih]

end OS2.Symtab
