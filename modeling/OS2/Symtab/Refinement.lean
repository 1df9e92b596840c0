import OS2.Symtab.Table
import Mathlib.Data.Finmap

namespace OS2.Symtab

open OS2.Text

variable {H : Type} [DecidableEq H]

/-- The purpose of the table: a finite map from names to settings. -/
abbrev Bindings (H : Type) := Finmap fun _ : Str => Setting H

inductive Op (H : Type) where
  | set (name : Str) (setting : Setting H)
  | remove (name : Str)

def Op.run (op : Op H) (s : List (Symbol H) × Heap H) : Except (Heap H) (List (Symbol H) × Heap H) :=
  match op with
  | .set name setting => symtabSet s.1 s.2 name setting
  | .remove name => .ok (symtabRemove s.1 name, s.2)

def Op.apply (op : Op H) (bindings : Bindings H) : Bindings H :=
  match op with
  | .set name setting => bindings.insert name setting
  | .remove name => bindings.erase name

def runOps (ops : List (Op H)) : Except (Heap H) (List (Symbol H) × Heap H) :=
  ops.foldlM (fun s op => op.run s) ([], .init)

def applyOps (ops : List (Op H)) : Bindings H := ops.foldl (fun bindings op => op.apply bindings) ∅

def Symbol.Holds (symbol : Symbol H) : Setting H → Prop
  | .var s => symbol.type = .var ∧ ∃ block, symbol.value = .dup block s
  | .internal value => symbol.type = .internal ∧ symbol.value = value

structure Represents (symtab : List (Symbol H)) (bindings : Bindings H) : Prop where
  unique : (names symtab).Nodup
  named : ∀ name, name ∈ names symtab ↔ name ∈ bindings
  holds : ∀ symbol ∈ symtab, ∃ setting, bindings.lookup symbol.name = some setting ∧ symbol.Holds setting

omit [DecidableEq H] in
theorem represents_nil : Represents ([] : List (Symbol H)) ∅ :=
  ⟨by simp, by simp [Finmap.notMem_empty], by simp⟩

theorem entered_cases (symtab : List (Symbol H)) (heap : Heap H) (name : Str) (setting : Setting H) :
    ∃ value, Symbol.Holds ⟨name, value, setting.type⟩ setting ∧
      (name ∉ names symtab ∧ (entered symtab heap name setting).1 = ⟨name, value, setting.type⟩ :: symtab ∨
        name ∈ names symtab ∧ (entered symtab heap name setting).1 = overwrite symtab name value setting.type) := by
  have holds : Symbol.Holds ⟨name, (copyIn heap setting).1, setting.type⟩ setting := by
    cases setting with
    | var s => exact ⟨rfl, _, rfl⟩
    | internal value => exact ⟨rfl, rfl⟩
  refine ⟨_, holds, ?_⟩
  cases found : symtabLookup symtab name with
  | none => exact .inl ⟨symtabLookup_none.mp found, by simp [entered, found]⟩
  | some symbol =>
    obtain ⟨member, rfl⟩ := symtabLookup_some found
    exact .inr ⟨mem_names_of_mem member, by simp [entered, found]⟩

theorem Represents.set {symtab : List (Symbol H)} {bindings : Bindings H}
    (represents : Represents symtab bindings) (heap : Heap H) (name : Str) (setting : Setting H) :
    Represents (entered symtab heap name setting).1 (bindings.insert name setting) := by
  obtain ⟨value, holds, ⟨fresh, shape⟩ | ⟨bound, shape⟩⟩ := entered_cases symtab heap name setting
  · rw [shape]
    refine ⟨List.nodup_cons.mpr ⟨fresh, represents.unique⟩, fun other => ?_, fun symbol member => ?_⟩
    · rw [names_cons, List.mem_cons, Finmap.mem_insert, represents.named]
    · rcases List.mem_cons.mp member with rfl | member
      · exact ⟨setting, Finmap.lookup_insert _, holds⟩
      · have other : symbol.name ≠ name := fun same => fresh (same ▸ mem_names_of_mem member)
        rw [Finmap.lookup_insert_of_ne _ other]
        exact represents.holds symbol member
  · rw [shape]
    refine ⟨by simpa using represents.unique, fun other => ?_, fun symbol member => ?_⟩
    · rw [names_overwrite, Finmap.mem_insert, represents.named]
      constructor
      · exact .inr
      · intro member
        rcases member with rfl | member
        · exact (represents.named _).mp bound
        · exact member
    · rw [overwrite_eq_map represents.unique] at member
      obtain ⟨before, old, rfl⟩ := List.mem_map.mp member
      by_cases same : before.name = name
      · rw [if_pos same]
        exact ⟨setting, Finmap.lookup_insert _, holds⟩
      · rw [if_neg same, Finmap.lookup_insert_of_ne _ same]
        exact represents.holds before old

omit [DecidableEq H] in
theorem Represents.remove {symtab : List (Symbol H)} {bindings : Bindings H}
    (represents : Represents symtab bindings) (name : Str) :
    Represents (symtabRemove symtab name) (bindings.erase name) := by
  refine ⟨?_, fun other => ?_, fun symbol member => ?_⟩
  · rw [names_symtabRemove represents.unique]
    exact represents.unique.filter _
  · rw [names_symtabRemove represents.unique, List.mem_filter, Finmap.mem_erase, represents.named]
    simp [and_comm]
  · rw [symtabRemove_eq_filter represents.unique] at member
    obtain ⟨member, other⟩ := List.mem_filter.mp member
    rw [Finmap.lookup_erase_ne (by simpa using other)]
    exact represents.holds symbol member

omit [DecidableEq H] in
theorem Represents.lookup_none {symtab : List (Symbol H)} {bindings : Bindings H}
    (represents : Represents symtab bindings) {name : Str} :
    symtabLookup symtab name = none ↔ bindings.lookup name = none := by
  rw [symtabLookup_none, represents.named, Finmap.lookup_eq_none]

omit [DecidableEq H] in
theorem Represents.size {symtab : List (Symbol H)} {bindings : Bindings H}
    (represents : Represents symtab bindings) : symtabSize symtab = bindings.keys.card := by
  have keys : bindings.keys = (names symtab).toFinset := by
    ext name
    rw [Finmap.mem_keys, List.mem_toFinset, represents.named]
  rw [symtabSize_eq_length, keys, List.toFinset_card_of_nodup represents.unique, names, List.length_map]

/-- Behind a run the name can be set: it is unbound, or its value is NULL, or can be freed and is not the
    string of another variable. -/
def Settable (ops : List (Op H)) (name : Str) : Prop :=
  ∀ s, runOps ops = .ok s → ∀ symbol, symtabLookup s.1 name = some symbol → symbol.value = .null ∨
    s.2.Owns symbol.value ∧ ∀ other ∈ s.1, other.type = .var → other.name ≠ name →
      ∀ block, other.value.block = some block → symbol.value.block ≠ some block

theorem runOps_snoc (ops : List (Op H)) (op : Op H) : runOps (ops ++ [op]) = runOps ops >>= op.run := by
  rw [runOps, List.foldlM_append]
  congr 1
  funext s
  exact (List.foldlM_cons ..).trans (bind_pure _)

omit [DecidableEq H] in
theorem applyOps_snoc (ops : List (Op H)) (op : Op H) : applyOps (ops ++ [op]) = op.apply (applyOps ops) := by
  simp [applyOps]

structure Kept (ops : List (Op H)) (s : List (Symbol H) × Heap H) : Prop where
  returns : runOps ops = .ok s
  represents : Represents s.1 (applyOps ops)
  live : ∀ symbol ∈ s.1, symbol.type = .var → s.2.Owns symbol.value
  known : ∀ block ∈ s.2.freed.filterMap Ptr.block, block < s.2.dups

variable {ops : List (Op H)} {symtab : List (Symbol H)} {heap : Heap H} {s : List (Symbol H) × Heap H} {name : Str}
  {setting : Setting H}

omit [DecidableEq H] in
theorem Represents.var_dup {bindings : Bindings H} (represents : Represents symtab bindings) {symbol : Symbol H}
    (member : symbol ∈ symtab) (type : symbol.type = .var) : ∃ block s, symbol.value = .dup block s := by
  obtain ⟨setting, _, holds⟩ := represents.holds symbol member
  cases setting with
  | var s =>
    obtain ⟨_, block, value⟩ := holds
    exact ⟨block, s, value⟩
  | internal value =>
    rw [holds.1] at type
    cases type

theorem Kept.set (kept : Kept ops s) (settable : Settable ops name) (setting : Setting H) :
    Kept (ops ++ [.set name setting]) (entered s.1 s.2 name setting) := by
  have yields : Yields s.1 (copyIn s.2 setting).2 name := by
    intro symbol found
    exact (settable s kept.returns symbol found).imp_right fun owns => owns.1.copyIn setting
  have grown : s.2.dups ≤ (copyIn s.2 setting).2.dups := by cases setting <;> simp [copyIn, strdup]
  have same : (copyIn s.2 setting).2.freed = s.2.freed := by cases setting <;> rfl
  have frees : ∃ more, (entered s.1 s.2 name setting).2 = { (copyIn s.2 setting).2 with freed := s.2.freed ++ more } ∧
      (∀ block ∈ more.filterMap Ptr.block, block < s.2.dups) ∧
      ∀ other ∈ s.1, other.type = .var → other.name ≠ name →
        ∀ block, other.value.block = some block → block ∉ more.filterMap Ptr.block := by
    by_cases quiet : symtabLookup s.1 name = none ∨ ∃ symbol, symtabLookup s.1 name = some symbol ∧ symbol.value = .null
    · exact ⟨[], by rw [entered_freed quiet, List.append_nil, ← same], by simp, by simp⟩
    · obtain ⟨symbol, found⟩ := Option.ne_none_iff_exists'.mp fun none => quiet (.inl none)
      have present : symbol.value ≠ .null := fun null => quiet (.inr ⟨symbol, found, null⟩)
      obtain ⟨owns, apart⟩ := (settable s kept.returns symbol found).resolve_left present
      refine ⟨[symbol.value], by rw [entered_called found present, Heap.called, same], ?_, ?_⟩
      · intro block member
        obtain ⟨_, rfl, value⟩ : ∃ p, p = symbol.value ∧ p.block = some block := by simpa using member
        cases shape : symbol.value with
        | dup b s =>
          rw [shape] at owns value
          obtain rfl : b = block := Option.some.inj value
          exact owns.1
        | _ => rw [shape] at value; cases value
      · intro other member type different block value inside
        apply apart other member type different block value
        simpa using inside
  obtain ⟨more, after, old, apart⟩ := frees
  refine ⟨?_, ?_, ?_, ?_⟩
  · rw [runOps_snoc, kept.returns]
    exact symtabSet_ok yields
  · rw [applyOps_snoc]
    exact kept.represents.set s.2 name setting
  · intro symbol member type
    rcases mem_entered_of_unique kept.represents.unique member with rfl | ⟨inside, different⟩
    · cases setting with
      | internal value => cases type
      | var text =>
        rw [after]
        refine ⟨Nat.lt_succ_self _, ?_⟩
        rw [List.filterMap_append, List.mem_append, not_or]
        exact ⟨fun freed => Nat.lt_irrefl _ (kept.known _ freed), fun freed => Nat.lt_irrefl _ (old _ freed)⟩
    · obtain ⟨block, text, value⟩ := kept.represents.var_dup inside type
      have owns := kept.live symbol inside type
      rw [value] at owns ⊢
      rw [after]
      refine ⟨Nat.lt_of_lt_of_le owns.1 grown, ?_⟩
      rw [List.filterMap_append, List.mem_append, not_or]
      exact ⟨owns.2, apart symbol inside type different block (by rw [value]; rfl)⟩
  · intro block member
    rw [after] at member ⊢
    rw [List.filterMap_append, List.mem_append] at member
    rcases member with before | now
    · exact Nat.lt_of_lt_of_le (kept.known block before) grown
    · exact Nat.lt_of_lt_of_le (old block now) grown

theorem Kept.remove (kept : Kept ops s) (name : Str) :
    Kept (ops ++ [.remove name]) (symtabRemove s.1 name, s.2) := by
  refine ⟨?_, ?_, ?_, kept.known⟩
  · rw [runOps_snoc, kept.returns]
    rfl
  · rw [applyOps_snoc]
    exact kept.represents.remove name
  · intro symbol member type
    rw [symtabRemove_eq_filter kept.represents.unique] at member
    exact kept.live symbol (List.mem_filter.mp member).1 type

end OS2.Symtab
