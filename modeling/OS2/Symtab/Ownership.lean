import OS2.Symtab.Table
import Mathlib.Data.List.Nodup

namespace OS2.Symtab

open OS2.Text

variable {H : Type}

/-- The values that `symtab_set` has handed out and taken back: freed, or still in a node. -/
def ledger (symtab : List (Symbol H)) (heap : Heap H) : List (Ptr H) :=
  heap.freed ++ symtab.map Symbol.value

def Symbol.Tagged (symbol : Symbol H) : Prop :=
  match symbol.type with
  | .var => ∃ block s, symbol.value = .dup block s
  | .internal => ∃ h, symbol.value = .code h

def Setting.Proper : Setting H → Prop
  | .var _ => True
  | .internal value => ∃ h, value = .code h

/-- Every node is tagged as its value is, only copies were freed, and every copy is in one place, in a node
    or freed. -/
structure Owned (symtab : List (Symbol H)) (heap : Heap H) : Prop where
  tagged : ∀ symbol ∈ symtab, symbol.Tagged
  copies : ∀ p ∈ heap.freed, ∃ block s, p = .dup block s
  once : ((ledger symtab heap).filterMap Ptr.block).Nodup
  known : ∀ block, block ∈ (ledger symtab heap).filterMap Ptr.block ↔ block < heap.dups

theorem Symbol.Tagged.ne_null {symbol : Symbol H} (tagged : symbol.Tagged) : symbol.value ≠ .null := by
  intro null
  unfold Symbol.Tagged at tagged
  cases type : symbol.type <;> simp [type, null] at tagged

theorem overwrite_values_perm {symtab : List (Symbol H)} {name : Str} {symbol : Symbol H}
    (found : symtabLookup symtab name = some symbol) (value : Ptr H) (type : SType) :
    (symbol.value :: (overwrite symtab name value type).map Symbol.value).Perm
      (value :: symtab.map Symbol.value) := by
  induction symtab with
  | nil => cases found
  | cons head next ih =>
    by_cases same : head.name = name
    · obtain rfl : head = symbol := by simpa [symtabLookup, same] using found
      simp only [overwrite, same, if_true, List.map_cons]
      exact List.Perm.swap _ _ _
    · simp only [symtabLookup, if_neg same] at found
      simp only [overwrite, if_neg same, List.map_cons]
      exact (List.Perm.swap _ _ _).trans (((ih found).cons _).trans (List.Perm.swap _ _ _))

theorem mem_ledger {symtab : List (Symbol H)} {heap : Heap H} {block : Nat} {s : Str}
    (member : .dup block s ∈ ledger symtab heap) : block ∈ (ledger symtab heap).filterMap Ptr.block :=
  List.mem_filterMap.mpr ⟨_, member, rfl⟩

theorem Owned.live {symtab : List (Symbol H)} {heap : Heap H} (owned : Owned symtab heap)
    {symbol : Symbol H} (member : symbol ∈ symtab) (type : symbol.type = .var) :
    ∃ block s, symbol.value = .dup block s ∧ heap.Owns symbol.value := by
  have tagged := owned.tagged symbol member
  simp only [Symbol.Tagged, type] at tagged
  obtain ⟨block, s, value⟩ := tagged
  have kept : block ∈ (symtab.map Symbol.value).filterMap Ptr.block :=
    List.mem_filterMap.mpr ⟨_, List.mem_map_of_mem member, by rw [value]; rfl⟩
  have once := owned.once
  rw [ledger, List.filterMap_append] at once
  refine ⟨block, s, value, ?_⟩
  rw [value]
  refine ⟨(owned.known block).mp ?_, fun freed => (List.nodup_append.mp once).2.2 _ freed _ kept rfl⟩
  rw [ledger, List.filterMap_append]
  exact List.mem_append_right _ kept

theorem Owned.code {symtab : List (Symbol H)} {heap : Heap H} (owned : Owned symtab heap)
    {symbol : Symbol H} (member : symbol ∈ symtab) (type : symbol.type = .internal) : ∃ h, symbol.value = .code h := by
  have tagged := owned.tagged symbol member
  simpa only [Symbol.Tagged, type] using tagged

section Set

variable [DecidableEq H] {symtab : List (Symbol H)} {heap : Heap H}

omit [DecidableEq H] in
theorem copyIn_freed (heap : Heap H) (setting : Setting H) : (copyIn heap setting).2.freed = heap.freed := by
  cases setting <;> rfl

theorem entered_dups (symtab : List (Symbol H)) (heap : Heap H) (name : Str) (setting : Setting H) :
    (entered symtab heap name setting).2.dups = (copyIn heap setting).2.dups := by
  unfold entered
  cases symtabLookup symtab name with
  | none => rfl
  | some symbol => by_cases null : symbol.value = .null <;> simp [null, Heap.called]

theorem ledger_set (tagged : ∀ symbol ∈ symtab, symbol.Tagged) (heap : Heap H) (name : Str)
    (setting : Setting H) :
    (ledger (entered symtab heap name setting).1 (entered symtab heap name setting).2).Perm
      ((copyIn heap setting).1 :: ledger symtab heap) := by
  unfold ledger entered
  cases found : symtabLookup symtab name with
  | none =>
    simp only [copyIn_freed, List.map_cons]
    exact List.perm_middle
  | some symbol =>
    have present := (tagged symbol (symtabLookup_some found).1).ne_null
    simp only [present, if_false, Heap.called, copyIn_freed, List.append_assoc, List.singleton_append]
    exact ((overwrite_values_perm found _ _).append_left _).trans List.perm_middle

omit [DecidableEq H] in
theorem owned_init : Owned ([] : List (Symbol H)) .init :=
  ⟨by simp, by simp [Heap.init], by simp [ledger, Heap.init], by simp [ledger, Heap.init]⟩

omit [DecidableEq H] in
theorem copyIn_tagged (heap : Heap H) (name : Str) {setting : Setting H} (proper : setting.Proper) :
    Symbol.Tagged ⟨name, (copyIn heap setting).1, setting.type⟩ := by
  cases setting with
  | var s => exact ⟨heap.dups, s, rfl⟩
  | internal value => exact proper

omit [DecidableEq H] in
theorem Owned.yields_iff (owned : Owned symtab heap) (name : Str) (setting : Setting H) :
    Yields symtab (copyIn heap setting).2 name ↔
      ∀ symbol, symtabLookup symtab name = some symbol → symbol.type = .var := by
  constructor
  · intro yields symbol found
    cases type : symbol.type with
    | var => rfl
    | internal =>
      obtain ⟨h, value⟩ := owned.code (symtabLookup_some found).1 type
      have freed := yields symbol found
      rw [value] at freed
      exact absurd freed (by simp [Heap.Owns])
  · intro vars symbol found
    obtain ⟨_, _, _, owns⟩ := owned.live (symtabLookup_some found).1 (vars symbol found)
    exact .inr (owns.copyIn setting)

theorem Owned.set (owned : Owned symtab heap) {name : Str} {setting : Setting H} (proper : setting.Proper)
    (yields : Yields symtab (copyIn heap setting).2 name) :
    Owned (entered symtab heap name setting).1 (entered symtab heap name setting).2 := by
  have ledgers := (ledger_set owned.tagged heap name setting).filterMap Ptr.block
  refine ⟨?_, ?_, ?_, ?_⟩
  · intro symbol member
    rcases mem_entered member with rfl | old
    · exact copyIn_tagged heap name proper
    · exact owned.tagged symbol old
  · intro p member
    cases found : symtabLookup symtab name with
    | none =>
      rw [entered_freed (.inl found), copyIn_freed] at member
      exact owned.copies p member
    | some symbol =>
      have inside := (symtabLookup_some found).1
      have var := (owned.yields_iff name setting).mp yields symbol found
      obtain ⟨block, s, value, _⟩ := owned.live inside var
      rw [entered_called found (owned.tagged symbol inside).ne_null, Heap.called, copyIn_freed] at member
      rcases List.mem_append.mp member with before | now
      · exact owned.copies p before
      · exact ⟨block, s, (List.mem_singleton.mp now).trans value⟩
  · rw [ledgers.nodup_iff]
    cases setting with
    | var s =>
      simp only [copyIn, strdup, List.filterMap_cons, Ptr.block, List.nodup_cons]
      exact ⟨fun member => Nat.lt_irrefl _ ((owned.known _).mp member), owned.once⟩
    | internal value =>
      obtain ⟨h, rfl⟩ := proper
      simpa only [copyIn, List.filterMap_cons, Ptr.block] using owned.once
  · intro block
    rw [entered_dups, ledgers.mem_iff]
    cases setting with
    | var s =>
      simp only [copyIn, strdup, List.filterMap_cons, Ptr.block, List.mem_cons, owned.known]
      omega
    | internal value =>
      obtain ⟨h, rfl⟩ := proper
      simp only [copyIn, List.filterMap_cons, Ptr.block, owned.known]

end Set

/-- Every call of `free` so far was of a copy made by an earlier `strdup`, and of each copy once. -/
def FreesCopies (heap : Heap H) : Prop :=
  (∀ p ∈ heap.freed, ∃ block s, p = .dup block s ∧ block < heap.dups) ∧ heap.freed.Nodup

theorem nodup_of_blocks {values : List (Ptr H)} (copies : ∀ p ∈ values, ∃ block s, p = .dup block s)
    (once : (values.filterMap Ptr.block).Nodup) : values.Nodup := by
  induction values with
  | nil => exact List.nodup_nil
  | cons p values ih =>
    obtain ⟨⟨block, s, rfl⟩, later⟩ := List.forall_mem_cons.mp copies
    simp only [List.filterMap_cons, Ptr.block, List.nodup_cons] at once
    apply List.nodup_cons.mpr
    refine ⟨?_, ih later once.2⟩
    intro member
    exact once.1 (List.mem_filterMap.mpr ⟨_, member, rfl⟩)

theorem Owned.freesCopies {symtab : List (Symbol H)} {heap : Heap H} (owned : Owned symtab heap) :
    FreesCopies heap := by
  constructor
  · intro p member
    obtain ⟨block, s, rfl⟩ := owned.copies p member
    exact ⟨block, s, rfl, (owned.known block).mp (mem_ledger (List.mem_append_left _ member))⟩
  · have once := owned.once
    rw [ledger, List.filterMap_append] at once
    exact nodup_of_blocks owned.copies (List.nodup_append.mp once).1

/-- `symtab_free` frees what the nodes hold, so that every copy ever made is freed, and once. -/
theorem Owned.symtabFree [DecidableEq H] {symtab : List (Symbol H)} {heap : Heap H} (owned : Owned symtab heap) :
    ∃ heap', symtabFree symtab heap = .ok heap' ∧ heap'.dups = heap.dups ∧ Owned [] heap' := by
  induction symtab generalizing heap with
  | nil => exact ⟨heap, rfl, rfl, owned⟩
  | cons head next ih =>
    have tagged : ∀ symbol ∈ next, symbol.Tagged :=
      fun symbol member => owned.tagged symbol (List.mem_cons_of_mem _ member)
    cases type : head.type with
    | var =>
      obtain ⟨block, s, value, owns⟩ := owned.live List.mem_cons_self type
      have moved : (ledger next (heap.called head.value)).Perm (ledger (head :: next) heap) := by
        simp only [ledger, Heap.called, List.append_assoc, List.map_cons, List.singleton_append]
        rfl
      have later : Owned next (heap.called head.value) := by
        refine ⟨tagged, ?_, (moved.filterMap _).nodup_iff.mpr owned.once, fun other => ?_⟩
        · intro p member
          rcases List.mem_append.mp member with before | now
          · exact owned.copies p before
          · exact ⟨block, s, (List.mem_singleton.mp now).trans value⟩
        · rw [(moved.filterMap _).mem_iff, owned.known]
          rfl
      obtain ⟨heap', frees, dups, released⟩ := ih later
      refine ⟨heap', ?_, dups, released⟩
      simp only [Symtab.symtabFree, type, if_true, free, if_pos owns, Bind.bind, Except.bind]
      exact frees
    | internal =>
      obtain ⟨h, value⟩ := owned.code List.mem_cons_self type
      have same : (ledger next heap).filterMap Ptr.block = (ledger (head :: next) heap).filterMap Ptr.block := by
        simp only [ledger, List.filterMap_append, List.map_cons, value, List.filterMap_cons, Ptr.block]
      have later : Owned next heap := ⟨tagged, owned.copies, same ▸ owned.once, fun other => by rw [same, owned.known]⟩
      obtain ⟨heap', frees, dups, released⟩ := ih later
      refine ⟨heap', ?_, dups, released⟩
      simp only [Symtab.symtabFree, type, reduceCtorEq, if_false, Bind.bind, Except.bind]
      exact frees

end OS2.Symtab
