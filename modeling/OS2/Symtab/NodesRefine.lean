import OS2.Symtab.NodesTable

namespace OS2.Symtab.Nodes

open OS2.Text OS2.Loop OS2.Memory

variable {H : Type}

def Content.ptr : Content H → Ptr H
  | .unset _ => .null
  | .text block chars => .dup block chars
  | .code h => .code h

def Entry.symbol (e : Entry H) : Symbol H := ⟨e.name, e.content.ptr, e.content.type⟩

def symbols (entries : List (Entry H)) : List (Symbol H) := entries.map Entry.symbol

def Assign.setting : Assign H → Setting H
  | .var chars => .var chars
  | .internal h => .internal (.code h)

inductive Call (H : Type) where
  | set (malloc : Malloc (Block H)) (junk : Node H) (name : Str) (setting : Assign H)
  | remove (name : Str)

def Call.op : Call H → Op H
  | .set _ _ name setting => .set name setting.setting
  | .remove name => .remove name

def Call.run (fuel : Nat) (call : Call H) (state : Heap H × Nat) : Except (Stop Misuse) (Heap H × Nat) :=
  match call with
  | .set malloc junk name setting => symtabSet malloc junk fuel state.1 state.2 name setting
  | .remove name => symtabRemove fuel state.1 state.2 name

def runCalls (fuel : Nat) (calls : List (Call H)) : Except (Stop Misuse) (Heap H × Nat) :=
  calls.foldlM (fun state call => call.run fuel state) (.empty, 0)

variable {name : Str} {entries before after : List (Entry H)} {e : Entry H}

section Lists

theorem names_symbols (entries : List (Entry H)) : names (symbols entries) = entries.map Entry.name := by
  rw [names, symbols, List.map_map]
  rfl

theorem symtabLookup_first (first : First name before e) (after : List (Entry H)) :
    Symtab.symtabLookup (symbols (before ++ e :: after)) name = some e.symbol := by
  induction before with
  | nil => exact if_pos first.2
  | cons skipped before ih =>
    exact (if_neg (first.1 skipped List.mem_cons_self)).trans (ih first.tail)

theorem symtabLookup_absent (absent : ∀ e ∈ entries, e.name ≠ name) :
    Symtab.symtabLookup (symbols entries) name = none := by
  rw [symtabLookup_none, names_symbols]
  intro member
  obtain ⟨e, inside, same⟩ := List.mem_map.mp member
  exact absent e inside same

theorem overwrite_first (first : First name before e) (after : List (Entry H)) (value : Ptr H) (type : SType) :
    overwrite (symbols (before ++ e :: after)) name value type =
      symbols before ++ ⟨e.name, value, type⟩ :: symbols after := by
  induction before with
  | nil => exact if_pos first.2
  | cons skipped before ih =>
    exact (if_neg (first.1 skipped List.mem_cons_self)).trans (congrArg _ (ih first.tail))

theorem symtabRemove_first (first : First name before e) (after : List (Entry H)) :
    Symtab.symtabRemove (symbols (before ++ e :: after)) name = symbols (before ++ after) := by
  induction before with
  | nil => exact if_pos first.2
  | cons skipped before ih =>
    exact (if_neg (first.1 skipped List.mem_cons_self)).trans (congrArg _ (ih first.tail))

theorem symtabRemove_absent (absent : ∀ e ∈ entries, e.name ≠ name) :
    Symtab.symtabRemove (symbols entries) name = symbols entries := by
  induction entries with
  | nil => rfl
  | cons e entries ih =>
    have later : ∀ e ∈ entries, e.name ≠ name := fun e member => absent e (List.mem_cons_of_mem _ member)
    exact (if_neg (absent e List.mem_cons_self)).trans (congrArg _ (ih later))

variable [DecidableEq H]

theorem entered_absent (absent : ∀ e ∈ entries, e.name ≠ name) (setting : Assign H) (node copy block : Nat) :
    (entered (symbols entries) ⟨block, []⟩ name setting.setting).1 =
      symbols (⟨node, copy, name, setting.content block⟩ :: entries) := by
  simp only [entered, symtabLookup_absent absent]
  cases setting <;> rfl

theorem entered_first (first : First name before e) (after : List (Entry H)) (setting : Assign H) (block : Nat) :
    (entered (symbols (before ++ e :: after)) ⟨block, []⟩ name setting.setting).1 =
      symbols (before ++ { e with content := setting.content block } :: after) := by
  simp only [entered, symtabLookup_first first after, overwrite_first first after]
  cases setting <;> simp [symbols, Entry.symbol, Assign.setting, Setting.type, Assign.content, Content.type,
    Content.ptr, Symtab.copyIn, strdup]

end Lists

def Content.IsText : Content H → Prop
  | .text _ _ => True
  | .unset _ | .code _ => False

theorem Assign.filled (setting : Assign H) (block : Nat) :
    (setting.content block).IsText ∨ (setting.content block).IsCode := by
  cases setting with
  | var chars => exact .inl trivial
  | internal h => exact .inr trivial

/-- What the finite map binds a name to is what the table answers; the blocks left behind hold `texts`. -/
structure Good (bindings : Bindings H) (state : Heap H × Nat) (entries : List (Entry H)) (leaked : List Nat)
    (texts : List Str) : Prop where
  table : Table state.1 state.2 entries leaked
  left : Strings state.1 leaked texts
  represents : Represents (symbols entries) bindings
  filled : ∀ e ∈ entries, e.content.IsText ∨ e.content.IsCode

def Call.Hits (bindings : Bindings H) : Call H → Prop
  | .set _ _ name _ => ∃ h, bindings.lookup name = some (.internal (.code h))
  | .remove _ => False

/-- What is in the blocks that the operation leaves behind: the name, and the value of a variable. -/
def leaksOf (bindings : Bindings H) : Op H → List Str
  | .set _ _ => []
  | .remove name =>
    match bindings.lookup name with
    | some (.var value) => [name, value]
    | some (.internal _) => [name]
    | none => []

variable {bindings : Bindings H} {state : Heap H × Nat} {leaked : List Nat} {texts : List Str}

theorem Good.bound (good : Good bindings state (before ++ e :: after) leaked texts) (first : First name before e) :
    ∃ setting, bindings.lookup name = some setting ∧ e.symbol.Holds setting := by
  have member : e.symbol ∈ symbols (before ++ e :: after) := List.mem_map_of_mem (by simp)
  rw [← first.2]
  exact good.represents.holds _ member

theorem Good.filled_middle (good : Good bindings state (before ++ e :: after) leaked texts) :
    (∀ e ∈ before, e.content.IsText ∨ e.content.IsCode) ∧ (e.content.IsText ∨ e.content.IsCode) ∧
      ∀ e ∈ after, e.content.IsText ∨ e.content.IsCode := by
  obtain ⟨first, second⟩ := List.forall_mem_append.mp good.filled
  exact ⟨first, List.forall_mem_cons.mp second⟩

theorem Good.unbound (good : Good bindings state entries leaked texts) (absent : ∀ e ∈ entries, e.name ≠ name) :
    bindings.lookup name = none := by
  rw [← good.represents.lookup_none]
  exact symtabLookup_absent absent

theorem Entry.isCode_iff {setting : Setting H} (holds : e.symbol.Holds setting) :
    e.content.IsCode ↔ ∃ h, setting = .internal (.code h) := by
  cases setting with
  | var chars =>
    obtain ⟨type, block, value⟩ := holds
    cases content : e.content <;> simp [Entry.symbol, content, Content.ptr, Content.IsCode] at value ⊢
  | internal value =>
    obtain ⟨type, rfl⟩ := holds
    cases content : e.content <;> simp [Entry.symbol, content, Content.ptr, Content.IsCode]

theorem Entry.leaks {s : Heap H} {next : Nat} {setting : Setting H} (stored : e.Stored s next)
    (holds : e.symbol.Holds setting) (bound : bindings.lookup e.name = some setting) :
    Strings s (e.copy :: e.content.blocks) (leaksOf bindings (.remove e.name)) := by
  rw [leaksOf, bound]
  have value := stored.content
  cases setting with
  | var chars =>
    obtain ⟨type, block, same⟩ := holds
    cases content : e.content with
    | text block' chars' =>
      rw [content] at value
      obtain ⟨rfl, rfl⟩ : block' = block ∧ chars' = chars := by simpa [Entry.symbol, content, Content.ptr] using same
      exact .cons stored.copy (.cons value .nil)
    | _ => simp [Entry.symbol, content, Content.ptr] at same
  | internal p =>
    obtain ⟨type, same⟩ := holds
    cases content : e.content with
    | text block chars => simp [Entry.symbol, content, Content.type] at type
    | _ => exact .cons stored.copy .nil

def ops (calls : List (Call H)) : List (Op H) := calls.map Call.op

/-- Some `symtab_set` of the run is for a name that is bound to a function when it is called. -/
def Overwrites (calls : List (Call H)) : Prop :=
  ∃ before call after, calls = before ++ call :: after ∧ call.Hits (applyOps (ops before))

def leaks (calls : List (Call H)) : List Str :=
  (calls.foldl (fun s call => (call.op.apply s.1, leaksOf s.1 call.op ++ s.2)) ((∅ : Bindings H), [])).2

theorem applyOps_snoc (calls : List (Call H)) (call : Call H) :
    applyOps (ops (calls ++ [call])) = call.op.apply (applyOps (ops calls)) := by
  rw [ops, List.map_append]
  exact Symtab.applyOps_snoc _ _

theorem leaks_fold (calls : List (Call H)) :
    calls.foldl (fun s call => (call.op.apply s.1, leaksOf s.1 call.op ++ s.2)) ((∅ : Bindings H), []) =
      (applyOps (ops calls), leaks calls) := by
  refine Prod.ext ?_ rfl
  induction calls using List.reverseRecOn with
  | nil => rfl
  | append_singleton calls call ih =>
    have ih : _ = applyOps (ops calls) := ih
    rw [List.foldl_append]
    exact (congrArg call.op.apply ih).trans (applyOps_snoc calls call).symm

theorem leaks_snoc (calls : List (Call H)) (call : Call H) :
    leaks (calls ++ [call]) = leaksOf (applyOps (ops calls)) call.op ++ leaks calls := by
  rw [leaks, List.foldl_append, leaks_fold]
  rfl

theorem overwrites_snoc {calls : List (Call H)} {call : Call H} :
    Overwrites (calls ++ [call]) ↔ Overwrites calls ∨ call.Hits (applyOps (ops calls)) := by
  constructor
  · intro hit
    obtain ⟨before, last, after, shape, hits⟩ := hit
    rcases List.eq_nil_or_concat' after with rfl | ⟨after, other, rfl⟩
    · obtain ⟨rfl, same⟩ := List.append_inj' shape rfl
      obtain rfl : call = last := by simpa using same
      exact .inr hits
    · left
      rw [← List.cons_append, ← List.append_assoc] at shape
      exact ⟨before, last, after, (List.append_inj' shape rfl).1, hits⟩
  · intro hit
    rcases hit with ⟨before, last, after, rfl, hits⟩ | hits
    · exact ⟨before, last, after ++ [call], by simp, hits⟩
    · exact ⟨calls, call, [], rfl, hits⟩

theorem Good.remove (good : Good bindings state entries leaked texts) {fuel : Nat}
    (bound : entries.length < fuel) (name : Str) :
    ∃ next entries' leaked', symtabRemove fuel state.1 state.2 name = .ok next ∧
      Good (bindings.erase name) next entries' leaked' (leaksOf bindings (.remove name) ++ texts) ∧
      entries'.length ≤ entries.length + 1 := by
  have removed := good.represents.remove name
  rcases first_or_none name entries with absent | ⟨before, e, after, rfl, first⟩
  · rw [symtabRemove_absent absent] at removed
    have nothing : leaksOf bindings (.remove name) = [] := by rw [leaksOf, good.unbound absent]
    refine ⟨_, entries, leaked, removeFrom_none good.table.linked absent 0 bound,
      ⟨good.table, ?_, removed, good.filled⟩, by omega⟩
    rw [nothing]
    exact good.left
  · obtain ⟨old, found, holds⟩ := good.bound first
    have shorter : before.length < fuel := by
      rw [List.length_append] at bound
      omega
    rw [symtabRemove_first first] at removed
    obtain ⟨t, symtab, unlinked, table, kept⟩ := unlink_first good.table
    obtain ⟨filled, _, filled'⟩ := good.filled_middle
    obtain ⟨next, here⟩ : ∃ next, e.Stored state.1 next := good.table.linked.stored
    obtain rfl : e.name = name := first.2
    have strings :
        Strings state.1 (e.copy :: e.content.blocks ++ leaked) (leaksOf bindings (.remove e.name) ++ texts) :=
      List.rel_append (Entry.leaks here holds found) good.left
    refine ⟨(t, symtab), before ++ after, _, ?_,
      ⟨table, strings.frame kept, removed, List.forall_mem_append.mpr ⟨filled, filled'⟩⟩, ?_⟩
    · rw [symtabRemove, removeFrom_first good.table.linked first 0 shorter, unlinked]
    · simp
      omega

theorem runCalls_snoc (fuel : Nat) (calls : List (Call H)) (call : Call H) :
    runCalls fuel (calls ++ [call]) = runCalls fuel calls >>= call.run fuel := by
  rw [runCalls, List.foldlM_append]
  congr 1
  funext state
  exact (List.foldlM_cons ..).trans (bind_pure _)

def Reads (s : Heap H) (value : Value H) : Setting H → Prop
  | .var chars => ∃ block, value = .block block ∧ loadChars s block = .ok chars
  | .internal p => ∃ h, p = .code h ∧ value = .code h

theorem Good.reads {fuel : Nat} (good : Good bindings state entries leaked texts)
    (bound : entries.length < fuel) (name : Str) :
    match bindings.lookup name with
    | none => ∀ value, symtabFetch fuel state.1 state.2 name value = .ok value
    | some setting => ∃ value, Reads state.1 value setting ∧
        ∀ other, symtabFetch fuel state.1 state.2 name other = .ok value := by
  rcases first_or_none name entries with absent | ⟨before, e, after, rfl, first⟩
  · rw [good.unbound absent]
    exact fetch_none good.table absent bound
  · obtain ⟨setting, found, holds⟩ := good.bound first
    have shorter : before.length < fuel := by
      rw [List.length_append] at bound
      omega
    have fetched := fetch_first good.table first shorter
    rw [found]
    refine ⟨e.content.value, ?_, fun other => (fetched other).1⟩
    have stored := (fetched .null).2
    rcases good.filled_middle.2.1 with text | code
    · cases content : e.content with
      | unset type => simp [content, Content.IsText] at text
      | code h => simp [content, Content.IsText] at text
      | text block chars =>
        rw [content] at stored
        cases setting with
        | internal p =>
          have type := holds.1
          simp [Entry.symbol, content, Content.type] at type
        | var chars' =>
          obtain ⟨_, block', same⟩ := holds
          simp only [Entry.symbol, content, Content.ptr, Ptr.dup.injEq] at same
          rw [← same.2]
          exact ⟨block, rfl, loadChars_eq stored⟩
    · obtain ⟨h, rfl⟩ := (Entry.isCode_iff holds).mp code
      have same : e.content.ptr = .code h := holds.2
      cases content : e.content <;> simp [content, Content.ptr] at same
      exact ⟨h, rfl, by rw [same]; rfl⟩

theorem Good.size {fuel : Nat} (good : Good bindings state entries leaked texts)
    (bound : entries.length < fuel) : symtabSize state.1 fuel state.2 = .ok bindings.keys.card := by
  have length := good.represents.size
  rw [symtabSize_eq_length, symbols, List.length_map] at length
  rw [size_eq good.table.linked bound, length]

variable [DecidableEq H] {fuel : Nat}

theorem Good.set (good : Good bindings state entries leaked texts) (bound : entries.length < fuel)
    (malloc : Malloc (Block H)) (junk : Node H) (name : Str) (setting : Assign H) :
    ((∃ h, bindings.lookup name = some (.internal (.code h))) →
      symtabSet malloc junk fuel state.1 state.2 name setting = .error (.fault .free)) ∧
    ((¬ ∃ h, bindings.lookup name = some (.internal (.code h))) → ∃ next entries',
      symtabSet malloc junk fuel state.1 state.2 name setting = .ok next ∧
      Good (bindings.insert name setting.setting) next entries' leaked texts ∧
      entries'.length ≤ entries.length + 1) := by
  rcases first_or_none name entries with absent | ⟨before, e, after, rfl, first⟩
  · constructor
    · intro hits
      rw [good.unbound absent] at hits
      obtain ⟨h, none⟩ := hits
      cases none
    · intro _
      obtain ⟨t, node, copy, block, returns, table, kept⟩ := symtabSet_new good.table absent setting bound
      refine ⟨_, _, returns, ⟨table, good.left.frame kept, ?_, ?_⟩, Nat.le_refl _⟩
      · rw [← entered_absent absent setting node copy block]
        exact good.represents.set _ name _
      · exact List.forall_mem_cons.mpr ⟨setting.filled block, good.filled⟩
  · obtain ⟨old, found, holds⟩ := good.bound first
    have shorter : before.length < fuel := by
      rw [List.length_append] at bound
      omega
    have sets := @symtabSet_old _ _ _ _ _ _ _ _ malloc junk good.table first setting _ shorter
    rw [Entry.isCode_iff holds] at sets
    have same : (∃ h, bindings.lookup name = some (.internal (.code h))) ↔ ∃ h, old = .internal (.code h) := by
      simp [found]
    rw [same]
    refine ⟨sets.1, ?_⟩
    intro data
    obtain ⟨t, block, returns, table, kept⟩ := sets.2 data
    obtain ⟨filled, _, filled'⟩ := good.filled_middle
    refine ⟨_, _, returns, ⟨table, good.left.frame kept, ?_, ?_⟩, by simp⟩
    · rw [← entered_first first after setting block]
      exact good.represents.set _ name _
    · exact List.forall_mem_append.mpr ⟨filled, List.forall_mem_cons.mpr ⟨setting.filled block, filled'⟩⟩

theorem Good.call (call : Call H) {entries : List (Entry H)} (good : Good bindings state entries leaked texts)
    (bound : entries.length < fuel) :
    (call.Hits bindings → call.run fuel state = .error (.fault .free)) ∧
    (¬ call.Hits bindings → ∃ next entries' leaked', call.run fuel state = .ok next ∧
      Good (call.op.apply bindings) next entries' leaked' (leaksOf bindings call.op ++ texts) ∧
      entries'.length ≤ entries.length + 1) := by
  cases call with
  | set malloc junk name setting =>
    have sets := good.set bound malloc junk name setting
    refine ⟨sets.1, ?_⟩
    intro clean
    obtain ⟨next, entries', returns, good', length⟩ := sets.2 clean
    exact ⟨next, entries', leaked, returns, good', length⟩
  | remove name =>
    refine ⟨False.elim, ?_⟩
    intro _
    exact good.remove bound name

theorem runCalls_good (calls : List (Call H)) {fuel : Nat} (bound : calls.length < fuel) :
    (Overwrites calls → runCalls fuel calls = .error (.fault .free)) ∧
    (¬ Overwrites calls → ∃ state entries leaked, runCalls fuel calls = .ok state ∧
      Good (applyOps (ops calls)) state entries leaked (leaks calls) ∧ entries.length ≤ calls.length) := by
  induction calls using List.reverseRecOn with
  | nil =>
    constructor
    · intro hit
      obtain ⟨before, call, after, shape, _⟩ := hit
      simp at shape
    · intro _
      exact ⟨(.empty, 0), [], [], rfl, ⟨⟨.nil 0, .empty⟩, .nil, represents_nil, by simp⟩, Nat.le_refl _⟩
  | append_singleton calls call ih =>
    rw [List.length_append, List.length_singleton] at bound ⊢
    obtain ⟨faults, runs⟩ := ih (by omega)
    rw [overwrites_snoc, runCalls_snoc]
    by_cases hit : Overwrites calls
    · rw [faults hit]
      exact ⟨fun _ => rfl, fun clean => absurd (.inl hit) clean⟩
    · obtain ⟨state, entries, leaked, returns, good, length⟩ := runs hit
      have step := @Good.call _ _ _ _ _ _ fuel call _ good (by omega)
      simp only [returns, Bind.bind, Except.bind, hit, false_or]
      refine ⟨step.1, ?_⟩
      intro clean
      obtain ⟨next, entries', leaked', returns', good', length'⟩ := step.2 clean
      rw [applyOps_snoc, leaks_snoc]
      exact ⟨next, entries', leaked', returns', good', by omega⟩

/-- Whatever `malloc` returns, a run of the table frees what is no block exactly where it sets a name that
    is bound to a function; any other run ends in a table that answers as the finite map does. -/
theorem symtab_nodes_refine (calls : List (Call H)) {fuel : Nat} (enough : calls.length < fuel) :
    (Overwrites calls → runCalls fuel calls = .error (.fault .free)) ∧
    (¬ Overwrites calls → ∃ s symtab, runCalls fuel calls = .ok (s, symtab) ∧
      (∀ name, match (applyOps (ops calls)).lookup name with
        | none => ∀ value, symtabFetch fuel s symtab name value = .ok value
        | some setting => ∃ value, Reads s value setting ∧
            ∀ other, symtabFetch fuel s symtab name other = .ok value) ∧
      symtabSize s fuel symtab = .ok (applyOps (ops calls)).keys.card) := by
  obtain ⟨faults, runs⟩ := runCalls_good calls enough
  refine ⟨faults, ?_⟩
  intro clean
  obtain ⟨state, entries, leaked, returns, good, length⟩ := runs clean
  have bound : entries.length < fuel := by omega
  exact ⟨state.1, state.2, returns, good.reads bound, good.size bound⟩

theorem symtab_nodes_refine_exit : runCalls 3 [Call.set .lowest ⟨0, .null, .var, 0⟩ "exit".toList (.internal ()),
    .set .lowest ⟨0, .null, .var, 0⟩ "exit".toList (.var [])] = .error (.fault .free) := by
  refine (symtab_nodes_refine _ (by decide)).1 ⟨[_], _, [], rfl, (), ?_⟩
  rfl

/-- Behind a run, `symtab_free` frees every block once but those that `symtab_remove` has left: the copy
    of the name of each symbol that was removed, and of the value of each variable. -/
theorem symtab_free_leaks (calls : List (Call H)) {fuel : Nat} (enough : calls.length < fuel)
    (clean : ¬ Overwrites calls) : ∃ s symtab t leaked, runCalls fuel calls = .ok (s, symtab) ∧
      symtabFree fuel s symtab = .ok t ∧ Live t leaked ∧ Strings t leaked (leaks calls) := by
  obtain ⟨state, entries, leaked, returns, good, length⟩ := (runCalls_good calls enough).2 clean
  obtain ⟨t, freed, live, kept⟩ := @Table.free _ _ _ _ _ good.table fuel (by omega)
  exact ⟨state.1, state.2, t, leaked, returns, freed, live, good.left.frame kept⟩

theorem symtab_free_leaks_two : ∃ s symtab t leaked,
    runCalls 3 [Call.set .lowest ⟨0, .null, .var, 0⟩ "a".toList (.var "1".toList), .remove "a".toList] =
      .ok (s, symtab) ∧
    symtabFree 3 s symtab = .ok t ∧ @Live (Block Unit) t leaked ∧ Strings t leaked ["a".toList, "1".toList] := by
  refine symtab_free_leaks _ (by decide) ?_
  intro hit
  rcases (@overwrites_snoc Unit [_] _).mp hit with hit | hits
  · rcases (@overwrites_snoc Unit [] _).mp hit with nothing | hits
    · obtain ⟨before, call, after, shape, _⟩ := nothing
      simp at shape
    · obtain ⟨h, bound⟩ := hits
      cases bound
  · exact hits

end OS2.Symtab.Nodes
