import OS2.Symtab.Nodes

namespace OS2.Symtab.Nodes

open OS2.Text OS2.Loop OS2.Memory

variable {H : Type}

inductive Content (H : Type) where
  | unset (type : SType)
  | text (block : Nat) (s : Str)
  | code (h : H)
  deriving DecidableEq, Repr

structure Entry (H : Type) where
  node : Nat
  copy : Nat
  name : Str
  content : Content H
  deriving DecidableEq, Repr

def Content.type : Content H → SType
  | .unset type => type
  | .text _ _ => .var
  | .code _ => .internal

def Content.value : Content H → Value H
  | .unset _ => .null
  | .text block _ => .block block
  | .code h => .code h

def Content.blocks : Content H → List Nat
  | .text block _ => [block]
  | .unset _ | .code _ => []

def Content.Stored (s : Heap H) : Content H → Prop
  | .text block chars => s.block block = some (.chars chars)
  | .unset _ | .code _ => True

def Assign.content (block : Nat) : Assign H → Content H
  | .var chars => .text block chars
  | .internal h => .code h

structure Entry.Stored (s : Heap H) (e : Entry H) (next : Nat) : Prop where
  node : s.block e.node = some (.node ⟨e.copy, e.content.value, e.content.type, next⟩)
  copy : s.block e.copy = some (.chars e.name)
  content : e.content.Stored s

theorem Content.Stored.frame {s t : Heap H} {content : Content H} (stored : content.Stored s)
    (same : ∀ x ∈ content.blocks, t.block x = s.block x) : content.Stored t := by
  cases content with
  | unset type => trivial
  | code h => trivial
  | text block chars => exact (same block List.mem_cons_self).trans stored

def layout : Layout (Block H) (Entry H) where
  node := Entry.node
  others := fun e => e.copy :: e.content.blocks
  Stored := Entry.Stored
  used := fun {_ _ _} stored => by rw [stored.node]; rfl
  frame := fun {_ _ _ _} stored same => by
    refine ⟨?_, ?_, stored.content.frame ?_⟩
    · rw [same _ (by simp), stored.node]
    · rw [same _ (by simp), stored.copy]
    · intro x inside
      exact same x (by simp [inside])

/-- The table at `symtab`: its entries own all blocks but those that are leaked. -/
structure Table (s : Heap H) (symtab : Nat) (entries : List (Entry H)) (leaked : List Nat) : Prop where
  linked : Segment layout s symtab entries 0
  owned : Live s (layout.blocks entries ++ leaked)

variable {s t : Heap H} {symtab a : Nat} {entries before after : List (Entry H)} {e : Entry H}
  {leaked : List Nat} {name : Str} {node : Node H} {text : Str}

def Strings (s : Heap H) (blocks : List Nat) (texts : List Str) : Prop :=
  List.Forall₂ (fun a text => s.block a = some (.chars text)) blocks texts

theorem Strings.frame {blocks : List Nat} {texts : List Str} (strings : Strings s blocks texts)
    (same : ∀ x ∈ blocks, t.block x = s.block x) : Strings t blocks texts := by
  induction strings with
  | nil => exact .nil
  | @cons a text blocks texts first rest ih =>
    have later := ih fun x inside => same x (List.mem_cons_of_mem _ inside)
    exact List.Forall₂.cons ((same a List.mem_cons_self).trans first) later

theorem loadNode_eq (here : s.block a = some (.node node)) : loadNode s a = .ok node := by
  rw [loadNode, Store.load_eq here]
  rfl

theorem loadChars_eq (here : s.block a = some (.chars text)) : loadChars s a = .ok text := by
  rw [loadChars, Store.load_eq here]
  rfl

theorem Entry.Stored.loads {next : Nat} (stored : e.Stored s next) :
    loadNode s e.node = .ok ⟨e.copy, e.content.value, e.content.type, next⟩ := loadNode_eq stored.node

theorem Entry.Stored.loads_name {next : Nat} (stored : e.Stored s next) :
    loadChars s e.copy = .ok e.name := loadChars_eq stored.copy

theorem Entry.Stored.ne_zero {next : Nat} (stored : e.Stored s next) : e.node ≠ 0 := Store.ne_zero stored.node

theorem Entry.Stored.next_unique {next next' : Nat} (stored : e.Stored s next) (stored' : e.Stored s next') :
    next = next' := by simpa using stored.node.symm.trans stored'.node

def First (name : Str) (before : List (Entry H)) (e : Entry H) : Prop :=
  (∀ skipped ∈ before, skipped.name ≠ name) ∧ e.name = name

theorem First.tail {skipped : Entry H} (first : First name (skipped :: before) e) : First name before e :=
  ⟨fun skipped member => first.1 skipped (List.mem_cons_of_mem _ member), first.2⟩

theorem first_or_none (name : Str) (entries : List (Entry H)) :
    (∀ e ∈ entries, e.name ≠ name) ∨ ∃ before e after, entries = before ++ e :: after ∧ First name before e := by
  cases found : entries.find? (·.name = name) with
  | none =>
    left
    simpa using found
  | some e =>
    right
    obtain ⟨same, before, after, shape, skipped⟩ := List.find?_eq_some_iff_append.mp found
    exact ⟨before, e, after, shape, by simpa using skipped, by simpa using same⟩

theorem lookup_none (linked : Segment layout s a entries 0) (absent : ∀ e ∈ entries, e.name ≠ name) {fuel : Nat}
    (bound : entries.length < fuel) : symtabLookup s name fuel a = .ok 0 := by
  induction entries generalizing a fuel with
  | nil =>
    obtain ⟨fuel, rfl⟩ := Nat.exists_eq_succ_of_ne_zero (Nat.ne_of_gt bound)
    rw [linked.null.mpr rfl, symtabLookup, if_pos rfl]
  | cons e entries ih =>
    obtain ⟨fuel, rfl⟩ := Nat.exists_eq_succ_of_ne_zero (Nat.ne_zero_of_lt bound)
    rw [List.length_cons] at bound
    cases linked with
    | cons stored rest =>
      have stored : e.Stored s _ := stored
      have other := absent e List.mem_cons_self
      have later : ∀ e ∈ entries, e.name ≠ name := fun e member => absent e (List.mem_cons_of_mem _ member)
      have walked := ih rest later (Nat.lt_of_succ_lt_succ bound)
      simp only [symtabLookup, layout, if_neg stored.ne_zero, stored.loads, stored.loads_name, Bind.bind,
        Except.bind, if_neg other]
      exact walked

theorem lookup_first (linked : Segment layout s a (before ++ e :: after) 0) (first : First name before e)
    {fuel : Nat} (bound : before.length < fuel) : symtabLookup s name fuel a = .ok e.node := by
  induction before generalizing a fuel with
  | nil =>
    obtain ⟨fuel, rfl⟩ := Nat.exists_eq_succ_of_ne_zero (Nat.ne_zero_of_lt bound)
    cases linked with
    | cons stored rest =>
      have stored : e.Stored s _ := stored
      simp only [symtabLookup, layout, if_neg stored.ne_zero, stored.loads, stored.loads_name, Bind.bind,
        Except.bind, if_pos first.2]
  | cons skipped before ih =>
    obtain ⟨fuel, rfl⟩ := Nat.exists_eq_succ_of_ne_zero (Nat.ne_zero_of_lt bound)
    rw [List.length_cons] at bound
    cases linked with
    | cons stored rest =>
      have stored : skipped.Stored s _ := stored
      have other := first.1 skipped List.mem_cons_self
      have walked := ih rest first.tail (Nat.lt_of_succ_lt_succ bound)
      simp only [symtabLookup, layout, if_neg stored.ne_zero, stored.loads, stored.loads_name, Bind.bind,
        Except.bind, if_neg other]
      exact walked

theorem blocks_cons (e : Entry H) (entries : List (Entry H)) : layout.blocks (e :: entries) =
    e.node :: e.copy :: (e.content.blocks ++ layout.blocks entries) := rfl

section Set

variable {malloc : Malloc (Block H)} {junk : Node H}

theorem Table.alloc (table : Table s symtab entries leaked) (malloc : Malloc (Block H)) (b : Block H) :
    Table (malloc.alloc s b).1 symtab entries ((malloc.alloc s b).2 :: leaked) := by
  have fresh := table.owned.fresh malloc b
  constructor
  · apply table.linked.frame
    intro x inside
    rw [malloc.alloc_block, if_neg]
    rintro rfl
    exact fresh (List.mem_append_left _ inside)
  · exact (table.owned.alloc malloc b).perm List.perm_middle.symm

theorem Table.enter (table : Table s symtab entries leaked) (malloc : Malloc (Block H)) (junk : Node H)
    (name : Str) : ∃ t node copy, enter malloc junk s symtab name = .ok (t, node) ∧
      Table t node (⟨node, copy, name, .unset junk.type⟩ :: entries) leaked ∧
      ∀ x ∈ leaked, t.block x = s.block x := by
  have first := table.alloc malloc (.node junk)
  have same := fun x inside => @Live.alloc_kept _ _ x _ table.owned malloc (.node junk) inside
  generalize made : malloc.alloc s (.node junk) = allocated at first same
  obtain ⟨s₁, node⟩ := allocated
  have junked : s₁.block node = some (.node junk) := by
    have block := malloc.alloc_block s (.node junk) node
    rw [made, if_pos rfl] at block
    exact block
  have second := first.alloc malloc (.chars name)
  have same' := fun x inside => @Live.alloc_kept _ _ x _ first.owned malloc (.chars name) inside
  have other := first.owned.fresh malloc (.chars name)
  have blocks := malloc.alloc_block s₁ (.chars name)
  generalize copied : malloc.alloc s₁ (.chars name) = allocated at second same' other blocks
  obtain ⟨s₂, copy⟩ := allocated
  have distinct : node ≠ copy := by
    rintro rfl
    exact other (List.mem_append_right _ List.mem_cons_self)
  have kept : s₂.block node = some (.node junk) := by rw [blocks, if_neg distinct, junked]
  obtain ⟨t, written, block⟩ :=
    Store.write_eq kept (.node { junk with name := copy, next := symtab, value := .null })
  refine ⟨t, node, copy, ?_, ⟨?_, ?_⟩, ?_⟩
  · simp only [Nodes.enter, made, copied, loadNode_eq kept, Bind.bind, Except.bind, written]
  · have stored : Entry.Stored t ⟨node, copy, name, .unset junk.type⟩ symtab := by
      refine ⟨?_, ?_, trivial⟩
      · rw [block, if_pos rfl]
        rfl
      · rw [block, if_neg (Ne.symm distinct), blocks, if_pos rfl]
    apply @Segment.cons _ _ layout _ _ _ _ _ stored
    apply second.linked.frame
    intro x inside
    rw [block, if_neg]
    rintro rfl
    have nodup := second.owned.nodup
    simp only [List.nodup_append] at nodup
    exact nodup.2.2 _ inside _ (by simp) rfl
  · apply (second.owned.write kept block).perm
    exact (List.perm_middle.trans (List.perm_middle.cons copy)).trans (List.Perm.swap node copy _)
  · intro x inside
    have inner : x ∈ layout.blocks entries ++ leaked := List.mem_append_right _ inside
    rw [block, if_neg, same' x (by simp [inside]), same x inner]
    rintro rfl
    have nodup := first.owned.nodup
    rw [List.nodup_middle, List.nodup_cons] at nodup
    exact nodup.1 inner

theorem Table.copyIn (table : Table s symtab entries leaked) (malloc : Malloc (Block H)) (setting : Assign H) :
    ∃ block, (copyIn malloc s setting).2 = (setting.content block).value ∧
      (setting.content block).Stored (copyIn malloc s setting).1 ∧
      Table (copyIn malloc s setting).1 symtab entries ((setting.content block).blocks ++ leaked) ∧
      ∀ x ∈ leaked, (copyIn malloc s setting).1.block x = s.block x := by
  cases setting with
  | internal h => exact ⟨0, rfl, trivial, table, fun _ _ => rfl⟩
  | var chars =>
    refine ⟨(malloc.alloc s (.chars chars)).2, rfl, ?_, table.alloc malloc _, ?_⟩
    · exact (malloc.alloc_block s _ _).trans (if_pos rfl)
    · intro x inside
      exact table.owned.alloc_kept malloc _ (List.mem_append_right _ inside)

def Content.IsCode : Content H → Prop
  | .code _ => True
  | .unset _ | .text _ _ => False

theorem assign_code {next : Nat} (stored : e.Stored s next) (code : e.content.IsCode) (type : SType)
    (value : Value H) : assign s e.node type value = .error (.fault .free) := by
  cases content : e.content with
  | unset type => simp [content, Content.IsCode] at code
  | text block chars => simp [content, Content.IsCode] at code
  | code h =>
    simp only [assign, stored.loads, content, Content.value, freeValue, Bind.bind, Except.bind]

theorem Content.free {content : Content H} {owned : List Nat} (live : Live s (content.blocks ++ owned))
    (data : ¬ content.IsCode) : ∃ t, freeValue s content.value = .ok t ∧ Live t owned ∧
      ∀ x ∉ content.blocks, t.block x = s.block x := by
  cases content with
  | unset type => exact ⟨s, rfl, live, fun _ _ => rfl⟩
  | code h => exact absurd trivial data
  | text block chars =>
    obtain ⟨t, freed, live, kept⟩ := live.free
    exact ⟨t, freed, live, fun x other => kept x (by simpa [Content.blocks] using other)⟩

theorem Table.assign {new : Content H} (table : Table s symtab (before ++ e :: after) (new.blocks ++ leaked))
    (stored : new.Stored s) (data : ¬ e.content.IsCode) :
    ∃ t, assign s e.node new.type new.value = .ok t ∧
      Table t symtab (before ++ { e with content := new } :: after) leaked ∧
      ∀ x ∈ leaked, t.block x = s.block x := by
  obtain ⟨next, here⟩ : ∃ next, e.Stored s next := table.linked.stored
  have blocks : (layout.blocks (before ++ e :: after) ++ (new.blocks ++ leaked)).Perm
      (e.content.blocks ++ e.node :: e.copy :: (layout.blocks (before ++ after) ++ (new.blocks ++ leaked))) := by
    apply List.perm_iff_count.mpr
    intro x
    simp only [layout.blocks_append, blocks_cons, List.count_append, List.count_cons]
    omega
  have owned := table.owned.perm blocks
  have apart := List.nodup_append.mp owned.nodup
  obtain ⟨s₁, freed, live, kept⟩ := Content.free owned data
  have outside : ∀ x ∈ e.node :: e.copy :: (layout.blocks (before ++ after) ++ (new.blocks ++ leaked)),
      s₁.block x = s.block x := fun x inside => kept x fun old => apart.2.2 x old x inside rfl
  have node := outside e.node List.mem_cons_self
  rw [here.node] at node
  obtain ⟨t, written, block⟩ := Store.write_eq node
    (.node { (⟨e.copy, e.content.value, e.content.type, next⟩ : Node H) with type := new.type, value := new.value })
  have other : ∀ x ∈ e.copy :: (layout.blocks (before ++ after) ++ (new.blocks ++ leaked)), t.block x = s.block x := by
    intro x inside
    rw [block, if_neg, outside x (List.mem_cons_of_mem _ inside)]
    rintro rfl
    exact (List.nodup_cons.mp apart.2.1).1 inside
  refine ⟨t, ?_, ⟨?_, ?_⟩, ?_⟩
  · simp only [Nodes.assign, here.loads, freed, loadNode_eq node, Bind.bind, Except.bind]
    exact written
  · apply @Segment.update _ _ _ _ _ _ _ _ _ _ { e with content := new } table.linked rfl
    · intro x inside
      exact other x (List.mem_cons_of_mem _ (List.mem_append_left _ inside))
    · intro next' old
      have old : e.Stored s next' := old
      refine ⟨?_, ?_, ?_⟩
      · rw [block, if_pos rfl, old.next_unique here]
      · rw [other _ List.mem_cons_self]
        exact old.copy
      · apply stored.frame
        intro x inside
        exact other x (List.mem_cons_of_mem _ (List.mem_append_right _ (List.mem_append_left _ inside)))
  · apply (live.write node block).perm
    apply List.perm_iff_count.mpr
    intro x
    simp only [layout.blocks_append, blocks_cons, List.count_append, List.count_cons]
    omega
  · intro x inside
    exact other x (by simp [inside])

theorem symtabSet_new (table : Table s symtab entries leaked) (absent : ∀ e ∈ entries, e.name ≠ name)
    (setting : Assign H) {fuel : Nat} (bound : entries.length < fuel) :
    ∃ t node copy block, symtabSet malloc junk fuel s symtab name setting = .ok (t, node) ∧
      Table t node (⟨node, copy, name, setting.content block⟩ :: entries) leaked ∧
      ∀ x ∈ leaked, t.block x = s.block x := by
  obtain ⟨s₁, node, copy, entered, first, kept₁⟩ := table.enter malloc junk name
  obtain ⟨block, value, stored, second, kept₂⟩ := first.copyIn malloc setting
  have content : setting.type = (setting.content block).type := by cases setting <;> rfl
  obtain ⟨t, assigned, third, kept₃⟩ := @Table.assign _ _ _ [] _ _ _ _ second stored id
  refine ⟨t, node, copy, block, ?_, third, fun x inside => ?_⟩
  · simp only [symtabSet, lookup_none table.linked absent bound, entered, Bind.bind, Except.bind, if_true, value,
      content, assigned]
  · rw [kept₃ x inside, kept₂ x inside, kept₁ x inside]

theorem symtabSet_old (table : Table s symtab (before ++ e :: after) leaked) (first : First name before e)
    (setting : Assign H) {fuel : Nat} (bound : before.length < fuel) :
    (e.content.IsCode → symtabSet malloc junk fuel s symtab name setting = .error (.fault .free)) ∧
    (¬ e.content.IsCode → ∃ t block, symtabSet malloc junk fuel s symtab name setting = .ok (t, symtab) ∧
      Table t symtab (before ++ { e with content := setting.content block } :: after) leaked ∧
      ∀ x ∈ leaked, t.block x = s.block x) := by
  obtain ⟨block, value, stored, copied, kept₁⟩ := table.copyIn malloc setting
  obtain ⟨next, here⟩ : ∃ next, e.Stored _ next := copied.linked.stored
  have found := lookup_first table.linked first bound
  have content : setting.type = (setting.content block).type := by cases setting <;> rfl
  constructor
  · intro code
    simp only [symtabSet, found, Bind.bind, Except.bind, if_neg here.ne_zero, assign_code here code]
  · intro data
    obtain ⟨t, assigned, table', kept₂⟩ := copied.assign stored data
    refine ⟨t, block, ?_, table', fun x inside => ?_⟩
    · simp only [symtabSet, found, Bind.bind, Except.bind, if_neg here.ne_zero, value, content, assigned]
    · rw [kept₂ x inside, kept₁ x inside]

end Set

section Remove

def lastNode (prev : Nat) (before : List (Entry H)) : Nat := (before.getLast?.map Entry.node).getD prev

theorem lastNode_cons (prev : Nat) (skipped : Entry H) (before : List (Entry H)) :
    lastNode prev (skipped :: before) = lastNode skipped.node before := by
  rw [lastNode, lastNode, List.getLast?_cons]
  cases before.getLast? <;> rfl

theorem removeFrom_none (linked : Segment layout s a entries 0) (absent : ∀ e ∈ entries, e.name ≠ name)
    (prev : Nat) {fuel : Nat} (bound : entries.length < fuel) :
    removeFrom s symtab name fuel a prev = .ok (s, symtab) := by
  induction entries generalizing a fuel prev with
  | nil =>
    obtain ⟨fuel, rfl⟩ := Nat.exists_eq_succ_of_ne_zero (Nat.ne_of_gt bound)
    rw [linked.null.mpr rfl, removeFrom, if_pos rfl]
  | cons e entries ih =>
    obtain ⟨fuel, rfl⟩ := Nat.exists_eq_succ_of_ne_zero (Nat.ne_zero_of_lt bound)
    rw [List.length_cons] at bound
    cases linked with
    | cons stored rest =>
      have stored : e.Stored s _ := stored
      have other := absent e List.mem_cons_self
      have later : ∀ e ∈ entries, e.name ≠ name := fun e member => absent e (List.mem_cons_of_mem _ member)
      have walked := ih rest later e.node (Nat.lt_of_succ_lt_succ bound)
      simp only [removeFrom, layout, if_neg stored.ne_zero, stored.loads, stored.loads_name, Bind.bind,
        Except.bind, if_neg other]
      exact walked

theorem removeFrom_first (linked : Segment layout s a (before ++ e :: after) 0) (first : First name before e)
    (prev : Nat) {fuel : Nat} (bound : before.length < fuel) :
    removeFrom s symtab name fuel a prev = unlink s symtab e.node (lastNode prev before) := by
  induction before generalizing a fuel prev with
  | nil =>
    obtain ⟨fuel, rfl⟩ := Nat.exists_eq_succ_of_ne_zero (Nat.ne_zero_of_lt bound)
    cases linked with
    | cons stored rest =>
      have stored : e.Stored s _ := stored
      simp only [removeFrom, layout, if_neg stored.ne_zero, stored.loads, stored.loads_name, Bind.bind,
        Except.bind, if_pos first.2]
      rfl
  | cons skipped before ih =>
    obtain ⟨fuel, rfl⟩ := Nat.exists_eq_succ_of_ne_zero (Nat.ne_zero_of_lt bound)
    rw [List.length_cons] at bound
    cases linked with
    | cons stored rest =>
      have stored : skipped.Stored s _ := stored
      have other := first.1 skipped List.mem_cons_self
      have walked := ih rest first.tail skipped.node (Nat.lt_of_succ_lt_succ bound)
      simp only [removeFrom, layout, if_neg stored.ne_zero, stored.loads, stored.loads_name, Bind.bind,
        Except.bind, if_neg other, lastNode_cons]
      exact walked

theorem remove_perm (before after : List (Entry H)) (e : Entry H) (leaked : List Nat) :
    (layout.blocks (before ++ e :: after) ++ leaked).Perm
      (e.node :: (layout.blocks (before ++ after) ++ (e.copy :: e.content.blocks ++ leaked))) := by
  apply List.perm_iff_count.mpr
  intro x
  simp only [layout.blocks_append, blocks_cons, List.count_append, List.count_cons, List.cons_append]
  omega

/-- The removed node is freed; the copy of its name and its value are not. -/
theorem unlink_first (table : Table s symtab (before ++ e :: after) leaked) :
    ∃ t symtab', unlink s symtab e.node (lastNode 0 before) = .ok (t, symtab') ∧
      Table t symtab' (before ++ after) (e.copy :: e.content.blocks ++ leaked) ∧
      ∀ x ∈ e.copy :: e.content.blocks ++ leaked, t.block x = s.block x := by
  obtain ⟨next, here⟩ : ∃ next, e.Stored s next := table.linked.stored
  have owned := table.owned.perm (remove_perm before after e leaked)
  have apart := (List.nodup_cons.mp owned.nodup).1
  rcases List.eq_nil_or_concat' before with rfl | ⟨before, p, rfl⟩
  · obtain ⟨t, freed, live, kept⟩ := owned.free
    refine ⟨t, next, ?_, ⟨?_, live⟩, fun x inside => kept x ?_⟩
    · simp only [unlink, here.loads, lastNode, freed, Bind.bind, Except.bind]
      rfl
    · cases table.linked with
      | cons stored rest =>
        have stored : e.Stored s _ := stored
        rw [here.next_unique stored]
        apply rest.frame
        intro x inside
        apply kept
        rintro rfl
        exact apart (List.mem_append_left _ inside)
    · rintro rfl
      exact apart (List.mem_append_right _ inside)
  · have linked := table.linked
    rw [List.append_assoc, List.singleton_append] at linked
    obtain ⟨next', pointing⟩ : ∃ next', p.Stored s next' := linked.stored
    obtain ⟨s₁, written, block⟩ := Store.write_eq pointing.node
      (.node { (⟨p.copy, p.content.value, p.content.type, next'⟩ : Node H) with next := next })
    obtain ⟨t, freed, live, kept⟩ := (owned.write pointing.node block).free
    have other : p.node ≠ e.node := by
      intro same
      apply apart
      rw [← same]
      simp [layout.blocks_append, blocks_cons]
    have last : lastNode 0 (before ++ [p]) = p.node := by simp [lastNode]
    refine ⟨t, symtab, ?_, ⟨?_, live⟩, fun x inside => ?_⟩
    · simp only [unlink, here.loads, last, if_pos (Store.ne_zero pointing.node), pointing.loads, written, freed,
        Bind.bind, Except.bind]
    · rw [List.append_assoc, List.singleton_append]
      have reads : ∀ x ∈ layout.blocks (before ++ after) ++ p.copy :: p.content.blocks, t.block x = s.block x := by
        intro x inside
        have members := remove_perm before after p (e.copy :: e.content.blocks ++ leaked)
        have later := (List.nodup_cons.mp owned.nodup).2
        rw [List.append_assoc, List.singleton_append, members.nodup_iff, List.nodup_cons] at later
        rw [List.append_assoc, List.singleton_append, members.mem_iff] at apart
        rw [kept, block, if_neg]
        · rintro rfl
          apply later.1
          rw [List.mem_append] at inside ⊢
          exact inside.imp_right fun own => List.mem_append_left _ own
        · rintro rfl
          apply apart
          rw [List.mem_cons, List.mem_append]
          exact .inr ((List.mem_append.mp inside).imp_right fun own => List.mem_append_left _ own)
      apply linked.unlink
      · intro x inside
        exact reads x (List.mem_append_left _ inside)
      · intro following stored after
        have stored : p.Stored s e.node := stored
        have after : e.Stored s following := after
        refine ⟨?_, ?_, ?_⟩
        · rw [kept _ other, block, if_pos rfl, after.next_unique here]
        · rw [reads _ (by simp), stored.copy]
        · apply stored.content.frame
          intro x inside
          exact reads x (by simp [inside])
    · have later := (List.nodup_cons.mp owned.nodup).2
      have apart' := (List.nodup_append.mp later).2.2
      rw [kept, block, if_neg]
      · intro same
        refine apart' p.node ?_ x inside same.symm
        simp [layout.blocks_append, blocks_cons]
      · rintro rfl
        exact apart (List.mem_append_right _ inside)

end Remove

theorem fetch_none (table : Table s symtab entries leaked) (absent : ∀ e ∈ entries, e.name ≠ name) {fuel : Nat}
    (bound : entries.length < fuel) (value : Value H) : symtabFetch fuel s symtab name value = .ok value := by
  simp only [symtabFetch, lookup_none table.linked absent bound, Bind.bind, Except.bind, if_true]

theorem fetch_first (table : Table s symtab (before ++ e :: after) leaked) (first : First name before e) {fuel : Nat}
    (bound : before.length < fuel) (value : Value H) :
    symtabFetch fuel s symtab name value = .ok e.content.value ∧ e.content.Stored s := by
  obtain ⟨next, here⟩ : ∃ next, e.Stored s next := table.linked.stored
  refine ⟨?_, here.content⟩
  simp only [symtabFetch, lookup_first table.linked first bound, Bind.bind, Except.bind, if_neg here.ne_zero,
    here.loads]

theorem size_eq (linked : Segment layout s a entries 0) {fuel : Nat} (bound : entries.length < fuel) :
    symtabSize s fuel a = .ok entries.length := by
  induction entries generalizing a fuel with
  | nil =>
    obtain ⟨fuel, rfl⟩ := Nat.exists_eq_succ_of_ne_zero (Nat.ne_of_gt bound)
    rw [linked.null.mpr rfl, symtabSize, if_pos rfl]
    rfl
  | cons e entries ih =>
    obtain ⟨fuel, rfl⟩ := Nat.exists_eq_succ_of_ne_zero (Nat.ne_zero_of_lt bound)
    rw [List.length_cons] at bound
    cases linked with
    | cons stored rest =>
      have stored : e.Stored s _ := stored
      have counted := ih rest (Nat.lt_of_succ_lt_succ bound)
      simp only [symtabSize, layout, if_neg stored.ne_zero, stored.loads, Bind.bind, Except.bind, counted,
        List.length_cons]

theorem Content.free_var {content : Content H} {owned : List Nat} (live : Live s (content.blocks ++ owned))
    (copy next : Nat) : ∃ t, freeVar s ⟨copy, content.value, content.type, next⟩ = .ok t ∧ Live t owned ∧
      ∀ x ∉ content.blocks, t.block x = s.block x := by
  cases content with
  | code h => exact ⟨s, rfl, live, fun _ _ => rfl⟩
  | text block chars => exact @Content.free _ _ (.text block chars) _ live id
  | unset type =>
    refine ⟨s, ?_, live, fun _ _ => rfl⟩
    cases type <;> rfl

theorem Table.free (table : Table s symtab entries leaked) {fuel : Nat} (bound : entries.length < fuel) :
    ∃ t, symtabFree fuel s symtab = .ok t ∧ Live t leaked ∧ ∀ x ∈ leaked, t.block x = s.block x := by
  induction entries generalizing s symtab fuel with
  | nil =>
    obtain ⟨fuel, rfl⟩ := Nat.exists_eq_succ_of_ne_zero (Nat.ne_of_gt bound)
    refine ⟨s, ?_, table.owned, fun _ _ => rfl⟩
    rw [table.linked.null.mpr rfl, symtabFree, if_pos rfl]
  | cons e entries ih =>
    obtain ⟨fuel, rfl⟩ := Nat.exists_eq_succ_of_ne_zero (Nat.ne_zero_of_lt bound)
    rw [List.length_cons] at bound
    have owned := table.owned
    cases table.linked with
    | @cons _ _ next _ stored rest =>
    have here : e.Stored s next := stored
    have others : (layout.blocks (e :: entries) ++ leaked).Perm
        (e.copy :: (e.content.blocks ++ e.node :: (layout.blocks entries ++ leaked))) := by
      apply List.perm_iff_count.mpr
      intro x
      simp only [blocks_cons, List.count_append, List.count_cons, List.cons_append]
      omega
    have owned := owned.perm others
    obtain ⟨apart, later⟩ := List.nodup_cons.mp owned.nodup
    have apart' := List.nodup_append.mp later
    obtain ⟨s₁, freed₁, live₁, kept₁⟩ := owned.free
    obtain ⟨s₂, freed₂, live₂, kept₂⟩ := Content.free_var live₁ e.copy next
    obtain ⟨s₃, freed₃, live₃, kept₃⟩ := live₂.free
    have outside : ∀ x ∈ e.node :: (layout.blocks entries ++ leaked), x ≠ e.copy ∧ x ∉ e.content.blocks := by
      intro x inside
      constructor
      · rintro rfl
        exact apart (List.mem_append_right _ inside)
      · intro value
        exact apart'.2.2 x value x inside rfl
    have node := outside e.node List.mem_cons_self
    have loads₁ := loadNode_eq ((kept₁ _ node.1).trans here.node)
    have loads₂ := loadNode_eq ((kept₂ _ node.2).trans ((kept₁ _ node.1).trans here.node))
    have below : ∀ x ∈ layout.blocks entries ++ leaked, s₃.block x = s.block x := by
      intro x inside
      have beside := outside x (List.mem_cons_of_mem _ inside)
      rw [kept₃, kept₂ x beside.2, kept₁ x beside.1]
      rintro rfl
      exact (List.nodup_cons.mp apart'.2.1).1 inside
    have tail : Table s₃ next entries leaked :=
      ⟨rest.frame fun x inside => below x (List.mem_append_left _ inside), live₃⟩
    obtain ⟨t, freed, live, kept⟩ := ih tail (Nat.lt_of_succ_lt_succ bound)
    refine ⟨t, ?_, live, fun x inside => ?_⟩
    · simp only [symtabFree, layout, if_neg here.ne_zero, here.loads, freed₁, loads₁, freed₂, loads₂, freed₃, Bind.bind,
        Except.bind]
      exact freed
    · rw [kept x inside, below x (List.mem_append_right _ inside)]

end OS2.Symtab.Nodes
