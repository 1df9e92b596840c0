import OS2.Memory.Blocks
import OS2.Tokenise.Scanner
import Mathlib.Data.List.Forall2

namespace OS2.Tokenise.Vector

open OS2.Text OS2.Loop OS2.Memory

inductive Block where
  | chars (s : Str)
  | token (value : Nat) (type : TType)
  | pointers (slots : List Nat)
  deriving DecidableEq, Repr

abbrev Heap := Store Block

inductive Fault where
  | scan (e : Tokenise.Fault)
  | memory (e : Misuse)
  deriving DecidableEq, Repr

def loadChars (s : Heap) (a : Nat) : Except (Stop Misuse) Str := do
  match ← s.load a with
  | .chars text => .ok text
  | _ => .error (.fault .access)

def loadToken (s : Heap) (a : Nat) : Except (Stop Misuse) (Nat × TType) := do
  match ← s.load a with
  | .token value type => .ok (value, type)
  | _ => .error (.fault .access)

def loadPointers (s : Heap) (a : Nat) : Except (Stop Misuse) (List Nat) := do
  match ← s.load a with
  | .pointers slots => .ok slots
  | _ => .error (.fault .access)

def slot (s : Heap) (a i : Nat) : Except (Stop Misuse) Nat := do
  let slots ← loadPointers s a
  match slots[i]? with
  | some p => .ok p
  | none => .error (.fault .access)

def setSlot (s : Heap) (a i p : Nat) : Except (Stop Misuse) Heap := do
  let slots ← loadPointers s a
  if i < slots.length then s.write a (.pointers (slots.set i p)) else .error (.fault .access)

/-- The array with room for `n` pointers; what is new in it is written before it is read. -/
def resize (slots : List Nat) (n : Nat) : List Nat := (slots ++ List.replicate (n - slots.length) 0).take n

def slotsOf (s : Heap) (tokens : Nat) : Except (Stop Misuse) (List Nat) :=
  if tokens = 0 then .ok [] else loadPointers s tokens

def push (malloc : Malloc Block) (s : Heap) (tokens n : Nat) (token : Token) :
    Except (Stop Misuse) (Heap × Nat) := do
  let (s, value) := malloc.alloc s (.chars token.value)
  let slots ← slotsOf s tokens
  let (s, tokens) ← malloc.realloc s tokens (.pointers (resize slots (n + 1)))
  let (s, cell) := malloc.alloc s (.token 0 .undefined)
  let s ← setSlot s tokens n cell
  let s ← s.write cell (.token value token.type)
  .ok (s, tokens)

structure Fetch where
  scanner : Scanner
  heap : Heap
  tokens : Nat

def store (malloc : Malloc Block) (f : Fetch) (scanner : Scanner) : Except (Stop Misuse) Fetch :=
  match scanner.tokens.drop f.scanner.tokens.length with
  | [] => .ok { f with scanner := scanner }
  | token :: _ => do
    let (heap, tokens) ← push malloc f.heap f.tokens f.scanner.count token
    .ok { scanner := scanner, heap := heap, tokens := tokens }

def fetchLoop (malloc : Malloc Block) (src : Str) : Nat → Fetch → Except (Stop Fault) Fetch
  | 0, _ => .error .fuel
  | fuel + 1, f =>
    if scanning src f.scanner then do
      let scanner ← (scan src f.scanner).mapError fun e => .fault (.scan e)
      let f ← (store malloc f scanner).mapError (Stop.map .memory)
      fetchLoop malloc src fuel f
    else .ok f

def tokeniseFetch (malloc : Malloc Block) (fuel : Nat) (s : Heap) (src : Str) :
    Except (Stop Fault) (Heap × Nat × Nat) :=
  (fetchLoop malloc src fuel ⟨.init, s, 0⟩).map fun f => (f.heap, f.tokens, f.scanner.count)

def freeToken (s : Heap) (token : Nat) : Except (Stop Misuse) Heap :=
  if token = 0 then s.free token
  else do
    let (value, _) ← loadToken s token
    let s ← s.free value
    s.free token

def freeTokens (s : Heap) (tokens : Nat) (i : Nat) : Nat → Except (Stop Misuse) Heap
  | 0 => .ok s
  | left + 1 => do
    let token ← slot s tokens i
    let s ← freeToken s token
    freeTokens s tokens (i + 1) left

def tokeniseFree (s : Heap) (tokens count : Nat) : Except (Stop Misuse) Heap :=
  if tokens = 0 then .ok s
  else do
    let s ← freeTokens s tokens 0 count
    s.free tokens

structure Cell where
  token : Nat
  value : Nat
  deriving DecidableEq, Repr

def Cell.Stored (s : Heap) (c : Cell) (token : Token) : Prop :=
  s.block c.token = some (.token c.value token.type) ∧ s.block c.value = some (.chars token.value)

def blocksOf (cells : List Cell) : List Nat := cells.flatMap fun c => [c.token, c.value]

/-- The array at `tokens` holds the tokens `list`; without tokens there is no array. -/
structure Holds (s : Heap) (tokens : Nat) (cells : List Cell) (list : List Token) : Prop where
  null : cells = [] → tokens = 0
  slots : cells ≠ [] → s.block tokens = some (.pointers (cells.map Cell.token))
  stored : List.Forall₂ (Cell.Stored s) cells list

def ownedBy (tokens : Nat) (cells : List Cell) : List Nat :=
  if cells = [] then [] else tokens :: blocksOf cells

variable {s t : Heap} {tokens a n : Nat} {cells : List Cell} {list : List Token} {owned : List Nat} {token : Token}
  {malloc : Malloc Block}

theorem loadChars_eq {text : Str} (here : s.block a = some (.chars text)) : loadChars s a = .ok text := by
  rw [loadChars, Store.load_eq here]
  rfl

theorem loadToken_eq {value : Nat} {type : TType} (here : s.block a = some (.token value type)) :
    loadToken s a = .ok (value, type) := by
  rw [loadToken, Store.load_eq here]
  rfl

theorem loadPointers_eq {slots : List Nat} (here : s.block a = some (.pointers slots)) :
    loadPointers s a = .ok slots := by
  rw [loadPointers, Store.load_eq here]
  rfl

theorem slot_eq {slots : List Nat} {i p : Nat} (here : s.block a = some (.pointers slots))
    (inside : slots[i]? = some p) : slot s a i = .ok p := by
  simp only [slot, loadPointers_eq here, Bind.bind, Except.bind, inside]

theorem setSlot_eq {slots : List Nat} {i : Nat} (here : s.block a = some (.pointers slots))
    (inside : i < slots.length) (p : Nat) : ∃ t, setSlot s a i p = .ok t ∧
      ∀ x, t.block x = if x = a then some (.pointers (slots.set i p)) else s.block x := by
  obtain ⟨t, written, block⟩ := Store.write_eq here (.pointers (slots.set i p))
  refine ⟨t, ?_, block⟩
  simp only [setSlot, loadPointers_eq here, Bind.bind, Except.bind, if_pos inside, written]

theorem blocksOf_append (cells cells' : List Cell) : blocksOf (cells ++ cells') = blocksOf cells ++ blocksOf cells' :=
  List.flatMap_append

theorem Stored.frame {c : Cell} (stored : c.Stored s token) (same : ∀ x ∈ blocksOf [c], t.block x = s.block x) :
    c.Stored t token :=
  ⟨(same _ (by simp [blocksOf])).trans stored.1, (same _ (by simp [blocksOf])).trans stored.2⟩

theorem stored_frame (stored : List.Forall₂ (Cell.Stored s) cells list)
    (same : ∀ x ∈ blocksOf cells, t.block x = s.block x) : List.Forall₂ (Cell.Stored t) cells list := by
  induction stored with
  | nil => exact .nil
  | cons first rest ih =>
    apply List.Forall₂.cons
    · apply Stored.frame first
      intro x inside
      exact same x (List.mem_append_left _ inside)
    · apply ih
      intro x inside
      exact same x (List.mem_append_right _ inside)

theorem resize_succ (slots : List Nat) : resize slots (slots.length + 1) = slots ++ [0] := by
  rw [resize, Nat.add_sub_cancel_left]
  exact List.take_of_length_le (by simp)

theorem slotsOf_eq (holds : Holds s tokens cells list) : slotsOf s tokens = .ok (cells.map Cell.token) := by
  by_cases none : cells = []
  · rw [slotsOf, if_pos (holds.null none), none]
    rfl
  · have here := holds.slots none
    rw [slotsOf, if_neg (Store.ne_zero here), loadPointers_eq here]

theorem Holds.frame (holds : Holds s tokens cells list)
    (same : ∀ x ∈ ownedBy tokens cells, t.block x = s.block x) : Holds t tokens cells list := by
  by_cases none : cells = []
  · subst none
    exact ⟨holds.null, fun more => absurd rfl more, stored_frame holds.stored fun x inside => by cases inside⟩
  · rw [ownedBy, if_neg none] at same
    refine ⟨holds.null, ?_, stored_frame holds.stored fun x inside => same x (List.mem_cons_of_mem _ inside)⟩
    intro more
    rw [same _ List.mem_cons_self]
    exact holds.slots more

theorem realloc_eq {b : Block} (malloc : Malloc Block) (null : cells = [] → tokens = 0)
    (live : Live s (ownedBy tokens cells ++ owned)) :
    ∃ t new, malloc.realloc s tokens b = .ok (t, new) ∧ Live t (new :: (blocksOf cells ++ owned)) ∧
      t.block new = some b ∧ ∀ x ∈ blocksOf cells ++ owned, t.block x = s.block x := by
  by_cases none : cells = []
  · subst none
    rw [null rfl]
    exact live.realloc_null malloc b
  · rw [ownedBy, if_neg none] at live
    exact live.realloc malloc b

theorem push_eq (malloc : Malloc Block) (holds : Holds s tokens cells list)
    (live : Live s (ownedBy tokens cells ++ owned)) (token : Token) :
    ∃ t tokens' cells', push malloc s tokens list.length token = .ok (t, tokens') ∧
      Holds t tokens' cells' (list ++ [token]) ∧ Live t (ownedBy tokens' cells' ++ owned) ∧
      ∀ x ∈ owned, t.block x = s.block x := by
  have length : cells.length = list.length := holds.stored.length_eq
  have live₁ := live.alloc malloc (.chars token.value)
  have kept₁ := fun x inside => @Live.alloc_kept _ s x _ live malloc (.chars token.value) inside
  have text := malloc.alloc_block s (.chars token.value) (malloc.alloc s (.chars token.value)).2
  rw [if_pos rfl] at text
  generalize copied : malloc.alloc s (.chars token.value) = pair at live₁ kept₁ text
  obtain ⟨s₁, value⟩ := pair
  have holds₁ : Holds s₁ tokens cells list := holds.frame fun x inside => kept₁ x (List.mem_append_left _ inside)
  have live₁ : Live s₁ (ownedBy tokens cells ++ (value :: owned)) := live₁.perm List.perm_middle.symm
  obtain ⟨s₂, tokens', moved, live₂, array, kept₂⟩ :=
    @realloc_eq _ _ _ _ (.pointers (resize (cells.map Cell.token) (list.length + 1))) malloc holds₁.null live₁
  have live₃ := live₂.alloc malloc (.token 0 .undefined)
  have kept₃ := fun x inside => @Live.alloc_kept _ s₂ x _ live₂ malloc (.token 0 .undefined) inside
  have raw := malloc.alloc_block s₂ (.token 0 .undefined) (malloc.alloc s₂ (.token 0 .undefined)).2
  rw [if_pos rfl] at raw
  generalize made : malloc.alloc s₂ (.token 0 .undefined) = pair at live₃ kept₃ raw
  obtain ⟨s₃, cell⟩ := pair
  have array₃ := (kept₃ tokens' List.mem_cons_self).trans array
  rw [← length, ← List.length_map (f := Cell.token), resize_succ] at array₃
  obtain ⟨s₄, set, block₄⟩ := @setSlot_eq _ _ _ list.length array₃ (by simp [length]) cell
  have nodup := live₃.nodup
  simp only [List.nodup_cons] at nodup
  have apart : cell ≠ tokens' := fun same => nodup.1 (same ▸ List.mem_cons_self)
  have raw₄ : s₄.block cell = some (.token 0 .undefined) := by rw [block₄, if_neg apart, raw]
  obtain ⟨t, written, block⟩ := Store.write_eq raw₄ (.token value token.type)
  have others : ∀ x ∈ blocksOf cells ++ (value :: owned), t.block x = s₂.block x := by
    intro x inside
    have below : x ≠ cell := fun same => nodup.1 (same ▸ List.mem_cons_of_mem _ inside)
    have beside : x ≠ tokens' := fun same => nodup.2.1 (same ▸ inside)
    rw [block, if_neg below, block₄, if_neg beside, kept₃ x (List.mem_cons_of_mem _ inside)]
  refine ⟨t, tokens', cells ++ [⟨cell, value⟩], ?_, ⟨by simp, ?_, ?_⟩, ?_, ?_⟩
  · simp only [push, copied, slotsOf_eq holds₁, moved, made, set, written, Bind.bind, Except.bind]
  · intro _
    rw [block, if_neg (Ne.symm apart), block₄, if_pos rfl, ← length]
    simp
  · have old : List.Forall₂ (Cell.Stored t) cells list := by
      apply stored_frame holds₁.stored
      intro x inside
      exact (others x (List.mem_append_left _ inside)).trans (kept₂ x (List.mem_append_left _ inside))
    have string : t.block value = some (.chars token.value) := by
      have inside : value ∈ blocksOf cells ++ (value :: owned) := by simp
      rw [others value inside, kept₂ value inside, text]
    have new : Cell.Stored t ⟨cell, value⟩ token := ⟨by rw [block, if_pos rfl], string⟩
    exact List.rel_append old (.cons new .nil)
  · apply ((live₃.write array₃ block₄).write raw₄ block).perm
    rw [ownedBy, if_neg (by simp), blocksOf_append]
    apply List.perm_iff_count.mpr
    intro x
    simp only [blocksOf, List.flatMap_cons, List.flatMap_nil, List.count_append, List.count_cons, List.cons_append,
      List.append_nil, List.count_nil]
    omega
  · intro x inside
    have member : x ∈ blocksOf cells ++ (value :: owned) := by simp [inside]
    rw [others x member, kept₂ x member, kept₁ x (List.mem_append_right _ inside)]

section Fetch

variable {src : Str} {u v : Scanner}

def Emits (u v : Scanner) : Prop :=
  v.tokens = u.tokens ∧ v.count = u.count ∨ ∃ token, v.tokens = u.tokens ++ [token] ∧ v.count = u.count + 1

theorem emit_emits {value : Str} {type : TType} (emitted : emit value type u = .ok v) : Emits u v := by
  unfold emit at emitted
  split at emitted
  · cases emitted
  split at emitted
  · cases emitted
  · right
    obtain rfl := Except.ok.inj emitted
    exact ⟨⟨value, type⟩, rfl, rfl⟩

theorem advance_keeps (src : Str) (u : Scanner) :
    (advance src u).tokens = u.tokens ∧ (advance src u).count = u.count := by
  unfold advance
  split <;> exact ⟨rfl, rfl⟩

theorem startCase_keeps (src : Str) (u : Scanner) :
    (startCase src u).tokens = u.tokens ∧ (startCase src u).count = u.count := by
  simp only [startCase]
  split_ifs <;> exact ⟨rfl, rfl⟩

theorem Emits.from {u' : Scanner} (emits : Emits u' v) (same : u'.tokens = u.tokens ∧ u'.count = u.count) :
    Emits u v := by
  rw [Emits, same.1, same.2] at emits
  exact emits

theorem quoteCase_emits {q : Char} (scanned : quoteCase q src u = .ok v) : Emits u v := by
  simp only [quoteCase] at scanned
  split at scanned
  · obtain ⟨n, _, scanned⟩ := bind_ok scanned
    obtain ⟨value, _, scanned⟩ := bind_ok scanned
    exact (emit_emits scanned).from (advance_keeps src _)
  · obtain rfl := Except.ok.inj scanned
    exact .inl (advance_keeps src u)

theorem tokenCase_emits (scanned : tokenCase src u = .ok v) : Emits u v := by
  simp only [tokenCase] at scanned
  split at scanned
  · obtain ⟨n, _, scanned⟩ := bind_ok scanned
    obtain ⟨value, _, scanned⟩ := bind_ok scanned
    exact (emit_emits scanned).from (advance_keeps src _)
  · obtain rfl := Except.ok.inj scanned
    exact .inl (advance_keeps src u)

theorem specialCase_emits (scanned : specialCase src u = .ok v) : Emits u v := by
  obtain ⟨value, _, scanned⟩ := bind_ok scanned
  exact (emit_emits scanned).from ⟨rfl, rfl⟩

theorem scan_emits (scanned : scan src u = .ok v) : Emits u v := by
  unfold scan at scanned
  cases state : u.state with
  | start =>
    simp only [state] at scanned
    obtain rfl := Except.ok.inj scanned
    exact .inl (startCase_keeps src u)
  | dquote =>
    simp only [state] at scanned
    exact quoteCase_emits scanned
  | squote =>
    simp only [state] at scanned
    exact quoteCase_emits scanned
  | token =>
    simp only [state] at scanned
    exact tokenCase_emits scanned
  | special =>
    simp only [state] at scanned
    exact specialCase_emits scanned

structure Built (s : Heap) (owned : List Nat) (f : Fetch) (cells : List Cell) : Prop where
  holds : Holds f.heap f.tokens cells f.scanner.tokens
  live : Live f.heap (ownedBy f.tokens cells ++ owned)
  kept : ∀ x ∈ owned, f.heap.block x = s.block x
  count : f.scanner.count = f.scanner.tokens.length

theorem store_eq {f : Fetch} (malloc : Malloc Block) (built : Built s owned f cells) (emits : Emits f.scanner v) :
    ∃ f' cells', store malloc f v = .ok f' ∧ f'.scanner = v ∧ Built s owned f' cells' := by
  rcases emits with ⟨same, count⟩ | ⟨token, more, count⟩
  · refine ⟨{ f with scanner := v }, cells, ?_, rfl, ⟨same ▸ built.holds, built.live, built.kept, ?_⟩⟩
    · rw [store, same, List.drop_length]
    · show v.count = v.tokens.length
      rw [count, same, built.count]
  · obtain ⟨t, tokens, cells', pushed, holds, live, kept⟩ := push_eq malloc built.holds built.live token
    refine ⟨⟨v, t, tokens⟩, cells', ?_, rfl, ⟨more ▸ holds, live, ?_, ?_⟩⟩
    · rw [store, more, List.drop_left, built.count]
      simp only [pushed, Bind.bind, Except.bind]
    · intro x inside
      exact (kept x inside).trans (built.kept x inside)
    · show v.count = v.tokens.length
      rw [count, more, built.count, List.length_append, List.length_singleton]

theorem fetchLoop_eq (malloc : Malloc Block) {f : Fetch} (built : Built s owned f cells) (fuel : Nat) :
    match whileLoop (scanning src) (scan src) fuel f.scanner with
    | .ok scanner =>
      ∃ f' cells', fetchLoop malloc src fuel f = .ok f' ∧ f'.scanner = scanner ∧ Built s owned f' cells'
    | .error stop => fetchLoop malloc src fuel f = .error (stop.map .scan) := by
  induction fuel generalizing f cells with
  | zero => rfl
  | succ fuel ih =>
    rw [whileLoop, fetchLoop]
    by_cases more : scanning src f.scanner = true
    · rw [if_pos more, if_pos more]
      cases scanned : scan src f.scanner with
      | error e => rfl
      | ok scanner =>
        obtain ⟨f', cells', stored, rfl, built'⟩ := store_eq malloc built (scan_emits scanned)
        have later := ih built'
        simp only [stored, Except.mapError, Bind.bind, Except.bind]
        exact later
    · rw [if_neg more, if_neg more]
      exact ⟨f, cells, rfl, rfl, built⟩

theorem fetch_eq (malloc : Malloc Block) (live : Live s owned) (src : Str) (fuel : Nat) :
    match Tokenise.tokeniseFetch fuel src with
    | .ok (list, count) => count = list.length ∧ ∃ t tokens cells,
        tokeniseFetch malloc fuel s src = .ok (t, tokens, count) ∧ Holds t tokens cells list ∧
        Live t (ownedBy tokens cells ++ owned) ∧ ∀ x ∈ owned, t.block x = s.block x
    | .error stop => tokeniseFetch malloc fuel s src = .error (stop.map .scan) := by
  have built : Built s owned ⟨.init, s, 0⟩ [] :=
    ⟨⟨fun _ => rfl, fun more => absurd rfl more, .nil⟩, live, fun _ _ => rfl, rfl⟩
  have loop := @fetchLoop_eq _ _ _ src malloc _ built fuel
  unfold Tokenise.tokeniseFetch tokeniseFetch
  cases ended : whileLoop (scanning src) (scan src) fuel .init with
  | error stop =>
    simp only [ended] at loop
    rw [loop]
    rfl
  | ok scanner =>
    simp only [ended] at loop
    obtain ⟨f, cells, returned, rfl, built⟩ := loop
    rw [returned]
    exact ⟨built.count, f.heap, f.tokens, cells, rfl, built.holds, built.live, built.kept⟩

end Fetch

theorem freeToken_eq {c : Cell} (stored : c.Stored s token) (live : Live s (c.token :: c.value :: owned)) :
    ∃ t, freeToken s c.token = .ok t ∧ Live t owned ∧ ∀ x ∈ owned, t.block x = s.block x := by
  have nodup := live.nodup
  simp only [List.nodup_cons] at nodup
  have live : Live s (c.value :: c.token :: owned) := live.perm (List.Perm.swap _ _ _)
  obtain ⟨s₁, freed₁, live₁, kept₁⟩ := live.free
  obtain ⟨t, freed, live', kept⟩ := live₁.free
  refine ⟨t, ?_, live', ?_⟩
  · simp only [freeToken, if_neg (Store.ne_zero stored.1), loadToken_eq stored.1, freed₁, freed, Bind.bind, Except.bind]
  · intro x inside
    rw [kept, kept₁]
    · rintro rfl
      exact nodup.2.1 inside
    · rintro rfl
      exact nodup.1 (List.mem_cons_of_mem _ inside)

theorem freeTokens_eq {done : List Nat} (array : s.block tokens = some (.pointers (done ++ cells.map Cell.token)))
    (stored : List.Forall₂ (Cell.Stored s) cells list) (live : Live s (blocksOf cells ++ tokens :: owned)) :
    ∃ t, freeTokens s tokens done.length cells.length = .ok t ∧ Live t (tokens :: owned) ∧
      ∀ x ∈ owned, t.block x = s.block x := by
  induction cells generalizing s list done with
  | nil => exact ⟨s, rfl, live, fun _ _ => rfl⟩
  | cons c cells ih =>
    cases stored with
    | cons first rest =>
    obtain ⟨s₁, freed, live₁, kept⟩ := freeToken_eq first live
    have array₁ : s₁.block tokens = some (.pointers ((done ++ [c.token]) ++ cells.map Cell.token)) := by
      rw [kept tokens (by simp), array]
      simp
    have rest₁ := stored_frame rest fun x inside => kept x (List.mem_append_left _ inside)
    obtain ⟨t, freed', live', kept'⟩ := ih array₁ rest₁ live₁
    rw [List.length_append, List.length_singleton] at freed'
    have here : slot s tokens done.length = .ok c.token := slot_eq array (by simp)
    refine ⟨t, ?_, live', ?_⟩
    · simp only [freeTokens, List.length_cons, here, freed, Bind.bind, Except.bind]
      exact freed'
    · intro x inside
      rw [kept' x inside, kept x (List.mem_append_right _ (List.mem_cons_of_mem _ inside))]

theorem tokeniseFree_eq (holds : Holds s tokens cells list) (live : Live s (ownedBy tokens cells ++ owned)) :
    ∃ t, tokeniseFree s tokens list.length = .ok t ∧ Live t owned ∧ ∀ x ∈ owned, t.block x = s.block x := by
  by_cases none : cells = []
  · subst none
    exact ⟨s, by rw [tokeniseFree, if_pos (holds.null rfl)], live, fun _ _ => rfl⟩
  · have array := holds.slots none
    rw [ownedBy, if_neg none] at live
    have live : Live s (blocksOf cells ++ tokens :: owned) := live.perm List.perm_middle.symm
    obtain ⟨s₁, freed₁, live₁, kept₁⟩ := @freeTokens_eq _ _ _ _ _ [] array holds.stored live
    obtain ⟨t, freed, live', kept⟩ := live₁.free
    refine ⟨t, ?_, live', ?_⟩
    · rw [tokeniseFree, if_neg (Store.ne_zero array), ← holds.stored.length_eq]
      have freed₁ : freeTokens s tokens 0 cells.length = .ok s₁ := freed₁
      simp only [freed₁, Bind.bind, Except.bind]
      exact freed
    · intro x inside
      rw [kept, kept₁ x inside]
      rintro rfl
      exact (List.nodup_cons.mp live₁.nodup).1 inside

/-- Whatever line is tokenised, with any `malloc` that does not fail: `tokenise_fetch` never touches memory that is
    not its own, ends or hangs as the scanner does, and `tokenise_free` frees all that it has allocated, each
    block once. -/
theorem fetch_free_balance (malloc : Malloc Block) (live : Live s owned) (src : Str) (fuel : Nat) :
    match Tokenise.tokeniseFetch fuel src with
    | .ok (list, count) => ∃ t u tokens cells, tokeniseFetch malloc fuel s src = .ok (t, tokens, count) ∧
        Holds t tokens cells list ∧ Live t (ownedBy tokens cells ++ owned) ∧
        tokeniseFree t tokens count = .ok u ∧ Live u owned ∧
        ∀ x ∈ owned, t.block x = s.block x ∧ u.block x = s.block x
    | .error stop => tokeniseFetch malloc fuel s src = .error (stop.map .scan) := by
  have fetched := fetch_eq malloc live src fuel
  cases returned : Tokenise.tokeniseFetch fuel src with
  | error stop =>
    simp only [returned] at fetched
    exact fetched
  | ok result =>
    obtain ⟨list, count⟩ := result
    simp only [returned] at fetched
    obtain ⟨rfl, t, tokens, cells, fetches, holds, live', kept⟩ := fetched
    obtain ⟨u, freed, live'', kept'⟩ := tokeniseFree_eq holds live'
    refine ⟨t, u, tokens, cells, fetches, holds, live', freed, live'', ?_⟩
    intro x inside
    exact ⟨kept x inside, (kept' x inside).trans (kept x inside)⟩

def beside : Heap × Nat := Malloc.lowest.alloc .empty (.chars ['x'])

theorem fetch_free_balance_setting : ∃ t u tokens cells,
    tokeniseFetch .lowest 20 beside.1 "a=b".toList = .ok (t, tokens, 3) ∧
    Holds t tokens cells [⟨['a'], .arg⟩, ⟨['='], .assign⟩, ⟨['b'], .arg⟩] ∧
    Live t (ownedBy tokens cells ++ [beside.2]) ∧ tokeniseFree t tokens 3 = .ok u ∧ Live u [beside.2] ∧
    ∀ x ∈ [beside.2], t.block x = beside.1.block x ∧ u.block x = beside.1.block x := by
  have balance := fetch_free_balance .lowest (Live.empty.alloc .lowest (.chars ['x'])) "a=b".toList 20
  have returned : Tokenise.tokeniseFetch 20 "a=b".toList =
      .ok ([⟨['a'], .arg⟩, ⟨['='], .assign⟩, ⟨['b'], .arg⟩], 3) := by decide
  simp only [returned] at balance
  exact balance

end OS2.Tokenise.Vector
