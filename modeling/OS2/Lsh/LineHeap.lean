import OS2.Lsh.Parse
import OS2.Tokenise.Vector
import Mathlib.Algebra.Ring.Nat

namespace OS2.Lsh.LineHeap

open OS2.Text OS2.Loop OS2.Memory OS2.Tokenise OS2.Tokenise.Vector

inductive Fault where
  | line (e : Lsh.Fault)
  | memory (e : Misuse)
  deriving DecidableEq, Repr

/-- The shell with the blocks of its tokens and argument vectors. -/
structure State where
  heap : Heap
  shell : Shell

def lift {α : Type} (x : Except (Stop Misuse) α) : Except (Stop Fault) α := x.mapError (Stop.map .memory)

def fetch (malloc : Malloc Block) (fuel : Nat) (s : Heap) (cmd : Str) : Except (Stop Fault) (Heap × Nat × Nat) :=
  (Vector.tokeniseFetch malloc fuel s cmd).mapError (Stop.map fun
    | .scan e => .line (.tokenise e)
    | .memory e => .memory e)

def tokenValue (s : Heap) (tokens i : Nat) : Except (Stop Misuse) Str := do
  let token ← slot s tokens i
  let (value, _) ← loadToken s token
  loadChars s value

def copyArgs (malloc : Malloc Block) (s : Heap) (tokens argv i : Nat) : Nat → Except (Stop Misuse) Heap
  | 0 => .ok s
  | left + 1 => do
    let text ← tokenValue s tokens i
    let (s, copy) := malloc.alloc s (.chars text)
    let s ← setSlot s argv i copy
    copyArgs malloc s tokens argv (i + 1) left

def loadArg (s : Heap) (a : Nat) : Except (Stop Misuse) (Option Str) :=
  if a = 0 then .ok none else (loadChars s a).map some

def loadArgs (s : Heap) : List Nat → Except (Stop Misuse) (List (Option Str))
  | [] => .ok []
  | a :: slots => do
    let arg ← loadArg s a
    let args ← loadArgs s slots
    .ok (arg :: args)

def freeArgs (s : Heap) (argv i : Nat) : Nat → Except (Stop Misuse) Heap
  | 0 => .ok s
  | left + 1 => do
    let a ← slot s argv i
    let s ← s.free a
    freeArgs s argv (i + 1) left

/-- The end of `dispatch`, which is not reached where `halt` was called. -/
def release (h : State) (argv argc : Nat) : Except (Stop Fault) State :=
  if h.shell.running then do
    let s ← lift (freeArgs h.heap argv 0 argc)
    let s ← lift (s.free argv)
    .ok { h with heap := s }
  else .ok h

def dispatch (malloc : Malloc Block) (fuel : Nat) (h : State) (cmd : Str) : Except (Stop Fault) State :=
  if cmd = [] then .ok h
  else do
    let (s, tokens, argc) ← fetch malloc fuel h.heap cmd
    let (s, argv) := malloc.alloc s (.pointers (List.replicate (argc + 1) 0))
    let s ← lift (copyArgs malloc s tokens argv 0 argc)
    let s ← lift (setSlot s argv argc 0)
    let slots ← lift (loadPointers s argv)
    let args ← lift (loadArgs s slots)
    let shell ← (runCommand h.shell argc args).mapError fun e => .fault (.line e)
    release ⟨s, shell⟩ argv argc

def assign (malloc : Malloc Block) (fuel : Nat) (h : State) (cmd : Str) : Except (Stop Fault) State := do
  let (s, tokens, count) ← fetch malloc fuel h.heap cmd
  let name ← lift (tokenValue s tokens 0)
  let value ← lift (tokenValue s tokens 2)
  let shell ← (h.shell.set name (.var value)).mapError fun e => .fault (.line e)
  let s ← lift (tokeniseFree s tokens count)
  .ok ⟨s, shell⟩

def parse (malloc : Malloc Block) (fuel : Nat) (below : Char) (h : State) (line : Str) : Except (Stop Fault) State :=
  match trimLine below line with
  | none => .error (.fault (.line .underrun))
  | some cmd => if assignment.search cmd then assign malloc fuel h cmd else dispatch malloc fuel h cmd

def repl (fuel : Nat) (below : Char) (h : State) : List (Malloc Block × Str) → Except (Stop Fault) State
  | [] => .ok h
  | (malloc, line) :: lines =>
    if h.shell.running then do
      let h ← parse malloc fuel below h line
      repl fuel below h lines
    else .error (.fault (.line .exited))

def Copied (s : Heap) (a : Nat) (token : Token) : Prop := s.block a = some (.chars token.value)

variable {s t : Heap} {tokens argv fuel : Nat} {cells left : List Cell} {list list' : List Token}
  {copies owned : List Nat} {malloc : Malloc Block} {token : Token} {below : Char} {cmd line : Str}
  {shell shell' : Shell}

theorem copied_frame (copied : List.Forall₂ (Copied s) copies list) (same : ∀ x ∈ copies, t.block x = s.block x) :
    List.Forall₂ (Copied t) copies list := by
  induction copied with
  | nil => exact .nil
  | @cons a token copies list first rest ih =>
    have first : Copied t a token := (same a List.mem_cons_self).trans first
    exact .cons first (ih fun x inside => same x (List.mem_cons_of_mem _ inside))

theorem tokenValue_eq {i : Nat} {c : Cell} (array : s.block tokens = some (.pointers (cells.map Cell.token)))
    (here : cells[i]? = some c) (stored : c.Stored s token) : tokenValue s tokens i = .ok token.value := by
  have slot : slot s tokens i = .ok c.token := slot_eq array (by simp [here])
  simp only [tokenValue, slot, loadToken_eq stored.1, loadChars_eq stored.2, Bind.bind, Except.bind]

theorem loadArgs_eq (copied : List.Forall₂ (Copied s) copies list) :
    loadArgs s (copies ++ [0]) = .ok (argvOf list) := by
  induction copied with
  | nil => rfl
  | @cons a token copies list first rest ih =>
    have first : s.block a = some (.chars token.value) := first
    simp only [List.cons_append, loadArgs, loadArg, if_neg (Store.ne_zero first), loadChars_eq first, ih, Except.map,
      Bind.bind, Except.bind]
    rfl

theorem freeArgs_eq {done : List Nat} (array : s.block argv = some (.pointers (done ++ (copies ++ [0]))))
    (live : Live s (copies ++ argv :: owned)) :
    ∃ t, freeArgs s argv done.length copies.length = .ok t ∧ Live t (argv :: owned) ∧
      ∀ x ∈ owned, t.block x = s.block x := by
  induction copies generalizing s done with
  | nil => exact ⟨s, rfl, live, fun _ _ => rfl⟩
  | cons a copies ih =>
    obtain ⟨s₁, freed, live₁, kept⟩ := live.free
    have other : argv ≠ a := by
      rintro rfl
      exact (List.nodup_cons.mp live.nodup).1 (by simp)
    have array₁ : s₁.block argv = some (.pointers ((done ++ [a]) ++ (copies ++ [0]))) := by
      rw [kept argv other, array]
      simp
    obtain ⟨t, freed', live', kept'⟩ := ih array₁ live₁
    rw [List.length_append, List.length_singleton] at freed'
    have here : slot s argv done.length = .ok a := slot_eq array (by simp)
    refine ⟨t, ?_, live', ?_⟩
    · simp only [freeArgs, List.length_cons, here, freed, Bind.bind, Except.bind]
      exact freed'
    · intro x inside
      rw [kept' x inside, kept]
      rintro rfl
      exact (List.nodup_cons.mp live.nodup).1 (by simp [inside])

theorem forall₂_get {α β : Type} {r : α → β → Prop} {xs : List α} {ys : List β} (all : List.Forall₂ r xs ys) {i : Nat}
    {y : β} (here : ys[i]? = some y) : ∃ x, xs[i]? = some x ∧ r x y := by
  obtain ⟨bound, rfl⟩ := List.getElem?_eq_some_iff.mp here
  have bound' : i < xs.length := all.length_eq ▸ bound
  exact ⟨xs[i], List.getElem?_eq_getElem bound', all.get bound' bound⟩

structure Copying (before s : Heap) (tokens argv : Nat) (cells : List Cell) (list : List Token) (owned : List Nat)
    (i left : Nat) (copies : List Nat) : Prop where
  holds : Vector.Holds s tokens cells list
  array : s.block argv = some (.pointers (copies ++ List.replicate (left + 1) 0))
  copied : List.Forall₂ (Copied s) copies (list.take i)
  live : Live s (copies ++ argv :: (ownedBy tokens cells ++ owned))
  kept : ∀ x ∈ owned, s.block x = before.block x

theorem Copying.step {before : Heap} {i left : Nat}
    (copying : Copying before s tokens argv cells list owned i (left + 1) copies)
    (total : i + (left + 1) = list.length) (malloc : Malloc Block) :
    ∃ token t u a, list[i]? = some token ∧ tokenValue s tokens i = .ok token.value ∧
      malloc.alloc s (.chars token.value) = (t, a) ∧ setSlot t argv i a = .ok u ∧
      Copying before u tokens argv cells list owned (i + 1) left (copies ++ [a]) := by
  have inside : i < list.length := by omega
  have here : list[i]? = some list[i] := List.getElem?_eq_getElem inside
  obtain ⟨c, cell, stored⟩ := forall₂_get copying.holds.stored here
  have some' : cells ≠ [] := by
    rintro rfl
    cases cell
  have value := tokenValue_eq (copying.holds.slots some') cell stored
  have length : copies.length = i := by
    rw [copying.copied.length_eq, List.length_take]
    omega
  have live := copying.live.alloc malloc (.chars list[i].value)
  have kept := fun x inside => @Live.alloc_kept _ s x _ copying.live malloc (.chars list[i].value) inside
  have text := malloc.alloc_block s (.chars list[i].value) (malloc.alloc s (.chars list[i].value)).2
  rw [if_pos rfl] at text
  generalize made : malloc.alloc s (.chars list[i].value) = pair at live kept text
  obtain ⟨t, a⟩ := pair
  have array := (kept argv (by simp)).trans copying.array
  obtain ⟨u, set, block⟩ := @setSlot_eq _ _ _ i array (by simp [length]) a
  have nodup := live.nodup
  rw [List.nodup_cons, List.nodup_middle, List.nodup_cons] at nodup
  have same : ∀ x ∈ copies ++ (ownedBy tokens cells ++ owned), u.block x = s.block x := by
    intro x member
    rw [block, if_neg, kept x]
    · rw [List.mem_append] at member ⊢
      exact member.imp_right fun later => List.mem_cons_of_mem _ later
    · rintro rfl
      exact nodup.2.1 member
  have new : u.block a = some (.chars list[i].value) := by
    rw [block, if_neg, text]
    rintro rfl
    exact nodup.1 (by simp)
  refine ⟨list[i], t, u, a, here, value, made, set, ?_, ?_, ?_, ?_, ?_⟩
  · apply copying.holds.frame
    intro x member
    exact same x (List.mem_append_right _ (List.mem_append_left _ member))
  · rw [block, if_pos rfl]
    congr 2
    rw [← length]
    simp [List.replicate_succ]
  · rw [List.take_add_one, here]
    apply List.rel_append
    · exact copied_frame copying.copied fun x member => same x (List.mem_append_left _ member)
    · exact .cons new .nil
  · apply (live.write array block).perm
    rw [List.append_assoc]
    exact List.perm_middle.symm
  · intro x inside
    rw [same x (List.mem_append_right _ (List.mem_append_right _ inside)), copying.kept x inside]

theorem copyArgs_eq {before : Heap} {i left : Nat}
    (copying : Copying before s tokens argv cells list owned i left copies)
    (total : i + left = list.length) (malloc : Malloc Block) :
    ∃ t copies', copyArgs malloc s tokens argv i left = .ok t ∧
      Copying before t tokens argv cells list owned list.length 0 copies' := by
  induction left generalizing s i copies with
  | zero =>
    obtain rfl : i = list.length := total
    exact ⟨s, copies, rfl, copying⟩
  | succ left ih =>
    obtain ⟨token, t, u, a, _, value, made, set, next⟩ := copying.step total malloc
    obtain ⟨v, copies', returned, final⟩ := ih next (by omega)
    refine ⟨v, copies', ?_, final⟩
    simp only [copyArgs, value, made, set, Bind.bind, Except.bind]
    exact returned

theorem fetch_ok {result : List Token × Nat} (live : Live s owned) (malloc : Malloc Block)
    (fetched : Lsh.fetch fuel cmd = .ok result) : result.2 = result.1.length ∧ ∃ t tokens cells,
      fetch malloc fuel s cmd = .ok (t, tokens, result.2) ∧ Vector.Holds t tokens cells result.1 ∧
      Live t (ownedBy tokens cells ++ owned) ∧ ∀ x ∈ owned, t.block x = s.block x := by
  have both := fetch_eq malloc live cmd fuel
  rw [Lsh.fetch] at fetched
  cases returned : Tokenise.tokeniseFetch fuel cmd with
  | error stop =>
    rw [returned] at fetched
    cases fetched
  | ok pair =>
    rw [returned] at fetched
    obtain rfl : pair = result := Except.ok.inj fetched
    obtain ⟨list, count⟩ := pair
    simp only [returned] at both
    obtain ⟨length, t, tokens, cells, fetches, holds, live', kept⟩ := both
    refine ⟨length, t, tokens, cells, ?_, holds, live', kept⟩
    rw [fetch, fetches]
    rfl

structure TokenVector where
  tokens : Nat
  cells : List Cell

def blocks (vectors : List TokenVector) : List Nat := vectors.flatMap fun v => ownedBy v.tokens v.cells

/-- The blocks of `vectors` hold the lists of tokens, and no other is beside those in `owned`, which are as they
    were in `s`. -/
structure Left (s t : Heap) (owned : List Nat) (vectors : List TokenVector) (lists : List (List Token)) : Prop where
  holds : List.Forall₂ (fun v list => Vector.Holds t v.tokens v.cells list) vectors lists
  live : Live t (blocks vectors ++ owned)
  kept : ∀ x ∈ owned, t.block x = s.block x

theorem blocks_append (first second : List TokenVector) : blocks (first ++ second) = blocks first ++ blocks second :=
  List.flatMap_append

theorem holds_frame {vectors : List TokenVector} {lists : List (List Token)}
    (holds : List.Forall₂ (fun v list => Vector.Holds s v.tokens v.cells list) vectors lists)
    (same : ∀ x ∈ blocks vectors, t.block x = s.block x) :
    List.Forall₂ (fun v list => Vector.Holds t v.tokens v.cells list) vectors lists := by
  induction holds with
  | nil => exact .nil
  | cons first rest ih =>
    apply List.Forall₂.cons
    · apply first.frame
      intro x inside
      exact same x (List.mem_append_left _ inside)
    · apply ih
      intro x inside
      exact same x (List.mem_append_right _ inside)

theorem Left.trans {u : Heap} {first second : List TokenVector} {lists lists' : List (List Token)}
    (left : Left s t owned first lists) (later : Left t u (blocks first ++ owned) second lists') :
    Left s u owned (first ++ second) (lists ++ lists') := by
  refine ⟨List.rel_append ?_ later.holds, ?_, ?_⟩
  · apply holds_frame left.holds
    intro x inside
    exact later.kept x (List.mem_append_left _ inside)
  · apply later.live.perm
    rw [blocks_append, ← List.append_assoc]
    exact List.perm_append_comm.append_right owned
  · intro x inside
    rw [later.kept x (List.mem_append_right _ inside), left.kept x inside]

def leftOf (cmd : Str) : List (List Token) := if cmd = [] then [] else [fetched cmd]

theorem dispatch_eq (free : NulFree cmd) (live : Live s owned) (malloc : Malloc Block)
    (returns : Lsh.dispatch fuel shell cmd = .ok shell') :
    ∃ t vectors, dispatch malloc fuel ⟨s, shell⟩ cmd = .ok ⟨t, shell'⟩ ∧
      (shell'.running = true → Left s t owned vectors (leftOf cmd)) := by
  rw [Lsh.dispatch] at returns
  by_cases empty : cmd = []
  · rw [if_pos empty] at returns
    obtain rfl := Except.ok.inj returns
    refine ⟨s, [], if_pos empty, ?_⟩
    intro _
    rw [leftOf, if_pos empty]
    exact ⟨.nil, live, fun _ _ => rfl⟩
  rw [if_neg empty] at returns
  obtain ⟨result, returned, ran⟩ := bind_ok returns
  obtain ⟨_, result_eq⟩ := Lsh.fetch_ok free returned
  obtain ⟨length, t, tokens, cells, fetches, holds, live₁, kept₁⟩ := fetch_ok live malloc returned
  obtain ⟨list, argc⟩ := result
  obtain rfl : argc = list.length := length
  have tokens_eq : list = fetched cmd := congrArg Prod.fst result_eq
  have lists : leftOf cmd = [list] := by rw [leftOf, if_neg empty, tokens_eq]
  have ran : runCommand shell list.length (argvOf list) = .ok shell' := by
    cases run : runCommand shell list.length (argvOf list) with
    | error e => simp only [run, Except.mapError] at ran; cases ran
    | ok shell'' => simp only [run, Except.mapError] at ran; rw [Except.ok.inj ran]
  have live₂ := live₁.alloc malloc (.pointers (List.replicate (list.length + 1) 0))
  have kept := fun x inside =>
    @Live.alloc_kept _ t x _ live₁ malloc (.pointers (List.replicate (list.length + 1) 0)) inside
  have array := malloc.alloc_block t (.pointers (List.replicate (list.length + 1) 0))
    (malloc.alloc t (.pointers (List.replicate (list.length + 1) 0))).2
  rw [if_pos rfl] at array
  generalize made : malloc.alloc t (.pointers (List.replicate (list.length + 1) 0)) = pair at live₂ kept array
  obtain ⟨u, argv⟩ := pair
  have first : Copying t u tokens argv cells list owned 0 list.length [] :=
    ⟨holds.frame fun x inside => kept x (List.mem_append_left _ inside), array, .nil, live₂,
      fun x inside => kept x (List.mem_append_right _ inside)⟩
  obtain ⟨v, copies, filled, copying⟩ := copyArgs_eq first (Nat.zero_add _) malloc
  have length : copies.length = list.length := by
    rw [copying.copied.length_eq, List.take_length]
  obtain ⟨w, ended, block⟩ := @setSlot_eq _ _ _ list.length copying.array (by simp [length]) 0
  have slots : w.block argv = some (.pointers (copies ++ [0])) := by
    rw [block, if_pos rfl, ← length]
    simp
  have live₃ := copying.live.write copying.array block
  have nodup := live₃.nodup
  rw [List.nodup_middle, List.nodup_cons] at nodup
  have copied : List.Forall₂ (Copied w) copies list := by
    rw [← List.take_length (l := list)]
    apply copied_frame copying.copied
    intro x inside
    rw [block, if_neg]
    rintro rfl
    exact nodup.1 (List.mem_append_left _ inside)
  have started : dispatch malloc fuel ⟨s, shell⟩ cmd = release ⟨w, shell'⟩ argv list.length := by
    simp only [dispatch, if_neg empty, fetches, made, filled, ended, loadPointers_eq slots, loadArgs_eq copied, ran,
      lift, Except.mapError, Bind.bind, Except.bind]
  by_cases running : shell'.running = true
  · obtain ⟨x, freed, live₄, kept₄⟩ := @freeArgs_eq _ _ _ _ [] slots live₃
    have freed : freeArgs w argv 0 list.length = .ok x := length ▸ freed
    obtain ⟨y, freed', live₅, kept₅⟩ := live₄.free
    have same : ∀ a ∈ ownedBy tokens cells ++ owned, y.block a = v.block a := by
      intro a inside
      rw [kept₅, kept₄ a inside, block, if_neg]
      · rintro rfl
        exact nodup.1 (List.mem_append_right _ inside)
      · rintro rfl
        exact (List.nodup_cons.mp live₄.nodup).1 inside
    refine ⟨y, [⟨tokens, cells⟩], ?_, fun _ => ⟨?_, ?_, ?_⟩⟩
    · rw [started, release, if_pos running]
      simp only [freed, freed', lift, Except.mapError, Bind.bind, Except.bind]
    · rw [lists]
      refine .cons ?_ .nil
      exact copying.holds.frame fun a inside => same a (List.mem_append_left _ inside)
    · simpa [blocks] using live₅
    · intro a inside
      rw [same a (List.mem_append_right _ inside), copying.kept a inside, kept₁ a inside]
  · refine ⟨w, [], ?_, fun alive => absurd alive running⟩
    rw [started, release, if_neg running]

theorem assign_eq (live : Live s owned) (malloc : Malloc Block) (returns : Lsh.assign fuel shell cmd = .ok shell') :
    ∃ t, assign malloc fuel ⟨s, shell⟩ cmd = .ok ⟨t, shell'⟩ ∧ Live t owned ∧ ∀ x ∈ owned, t.block x = s.block x := by
  obtain ⟨result, fetched, set⟩ := bind_ok returns
  obtain ⟨length, t, tokens, cells, fetches, holds, live₁, kept⟩ := fetch_ok live malloc fetched
  obtain ⟨list, count⟩ := result
  obtain rfl : count = list.length := length
  cases name : list[0]? with
  | none => simp only [name] at set; cases set
  | some first =>
    cases value : list[2]? with
    | none => simp only [name, value] at set; cases set
    | some third =>
      simp only [name, value] at set
      have sets : shell.set first.value (.var third.value) = .ok shell' := by
        cases sets : shell.set first.value (.var third.value) <;> rw [sets] at set <;> cases set
        rfl
      obtain ⟨c, cell, stored⟩ := forall₂_get holds.stored name
      obtain ⟨c', cell', stored'⟩ := forall₂_get holds.stored value
      have some' : cells ≠ [] := by
        rintro rfl
        cases cell
      have array := holds.slots some'
      obtain ⟨u, freed, live₂, kept₂⟩ := tokeniseFree_eq holds live₁
      refine ⟨u, ?_, live₂, ?_⟩
      · simp only [assign, fetches, tokenValue_eq array cell stored, tokenValue_eq array cell' stored', sets, freed,
          lift, Except.mapError, Bind.bind, Except.bind]
      · intro x inside
        rw [kept₂ x inside, kept x inside]

def leaksOf (below : Char) (line : Str) : List (List Token) :=
  match trimLine below line with
  | some cmd => if assignment.search cmd then [] else leftOf cmd
  | none => []

theorem parse_eq (live : Live s owned) (malloc : Malloc Block)
    (returns : Lsh.parse fuel below shell line = .ok shell') :
    ∃ t vectors, parse malloc fuel below ⟨s, shell⟩ line = .ok ⟨t, shell'⟩ ∧
      (shell'.running = true → Left s t owned vectors (leaksOf below line)) := by
  rw [Lsh.parse] at returns
  cases trimmed : trimLine below line with
  | none => simp only [trimmed] at returns; cases returns
  | some cmd =>
    have free : NulFree cmd := by
      rw [trimLine_some trimmed]
      exact nulFree_strip (cstr_terminated line).1
    simp only [trimmed] at returns
    simp only [parse, leaksOf, trimmed]
    split at returns
    · rename_i setting
      obtain ⟨t, assigned, live', kept⟩ := assign_eq live malloc returns
      rw [if_pos setting, if_pos setting]
      exact ⟨t, [], assigned, fun _ => ⟨.nil, live', kept⟩⟩
    · rename_i command
      rw [if_neg command, if_neg command]
      exact dispatch_eq free live malloc returns

theorem repl_running {lines : List Str} (returns : Lsh.repl fuel below shell lines = .ok shell')
    (alive : shell'.running = true) : shell.running = true := by
  cases lines with
  | nil => exact Except.ok.inj returns ▸ alive
  | cons line lines =>
    by_contra stopped
    rw [Lsh.repl, if_neg stopped] at returns
    cases returns

theorem repl_eq (live : Live s owned) (lines : List (Malloc Block × Str))
    (returns : Lsh.repl fuel below shell (lines.map Prod.snd) = .ok shell') (alive : shell'.running = true) :
    ∃ t vectors, repl fuel below ⟨s, shell⟩ lines = .ok ⟨t, shell'⟩ ∧
      Left s t owned vectors (lines.flatMap fun line => leaksOf below line.2) := by
  induction lines generalizing s shell owned with
  | nil =>
    obtain rfl := Except.ok.inj returns
    exact ⟨s, [], rfl, .nil, live, fun _ _ => rfl⟩
  | cons line lines ih =>
    obtain ⟨malloc, line⟩ := line
    simp only [List.map_cons, Lsh.repl] at returns
    by_cases running : shell.running = true
    · rw [if_pos running] at returns
      obtain ⟨shell₁, parsed, rest⟩ := bind_ok returns
      obtain ⟨t, vectors, parses, leaves⟩ := parse_eq live malloc parsed
      have left := leaves (repl_running rest alive)
      obtain ⟨u, vectors', returned, later⟩ := ih left.live rest
      refine ⟨u, vectors ++ vectors', ?_, left.trans later⟩
      simp only [repl, running, if_true, parses, Bind.bind, Except.bind]
      exact returned
    · rw [if_neg running] at returns
      cases returns

/-- In any session of the shell, where `malloc` does not fail, no line touches or frees a block that is not
    allocated, and what is left of the blocks for tokens and argument vectors is exactly the tokens of the
    commands, line by line: `dispatch` never frees them, and a setting frees its own. -/
theorem session_leaks (fuel : Nat) (below : Char) (lines : List (Malloc Block × Str))
    (returns : Lsh.repl fuel below init (lines.map Prod.snd) = .ok shell) (alive : shell.running = true) :
    ∃ s vectors, repl fuel below ⟨.empty, init⟩ lines = .ok ⟨s, shell⟩ ∧ Live s (blocks vectors) ∧
      List.Forall₂ (fun v list => Vector.Holds s v.tokens v.cells list) vectors
        (lines.flatMap fun line => leaksOf below line.2) := by
  obtain ⟨s, vectors, returned, left⟩ := repl_eq .empty lines returns alive
  have live := left.live
  rw [List.append_nil] at live
  exact ⟨s, vectors, returned, live, left.holds⟩

theorem session_leaks_cd : ∃ s vectors shell, repl 60 NUL ⟨.empty, init⟩
    [(.lowest, "a=b\n".toList), (.lowest, "cd /\n".toList)] = .ok ⟨s, shell⟩ ∧ Live s (blocks vectors) ∧
    List.Forall₂ (fun v list => Vector.Holds s v.tokens v.cells list) vectors
      [[⟨"cd".toList, .arg⟩, ⟨['/'], .arg⟩]] := by
  have runs : (Lsh.repl 60 NUL init ["a=b\n".toList, "cd /\n".toList]).map Shell.running = .ok true := by decide
  cases returns : Lsh.repl 60 NUL init ["a=b\n".toList, "cd /\n".toList] with
  | error stop =>
    rw [returns] at runs
    cases runs
  | ok shell =>
  rw [returns] at runs
  have alive : shell.running = true := Except.ok.inj runs
  obtain ⟨s, vectors, returned, live, holds⟩ :=
    session_leaks 60 NUL [(.lowest, "a=b\n".toList), (.lowest, "cd /\n".toList)] returns alive
  have lists : ([(.lowest, "a=b\n".toList), (.lowest, "cd /\n".toList)] : List (Malloc Block × Str)).flatMap
      (fun line => leaksOf NUL line.2) = [[⟨"cd".toList, .arg⟩, ⟨['/'], .arg⟩]] := by decide +kernel
  rw [lists] at holds
  exact ⟨s, vectors, shell, returned, live, holds⟩

end OS2.Lsh.LineHeap
