import OS2.Memory.Linked
import OS2.Symtab.Refinement

namespace OS2.Symtab.Nodes

open OS2.Text OS2.Loop OS2.Memory

inductive Value (H : Type) where
  | null
  | code (h : H)
  | block (a : Nat)
  deriving DecidableEq, Repr

structure Node (H : Type) where
  name : Nat
  value : Value H
  type : SType
  next : Nat
  deriving DecidableEq, Repr

inductive Block (H : Type) where
  | node (node : Node H)
  | chars (s : Str)
  deriving DecidableEq, Repr

inductive Assign (H : Type) where
  | var (s : Str)
  | internal (h : H)
  deriving DecidableEq, Repr

abbrev Heap (H : Type) := Store (Block H)

variable {H : Type}

def Assign.type : Assign H → SType
  | .var _ => .var
  | .internal _ => .internal

def loadNode (s : Heap H) (a : Nat) : Except (Stop Misuse) (Node H) := do
  match ← s.load a with
  | .node node => .ok node
  | .chars _ => .error (.fault .access)

def loadChars (s : Heap H) (a : Nat) : Except (Stop Misuse) Str := do
  match ← s.load a with
  | .chars text => .ok text
  | .node _ => .error (.fault .access)

def freeValue (s : Heap H) : Value H → Except (Stop Misuse) (Heap H)
  | .null => .ok s
  | .code _ => .error (.fault .free)
  | .block a => s.free a

def symtabLookup (s : Heap H) (name : Str) : Nat → Nat → Except (Stop Misuse) Nat
  | 0, _ => .error .fuel
  | fuel + 1, symbol =>
    if symbol = 0 then .ok 0
    else do
      let node ← loadNode s symbol
      let text ← loadChars s node.name
      if text = name then .ok symbol else symtabLookup s name fuel node.next

/-- The new node of `symtab_set`; `junk` is what the memory that `malloc` returns holds. -/
def enter (malloc : Malloc (Block H)) (junk : Node H) (s : Heap H) (symtab : Nat) (name : Str) :
    Except (Stop Misuse) (Heap H × Nat) := do
  let (s, symbol) := malloc.alloc s (.node junk)
  let (s, copy) := malloc.alloc s (.chars name)
  let node ← loadNode s symbol
  let s ← s.write symbol (.node { node with name := copy, next := symtab, value := .null })
  .ok (s, symbol)

def copyIn (malloc : Malloc (Block H)) (s : Heap H) : Assign H → Heap H × Value H
  | .var text => ((malloc.alloc s (.chars text)).1, .block (malloc.alloc s (.chars text)).2)
  | .internal h => (s, .code h)

/-- The rest of `symtab_set`: the old value is freed, `free(NULL)` being as good as no call. -/
def assign (s : Heap H) (symbol : Nat) (type : SType) (value : Value H) : Except (Stop Misuse) (Heap H) := do
  let node ← loadNode s symbol
  let s ← freeValue s node.value
  let node ← loadNode s symbol
  s.write symbol (.node { node with type := type, value := value })

def symtabSet (malloc : Malloc (Block H)) (junk : Node H) (fuel : Nat) (s : Heap H) (symtab : Nat) (name : Str)
    (setting : Assign H) : Except (Stop Misuse) (Heap H × Nat) := do
  let symbol ← symtabLookup s name fuel symtab
  if symbol = 0 then
    let (s, symbol) ← enter malloc junk s symtab name
    let (s, value) := copyIn malloc s setting
    let s ← assign s symbol setting.type value
    .ok (s, symbol)
  else
    let (s, value) := copyIn malloc s setting
    let s ← assign s symbol setting.type value
    .ok (s, symtab)

/-- What `symtab_remove` does at the node of that name; only the node is freed. -/
def unlink (s : Heap H) (symtab symbol prev : Nat) : Except (Stop Misuse) (Heap H × Nat) := do
  let node ← loadNode s symbol
  if prev ≠ 0 then
    let before ← loadNode s prev
    let s ← s.write prev (.node { before with next := node.next })
    let s ← s.free symbol
    .ok (s, symtab)
  else
    let s ← s.free symbol
    .ok (s, node.next)

def removeFrom (s : Heap H) (symtab : Nat) (name : Str) : Nat → Nat → Nat → Except (Stop Misuse) (Heap H × Nat)
  | 0, _, _ => .error .fuel
  | fuel + 1, symbol, prev =>
    if symbol = 0 then .ok (s, symtab)
    else do
      let node ← loadNode s symbol
      let text ← loadChars s node.name
      if text = name then unlink s symtab symbol prev else removeFrom s symtab name fuel node.next symbol

def symtabRemove (fuel : Nat) (s : Heap H) (symtab : Nat) (name : Str) : Except (Stop Misuse) (Heap H × Nat) :=
  removeFrom s symtab name fuel symtab 0

def symtabFetch (fuel : Nat) (s : Heap H) (symtab : Nat) (name : Str) (value : Value H) :
    Except (Stop Misuse) (Value H) := do
  let symbol ← symtabLookup s name fuel symtab
  if symbol = 0 then .ok value
  else
    let node ← loadNode s symbol
    .ok node.value

def symtabSize (s : Heap H) : Nat → Nat → Except (Stop Misuse) Nat
  | 0, _ => .error .fuel
  | fuel + 1, symbol =>
    if symbol = 0 then .ok 0
    else do
      let node ← loadNode s symbol
      let size ← symtabSize s fuel node.next
      .ok (size + 1)

def freeVar (s : Heap H) (node : Node H) : Except (Stop Misuse) (Heap H) :=
  if node.type = .var then freeValue s node.value else .ok s

def symtabFree : Nat → Heap H → Nat → Except (Stop Misuse) (Heap H)
  | 0, _, _ => .error .fuel
  | fuel + 1, s, symbol =>
    if symbol = 0 then .ok s
    else do
      let node ← loadNode s symbol
      let s ← s.free node.name
      let node ← loadNode s symbol
      let s ← freeVar s node
      let node ← loadNode s symbol
      let s ← s.free symbol
      symtabFree fuel s node.next

end OS2.Symtab.Nodes
