import OS2.Text.Chars
import OS2.Loop.Fuel

namespace OS2.Tokenise

open OS2.Text OS2.Loop

inductive State where
  | start
  | dquote
  | squote
  | token
  | special
  deriving DecidableEq, Repr

inductive TType where
  | undefined
  | arg
  | pipe
  | background
  | fromfile
  | tofile
  | assign
  | endstmt
  deriving DecidableEq, Repr

structure Token where
  value : Str
  type : TType
  deriving DecidableEq, Repr

/-- What would stop `tokenise_fetch` short: one of its two assertions, or a slice that is not one. -/
inductive Fault where
  | stateNotStart
  | typeUndef
  | nullSlice
  | negativeSlice
  deriving DecidableEq, Repr

/-- The local variables of `tokenise_fetch` between two passages of its loop. The pointers are
    offsets from `src`, `none` is NULL; `value` is NULL and `type` is `T_UNDEF` there. -/
structure Scanner where
  cp : Nat
  sp : Option Nat
  ep : Option Nat
  state : State
  tokens : List Token
  count : Nat
  deriving DecidableEq, Repr

/-- `SPECIAL_CHARS`, as compiled with `LSH_ENABLE_USERVARS`. -/
def specialChars (c : Char) : Bool :=
  c == '|' || c == '&' || c == '<' || c == '>' || c == '='

def special (c : Char) : Bool := c != '\\' && specialChars c

def terminal (c : Char) (ep : Option Nat) : Bool :=
  (c == NUL || isspace c || special c) && ep.isNone

def strndup (src : Str) (sp : Option Nat) (n : Nat) : Except Fault Str :=
  match sp with
  | some i => .ok ((src.drop i).take n)
  | none => .error .nullSlice

def sliceLength (cp : Nat) (sp : Option Nat) : Except Fault Nat :=
  match sp with
  | some i => if i ≤ cp then .ok (cp - i) else .error .negativeSlice
  | none => .error .nullSlice

def advance (src : Str) (s : Scanner) : Scanner :=
  if charAt src s.cp = NUL then s else { s with cp := s.cp + 1 }

def emit (value : Str) (type : TType) (s : Scanner) : Except Fault Scanner :=
  if s.state ≠ .start then .error .stateNotStart
  else if type = .undefined then .error .typeUndef
  else .ok { s with tokens := s.tokens ++ [⟨value, type⟩], count := s.count + 1 }

def opType (c : Char) : TType :=
  if c = '|' then .pipe
  else if c = '&' then .background
  else if c = '<' then .fromfile
  else if c = '>' then .tofile
  else if c = '=' then .assign
  else if c = ';' then .endstmt
  else .undefined

def startCase (src : Str) (s : Scanner) : Scanner :=
  let c := charAt src s.cp
  if isspace c then { s with cp := s.cp + 1 }
  else if c = '\\' ∧ s.ep = none then { s with cp := s.cp + 1, ep := some s.cp }
  else if c = '"' ∧ s.ep = none then
    { s with cp := s.cp + 1, sp := some (s.cp + 1), state := .dquote }
  else if c = '\'' ∧ s.ep = none then
    { s with cp := s.cp + 1, sp := some (s.cp + 1), state := .squote }
  else if special c then { s with cp := s.cp + 1, sp := some s.cp, state := .special }
  else { s with cp := s.cp + 1, sp := some s.cp, state := .token }

/-- `case S_DQUOTE` and `case S_SQUOTE`, which differ in the quote `q` they look for. -/
def quoteCase (q : Char) (src : Str) (s : Scanner) : Except Fault Scanner :=
  let c := charAt src s.cp
  if (c = q ∧ s.ep = none) ∨ c = NUL then do
    let n ← sliceLength s.cp s.sp
    let value ← strndup src s.sp n
    emit value .arg (advance src { s with state := .start })
  else .ok (advance src s)

def tokenCase (src : Str) (s : Scanner) : Except Fault Scanner :=
  let c := charAt src s.cp
  if terminal c s.ep then do
    let n ← sliceLength s.cp s.sp
    let value ← strndup src s.sp n
    let cp := if special c ∧ s.cp ≠ 0 then s.cp - 1 else s.cp
    emit value .arg (advance src { s with cp := cp, state := .start })
  else .ok (advance src s)

def specialCase (src : Str) (s : Scanner) : Except Fault Scanner := do
  let value ← strndup src s.sp 1
  emit value (opType (charAt src (s.sp.getD 0))) { s with state := .start }

def scanning (src : Str) (s : Scanner) : Bool :=
  charAt src s.cp != NUL || s.state != .start

def scan (src : Str) (s : Scanner) : Except Fault Scanner :=
  match s.state with
  | .start => .ok (startCase src s)
  | .dquote => quoteCase '"' src s
  | .squote => quoteCase '\'' src s
  | .token => tokenCase src s
  | .special => specialCase src s

def Scanner.init : Scanner :=
  { cp := 0, sp := none, ep := none, state := .start, tokens := [], count := 0 }

def tokeniseFetch (fuel : Nat) (src : Str) : Except (Stop Fault) (List Token × Nat) :=
  (whileLoop (scanning src) (scan src) fuel .init).map fun s => (s.tokens, s.count)

def Fetches (src : Str) (tokens : List Token) : Prop :=
  Ends (tokeniseFetch · src) (.ok (tokens, tokens.length))

example : tokeniseFetch 40 "ls 'a b'|wc&".toList = .ok
    ([⟨"ls".toList, .arg⟩, ⟨"a b".toList, .arg⟩, ⟨['|'], .pipe⟩, ⟨"wc".toList, .arg⟩,
      ⟨['&'], .background⟩], 5) := by decide

end OS2.Tokenise
