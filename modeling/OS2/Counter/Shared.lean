import OS2.Machine.Runs
import Mathlib.Data.Int.ModEq
import Mathlib.Logic.Function.Basic

namespace OS2.Counter

inductive Process where
  | parent
  | child
  deriving DecidableEq, Repr

def Process.other : Process → Process
  | .parent => .child
  | .child => .parent

/-- Where a process stands in its `for` loop, and behind it. The access `(*ptr)++` of the `printf` is
    two steps, the load of the counter and the store of the incremented value. -/
inductive PC where
  | test
  | wait
  | load
  | store
  | print
  | post
  | waitpid
  | exited
  deriving DecidableEq, Repr

/-- `i`, and the value that was loaded last, which is the one to print. -/
structure Local where
  pc : PC
  i : Int
  loaded : Int
  deriving DecidableEq, Repr

structure Line where
  writer : Process
  value : Int
  deriving DecidableEq, Repr

structure State where
  count : Int
  mutex : Nat
  process : Process → Local
  output : List Line

def INT_MAX : Int := 2147483647

def succInt (x : Int) : Int := (x + 1).bmod 4294967296

def State.put (s : State) (p : Process) (l : Local) : State :=
  { s with process := Function.update s.process p l }

def step (n : Int) (p : Process) (s : State) : Option State :=
  let l := s.process p
  match l.pc with
  | .test =>
    if l.i < n then some (s.put p { l with pc := .wait })
    else match p with
      | .parent => some (s.put p { l with pc := .waitpid })
      | .child => some (s.put p { l with pc := .exited })
  | .wait =>
    if s.mutex = 0 then none
    else some (State.put { s with mutex := s.mutex - 1 } p { l with pc := .load })
  | .load => some (s.put p { l with pc := .store, loaded := s.count })
  | .store => some (State.put { s with count := succInt l.loaded } p { l with pc := .print })
  | .print => some (State.put { s with output := s.output ++ [⟨p, l.loaded⟩] } p { l with pc := .post })
  | .post => some (State.put { s with mutex := s.mutex + 1 } p { l with pc := .test, i := l.i + 1 })
  | .waitpid =>
    if (s.process p.other).pc = .exited then some (s.put p { l with pc := .exited }) else none
  | .exited => none

def Step (n : Int) (s t : State) : Prop := ∃ p, step n p s = some t

inductive Backing where
  | file (bytes : List UInt8)
  | devZero
  deriving DecidableEq, Repr

def Backing.write (data : List UInt8) : Backing → Backing
  | .file bytes => .file (data ++ bytes.drop data.length)
  | .devZero => .devZero

def Backing.byte (i : Nat) : Backing → UInt8
  | .file bytes => bytes.getD i 0
  | .devZero => 0

def Backing.int (b : Backing) : Int :=
  Int.bmod ((b.byte 0).toNat + 256 * (b.byte 1).toNat + 65536 * (b.byte 2).toNat +
    16777216 * (b.byte 3).toNat) 4294967296

def forked (shared : Backing) (value : Nat) : State :=
  { count := shared.int, mutex := value, process := fun _ => ⟨.test, 0, 0⟩, output := [] }

def zero : List UInt8 := List.replicate 4 0

def shared : List UInt8 := List.replicate 40 0

def sharedCounterWorks1 (pathname : List UInt8) : State := forked ((Backing.file pathname).write zero) 1

def sharedCounterWorks2 (pathname : List UInt8) : State := forked ((Backing.file pathname).write shared) 1

def sharedCounterWorks3 : State := forked (Backing.devZero.write shared) 1

inductive Program where
  | works1 (pathname : List UInt8)
  | works2 (pathname : List UInt8)
  | works3
  deriving DecidableEq, Repr

def Program.start : Program → State
  | .works1 pathname => sharedCounterWorks1 pathname
  | .works2 pathname => sharedCounterWorks2 pathname
  | .works3 => sharedCounterWorks3

end OS2.Counter
