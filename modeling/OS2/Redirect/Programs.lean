import OS2.Loop.Fuel
import OS2.Posix.Descriptors

namespace OS2.Redirect

open OS2.Loop OS2.Posix

abbrev Bytes := List UInt8

variable {α : Type}

inductive Description (α : Type) where
  | initial (x : α)
  | opened
  deriving DecidableEq, Repr

inductive Ending where
  | usage
  | perror (call : String)
  | exit
  deriving DecidableEq, Repr

def Ending.status : Ending → Nat
  | .exit => 0
  | _ => 1

structure Outcome (α : Type) where
  ending : Ending
  table : Table (Description α)
  output : Option (Description α × Bytes)

def STDIN_FILENO : Nat := 0

def STDOUT_FILENO : Nat := 1

def openFile (table : Table (Description α)) : Table (Description α) × Nat :=
  (table.assign table.lowest .opened, table.lowest)

/-- Steps 1 to 3 of both programs, once the file can be opened; `none` where `dup2` fails. -/
def redirect (table : Table (Description α)) (target : Nat) : Option (Table (Description α)) :=
  let (table, fd) := openFile table
  if (table.entry fd).isNone then none else some ((table.dup2 fd target).close fd)

def EOF : Int := -1

def getchar : Bytes → Int × Bytes
  | [] => (EOF, [])
  | byte :: rest => ((byte.toNat : Int), rest)

def putchar (c : Int) (output : Bytes) : Bytes := output ++ [UInt8.ofNat (c % 256).toNat]

structure Copy where
  c : Int
  input : Bytes
  output : Bytes
  deriving DecidableEq, Repr

def Copy.read (input output : Bytes) : Copy := { c := (getchar input).1, input := (getchar input).2, output := output }

def copy (fuel : Nat) (input : Bytes) : Except (Stop Empty) Bytes :=
  (whileLoop (fun s : Copy => s.c != EOF) (fun s => .ok (.read s.input (putchar s.c s.output))) fuel
    (.read input [])).map Copy.output

def flush (table : Table (Description α)) (output : Bytes) : Option (Description α × Bytes) :=
  (table.entry STDOUT_FILENO).map fun description => (description, output)

/-- What can be read on the standard input, where the file opened has the bytes `content` and what was
    open before those of `input`; on a closed descriptor `getchar` returns EOF. -/
def stdin (input : α → Bytes) (content : Bytes) (table : Table (Description α)) : Bytes :=
  match table.entry STDIN_FILENO with
  | some .opened => content
  | some (.initial x) => input x
  | none => []

def redirectfrom (fuel : Nat) (files : Bytes → Option Bytes) (input : α → Bytes) (table : Table (Description α))
    (argv : List Bytes) : Except (Stop Empty) (Outcome α) :=
  match argv with
  | [_, infile] =>
    match files infile with
    | none => .ok ⟨.perror "open", table, none⟩
    | some content =>
      match redirect table STDIN_FILENO with
      | none => .ok ⟨.perror "dup2", table, none⟩
      | some table => (copy fuel (stdin input content table)).map fun output => ⟨.exit, table, flush table output⟩
  | _ => .ok ⟨.usage, table, none⟩

def redirectto (creatable : Bytes → Bool) (table : Table (Description α)) (argv : List Bytes) : Outcome α :=
  match argv with
  | [_, message, outfile] =>
    if creatable outfile then
      match redirect table STDOUT_FILENO with
      | none => ⟨.perror "dup2", table, none⟩
      | some table => ⟨.exit, table, flush table (message ++ [10])⟩
    else ⟨.perror "open", table, none⟩
  | _ => ⟨.usage, table, none⟩

def Outcome.file (outcome : Outcome α) : Bytes :=
  match outcome.output with
  | some (.opened, bytes) => bytes
  | _ => []

variable {table : Table (Description α)}

theorem redirect_eq (table : Table (Description α)) (target : Nat) :
    redirect table target = some (if table.lowest = target then table else table.assign target .opened) := by
  have opened : (table.assign table.lowest (.opened : Description α)).entry table.lowest = some .opened := by simp
  have free := table.lowest_free
  simp only [redirect, openFile, opened, Option.isNone_some, Bool.false_eq_true, if_false, Table.dup2_open opened]
  congr 1
  split
  · rename_i same
    ext1 fd
    simp only [Table.entry_close, Table.entry_assign]
    grind
  · rename_i other
    ext1 fd
    simp only [Table.entry_close, Table.entry_assign]
    grind

theorem lowest_le {fd : Nat} (free : table.entry fd = none) : table.lowest ≤ fd :=
  Nat.find_min' table.exists_free (by rw [free]; rfl)

theorem lowest_eq_zero : table.lowest = 0 ↔ table.entry 0 = none := by
  constructor
  · intro zero
    rw [← zero]
    exact table.lowest_free
  · intro free
    exact Nat.le_zero.mp (lowest_le free)

theorem lowest_eq_one : table.lowest = 1 ↔ table.entry 0 ≠ none ∧ table.entry 1 = none := by
  constructor
  · intro one
    have free := table.lowest_free
    rw [one] at free
    refine ⟨fun zero => ?_, free⟩
    have below := lowest_le zero
    omega
  · intro ⟨open', free⟩
    have below := lowest_le free
    have above : table.lowest ≠ 0 := fun zero => open' (lowest_eq_zero.mp zero)
    omega

theorem putchar_byte (byte : UInt8) (output : Bytes) : putchar (byte.toNat : Int) output = output ++ [byte] := by
  have bound := byte.toNat_lt
  have same : ((byte.toNat : Int) % 256).toNat = byte.toNat := by omega
  rw [putchar, same, UInt8.ofNat_toNat]

theorem copies (input output : Bytes) :
    Ends (whileLoop (fun s : Copy => s.c != EOF) (fun s => .ok (.read s.input (putchar s.c s.output))) ·
      (.read input output)) (.ok ⟨EOF, [], output ++ input⟩ : Except (Stop Empty) Copy) := by
  induction input generalizing output with
  | nil =>
    rw [List.append_nil]
    exact ends_exit rfl
  | cons byte input ih =>
    have iter : Iter (fun s : Copy => s.c != EOF)
        (fun s => (.ok (.read s.input (putchar s.c s.output)) : Except Empty Copy))
        (.read (byte :: input) output) (.read input (output ++ [byte])) := by
      refine ⟨?_, ?_⟩
      · simp only [Copy.read, getchar, EOF, bne_iff_ne]
        omega
      · simp only [Copy.read, getchar, putchar_byte]
    have later := ih (output ++ [byte])
    rw [List.append_assoc, List.singleton_append] at later
    exact (iter.sameEnd _).mpr later

theorem copy_ends (input : Bytes) : Ends (copy · input) (.ok input) :=
  (copies input []).map Copy.output

theorem redirectfrom_eq {files : Bytes → Option Bytes} {infile content : Bytes} (found : files infile = some content)
    (input : α → Bytes) (table : Table (Description α)) (argv0 : Bytes) :
    Ends (redirectfrom · files input table [argv0, infile])
      (.ok (if table.entry 0 = none then ⟨.exit, table, flush table []⟩
        else ⟨.exit, table.assign 0 .opened, flush table content⟩)) := by
  simp only [redirectfrom, found, redirect_eq, lowest_eq_zero, STDIN_FILENO]
  by_cases closed : table.entry 0 = none
  · have nothing : stdin input content table = [] := by simp [stdin, STDIN_FILENO, closed]
    rw [if_pos closed, if_pos closed]
    simp only [nothing]
    exact (copy_ends []).map _
  · have all : stdin input content (table.assign 0 .opened) = content := by simp [stdin, STDIN_FILENO]
    have same : ∀ output, flush (table.assign 0 .opened) output = flush table output := by
      simp [flush, STDOUT_FILENO]
    rw [if_neg closed, if_neg closed]
    simp only [all, same]
    exact (copy_ends content).map _

/-- redirectfrom with a file that can be opened, whatever is open before: the descriptors but the standard
    input are untouched, and the file is copied, each of its bytes, to what the standard output refers
    to; unless the standard input was closed, which leaves it closed and copies nothing. -/
theorem redirectfrom_copies {files : Bytes → Option Bytes} {infile content : Bytes}
    (found : files infile = some content) (input : α → Bytes) (table : Table (Description α)) (argv0 : Bytes) :
    ∃ outcome, Ends (redirectfrom · files input table [argv0, infile]) (.ok outcome) ∧ outcome.ending.status = 0 ∧
      (∀ fd, fd ≠ 0 → outcome.table.entry fd = table.entry fd) ∧
      (outcome.table.entry 0 = if table.entry 0 = none then none else some .opened) ∧
      outcome.output =
        (table.entry 1).map fun stdout => (stdout, if table.entry 0 = none then [] else content) := by
  have ends := redirectfrom_eq found input table argv0
  by_cases closed : table.entry 0 = none
  · rw [if_pos closed] at ends
    refine ⟨_, ends, rfl, fun fd _ => rfl, ?_, ?_⟩
    · rw [if_pos closed]
      exact closed
    · simp only [flush, STDOUT_FILENO, if_pos closed]
  · rw [if_neg closed] at ends
    refine ⟨_, ends, rfl, fun fd other => by simp [other], ?_, ?_⟩
    · rw [if_neg closed]
      simp
    · simp only [flush, STDOUT_FILENO, if_neg closed]

def terminal (count : Nat) : Table (Description String) where
  entry := fun fd => if fd < count then some (.initial "tty") else none
  finite := ⟨count, fun fd bound => if_neg (by omega)⟩

theorem redirectfrom_copies_terminal : ∃ outcome,
    Ends (redirectfrom · (fun _ => some [104, 105, 255]) (fun _ => []) (terminal 3) [[46], [102]]) (.ok outcome) ∧
      outcome.output = some (.initial "tty", [104, 105, 255]) := by
  have found : (fun _ => some [104, 105, 255] : Bytes → Option Bytes) [102] = some [104, 105, 255] := rfl
  obtain ⟨outcome, ends, _, _, _, copied⟩ := redirectfrom_copies found (fun _ => []) (terminal 3) [46]
  exact ⟨outcome, ends, copied.trans (by simp [terminal])⟩

/-- redirectto where the file can be created, whatever is open before: the message and a newline are all that
    is in the file, unless the standard output was the lowest closed descriptor, which leaves it closed
    and the file empty. -/
theorem redirectto_writes {creatable : Bytes → Bool} {outfile : Bytes} (created : creatable outfile = true)
    (table : Table (Description α)) (argv0 message : Bytes) :
    (redirectto creatable table [argv0, message, outfile]).ending.status = 0 ∧
      (∀ fd, fd ≠ 1 → (redirectto creatable table [argv0, message, outfile]).table.entry fd = table.entry fd) ∧
      ((redirectto creatable table [argv0, message, outfile]).table.entry 1 =
        if table.entry 0 ≠ none ∧ table.entry 1 = none then none else some .opened) ∧
      (redirectto creatable table [argv0, message, outfile]).file =
        if table.entry 0 ≠ none ∧ table.entry 1 = none then [] else message ++ [10] := by
  simp only [redirectto, created, if_true, redirect_eq, lowest_eq_one, STDOUT_FILENO]
  by_cases taken : table.entry 0 ≠ none ∧ table.entry 1 = none
  · rw [if_pos taken, if_pos taken, if_pos taken]
    refine ⟨rfl, fun fd _ => rfl, taken.2, ?_⟩
    simp [taken, flush, STDOUT_FILENO, Outcome.file]
  · rw [if_neg taken, if_neg taken, if_neg taken]
    refine ⟨rfl, fun fd other => by simp [other], by simp, ?_⟩
    simp [flush, STDOUT_FILENO, Outcome.file]

theorem redirectto_writes_closed :
    (redirectto (fun _ => true) (terminal 1) [[46], [104, 105], [102]]).table.entry 1 = none ∧
      (redirectto (fun _ => true) (terminal 1) [[46], [104, 105], [102]]).file = [] := by
  have written := (@redirectto_writes String (fun _ => true) [102] rfl (terminal 1) [46] [104, 105]).2.2
  have taken : (terminal 1).entry 0 ≠ none ∧ (terminal 1).entry 1 = none := ⟨by simp [terminal], by simp [terminal]⟩
  rwa [if_pos taken, if_pos taken] at written

end OS2.Redirect
