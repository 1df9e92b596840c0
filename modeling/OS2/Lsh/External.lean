import OS2.Lsh.PathLookup
import OS2.Lsh.WholeValue

namespace OS2.Lsh

open OS2.Text OS2.Loop OS2.Symtab OS2.Tokenise

inductive Node where
  | executable
  | plain
  | directory
  deriving DecidableEq, Repr

structure FileSystem where
  node : Str → Option Node
  empty : node [] = none

def FileSystem.stat (fs : FileSystem) (file : Str) : Bool := (fs.node file).isSome

inductive Errno where
  | ENOENT
  | EACCES
  deriving DecidableEq, Repr

inductive Exec where
  | started (file : Str)
  | failed (errno : Errno)
  deriving DecidableEq, Repr

def FileSystem.execve (fs : FileSystem) (file : Str) : Exec :=
  match fs.node file with
  | some .executable => .started file
  | some .plain => .failed .EACCES
  | some .directory => .failed .EACCES
  | none => .failed .ENOENT

def Which.file (path : Str) : Which → Str
  | .path => path
  | .execpath text => text

/-- The child of `external`, with the value of PATH at the address `path`, and the byte `below` in front of the
    copy that `path_lookup` makes of it. -/
def externalChild (fuel : Nat) (below : Char) (mem : List Char) (path : Nat) (name : Str) (fs : FileSystem) :
    Except (Stop LookupFault) Exec :=
  if '/' ∈ name then .ok (fs.execve name)
  else do
    let (mem, which) ← pathLookup fuel below mem path name fs.stat
    .ok (fs.execve (which.file (cstr mem path)))

theorem execve_ENOENT {fs : FileSystem} {file : Str} : fs.execve file = .failed .ENOENT ↔ fs.node file = none := by
  rw [FileSystem.execve]
  split <;> simp_all

variable {pre path post name : Str} {fs : FileSystem}

theorem externalChild_lookup (pre post : List Char) (fs : FileSystem) (below : Char) (free : NulFree path)
    (plain : '/' ∉ name) (stops : isspace below = false ∨ ¬ LeadsBlank path) :
    Ends (externalChild · below (pre ++ (path ++ NUL :: post)) pre.length name fs)
      (.ok (fs.execve ((firstMatch name fs.stat (components ':' path)).file path))) := by
  have text : cstr (pre ++ (path ++ NUL :: post)) pre.length = path := cstr_append free pre post
  have ends := pathLookup_ends text stops name fs.stat
  simp only [externalChild, if_neg plain]
  apply ends.bind
  simp only [text]
  exact Ends.const _

theorem externalChild_underruns (pre post : List Char) (fs : FileSystem) (free : NulFree path) (plain : '/' ∉ name)
    {below : Char} (white : isspace below = true) (leads : LeadsBlank path) :
    Ends (externalChild · below (pre ++ (path ++ NUL :: post)) pre.length name fs) (.error (.fault .underrun)) := by
  have text : cstr (pre ++ (path ++ NUL :: post)) pre.length = path := cstr_append free pre post
  simp only [externalChild, if_neg plain]
  exact (pathLookup_underruns text white leads name fs.stat).bind_error _

/-- A command that no component of PATH has fails with ENOENT exactly where the text of PATH, taken for
    one file name, names nothing either, and does not begin with a component of white space. -/
theorem unresolved_runs_nothing_iff (free : NulFree path) (plain : '/' ∉ name)
    (missing : ∀ c ∈ components ':' path, fs.node (candidate name c) = none) :
    (∀ below, Ends (externalChild · below (pre ++ (path ++ NUL :: post)) pre.length name fs) (.ok (.failed .ENOENT))) ↔
      fs.node path = none ∧ ¬ LeadsBlank path := by
  have none : firstMatch name fs.stat (components ':' path) = .path := by
    have misses : (components ':' path).find? (fun c => fs.stat (candidate name c)) = none := by
      rw [List.find?_eq_none]
      intro c member
      simp [FileSystem.stat, missing c member]
    rw [firstMatch, misses]
  constructor
  · intro ends
    have starts : ¬ LeadsBlank path := by
      intro leads
      have fails := externalChild_underruns pre post fs free plain (show isspace ' ' = true by decide) leads
      cases fails.unique (ends ' ')
    refine ⟨?_, starts⟩
    have found := externalChild_lookup pre post fs NUL free plain (.inr starts)
    rw [none, Which.file] at found
    exact execve_ENOENT.mp (Except.ok.inj (found.unique (ends NUL)))
  · rintro ⟨nothing, starts⟩ below
    have found := externalChild_lookup pre post fs below free plain (.inr starts)
    rwa [none, Which.file, execve_ENOENT.mpr nothing] at found

theorem unresolved_runs_nothing_iff_default :
    (∀ below, Ends (externalChild · below ([] ++ (PATH ++ NUL :: [])) ([] : Str).length "xyz".toList
        ⟨fun _ => none, rfl⟩) (.ok (.failed .ENOENT))) ↔
      (fun _ => none : Str → Option Node) PATH = none ∧ ¬ LeadsBlank PATH :=
  @unresolved_runs_nothing_iff [] PATH [] "xyz".toList ⟨fun _ => none, rfl⟩ (by decide) (by decide) (fun _ _ => rfl)

def emptyBin : FileSystem := ⟨fun file => if file = "/bin".toList then some .directory else none, by decide⟩

/-- With `PATH=/bin` a missing command makes the child execute the directory /bin. -/
theorem path_executed_as_file :
    (∃ shell, Ends (parse · NUL init ("PATH".toList ++ '=' :: ("/bin".toList ++ ['\n']))) (.ok shell) ∧
      (symtabFetch shell.symtab "PATH".toList (.text PATH)).chars = some "/bin".toList) ∧
    (∀ c ∈ components ':' "/bin".toList, emptyBin.node (candidate "xyz".toList c) = none) ∧
    ∀ below, ¬ Ends (externalChild · below "/bin\x00".toList 0 "xyz".toList emptyBin) (.ok (.failed .ENOENT)) := by
  have plain : PlainValue "/bin".toList := by decide
  have shape : fetched "/bin".toList = [⟨"/bin".toList, .arg⟩] := by decide +kernel
  refine ⟨⟨init.entered "PATH".toList (.var "/bin".toList), ?_, ?_⟩, by decide +kernel, ?_⟩
  · simp only [parse_setting (show IsName "PATH".toList by decide) plain (show Blank ['\n'] by decide)]
    exact assign_first sound_init (by decide) (by rintro ⟨⟩ <;> decide) (by decide) plain.settles shape
  · rw [symtabFetch, Shell.entered, symtabLookup_entered_self]
    rfl
  · have found (below : Char) := externalChild_lookup [] [] emptyBin below (show NulFree "/bin".toList by decide)
      (show '/' ∉ "xyz".toList by decide) (.inr (by decide))
    intro below ends
    exact absurd (Except.ok.inj ((found below).unique ends)) (by decide +kernel)

end OS2.Lsh
