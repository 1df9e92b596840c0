import OS2.Lsh.TypeTags

namespace OS2.Lsh

open OS2.Text OS2.Loop OS2.Regex OS2.Symtab OS2.Tokenise

variable {shell shell' : Shell}

/-- The line is taken for a variable setting, and its first token is the name of an internal command. -/
def SetsHandler (cmd : Str) : Prop :=
  assignment.search cmd = true ∧
    ∃ name, (fetched cmd)[0]? = some name ∧ ∃ f, Installed name.value f

def heapOf : Except (Stop Fault) Shell → Option (Heap Handler)
  | .ok shell => some shell.heap
  | .error (.fault (.badFree heap)) => some heap
  | .error _ => none

theorem Parsed.sets_no_handler {cmd : Str} (sound : Sound shell) (parsed : Parsed shell cmd shell') :
    ¬ SetsHandler cmd := by
  intro ⟨found, name, first, f, installed⟩
  cases parsed with
  | empty nothing =>
    rw [nothing] at found
    exact absurd found (by decide)
  | command _ other _ _ =>
    rw [found] at other
    cases other
  | assign name' value _ _ _ first' _ sets =>
    obtain rfl : name = name' := Option.some.inj (first.symm.trans first')
    rw [sound.set_aborts installed] at sets
    cases sets

theorem runCommand_frees_nothing {argc : Nat} {argv : List (Option Str)} {heap : Heap Handler} :
    runCommand shell argc argv ≠ .error (.badFree heap) := by
  rcases runCommand_cases shell argc argv with ⟨_, _, ran⟩ | ⟨ran, _⟩ | ⟨ran, _⟩ <;> rw [ran] <;> simp

theorem parse_aborts {fuel : Nat} {below : Char} {line : Str} {heap : Heap Handler}
    (aborts : parse fuel below shell line = .error (.fault (.badFree heap))) :
    ∃ name value, assignment.search (strip (cstr line 0)) = true ∧
      (fetched (strip (cstr line 0)))[0]? = some name ∧ shell.set name.value (.var value) = .error (.badFree heap) := by
  have free := nulFree_strip (cstr_terminated line).1
  unfold parse at aborts
  cases trimmed : trimLine below line with
  | none => simp [trimmed] at aborts
  | some cmd =>
    obtain rfl := trimLine_some trimmed
    simp only [trimmed] at aborts
    have scans := fetch_fault (e := .badFree heap) (by simp) fuel (strip (cstr line 0))
    split at aborts
    · rename_i found
      unfold assign at aborts
      cases returned : fetch fuel (strip (cstr line 0)) with
      | error stop =>
        simp only [returned, Bind.bind, Except.bind] at aborts
        cases aborts
        exact absurd returned scans
      | ok result =>
        obtain ⟨_, rfl⟩ := fetch_ok free returned
        simp only [returned, Bind.bind, Except.bind] at aborts
        split at aborts
        · rename_i name value first _
          refine ⟨name, value.value, found, first, ?_⟩
          cases sets : shell.set name.value (.var value.value) <;> rw [sets] at aborts <;> cases aborts
          rfl
        · cases aborts
    · unfold dispatch at aborts
      split at aborts
      · cases aborts
      · cases returned : fetch fuel (strip (cstr line 0)) with
        | error stop =>
          simp only [returned, Bind.bind, Except.bind] at aborts
          cases aborts
          exact absurd returned scans
        | ok result =>
          simp only [returned, Bind.bind, Except.bind] at aborts
          cases ran : runCommand shell result.2 (argvOf result.1) with
          | ok shell' =>
            rw [ran] at aborts
            cases aborts
          | error e =>
            rw [ran] at aborts
            cases aborts
            exact absurd ran runCommand_frees_nothing

theorem Sound.aborts_sets_handler (sound : Sound shell) {fuel : Nat} {below : Char} {line : Str} {heap : Heap Handler}
    (aborts : parse fuel below shell line = .error (.fault (.badFree heap))) :
    SetsHandler (strip (cstr line 0)) ∧ ¬ FreesCopies heap := by
  obtain ⟨name, value, found, first, refused⟩ := parse_aborts aborts
  have handler : ∃ f, Installed name.value f := by
    by_contra user
    rw [sound.set_ok fun f installed => user ⟨f, installed⟩] at refused
    cases refused
  refine ⟨⟨found, name, first, handler⟩, ?_⟩
  obtain ⟨f, installed⟩ := handler
  rw [sound.set_aborts installed] at refused
  obtain rfl : (shell.entered name.value (.var value)).heap = heap := Fault.badFree.inj (Except.error.inj refused)
  have called : (shell.entered name.value (.var value)).heap =
      (copyIn shell.heap (.var value)).2.called (.code f) := entered_called (sound.kept _ f installed) (by simp)
  intro frees
  obtain ⟨block, s, copy, _⟩ := frees.1 (.code f) (by rw [called]; exact List.mem_append_right _ List.mem_cons_self)
  cases copy

theorem repl_aborts {fuel : Nat} {below : Char} {lines : List Str} {heap : Heap Handler} (sound : Sound shell)
    (aborts : repl fuel below shell lines = .error (.fault (.badFree heap))) :
    (∃ line ∈ lines, SetsHandler (strip (cstr line 0))) ∧ ¬ FreesCopies heap := by
  induction lines generalizing shell with
  | nil => cases aborts
  | cons line lines ih =>
    unfold repl at aborts
    split at aborts
    · cases parsed : parse fuel below shell line with
      | error stop =>
        rw [parsed] at aborts
        obtain rfl : stop = .fault (.badFree heap) := Except.error.inj aborts
        obtain ⟨sets, frees⟩ := sound.aborts_sets_handler parsed
        exact ⟨⟨line, List.mem_cons_self, sets⟩, frees⟩
      | ok middle =>
        rw [parsed] at aborts
        obtain ⟨⟨line', member, sets⟩, frees⟩ := ih (sound.parsed (parse_parsed parsed)) aborts
        exact ⟨⟨line', List.mem_cons_of_mem _ member, sets⟩, frees⟩
    · cases aborts

/-- Behind every run of the shell that returns or is aborted by `free`, `symtab_set` has called `free` only
    on copies made by earlier calls of `strdup`, and on none of them twice, if and only if no line of the
    run that was taken for a variable setting had the name of an internal command as its first token. -/
theorem frees_copies_iff {fuel : Nat} {below : Char} {lines : List Str} {heap : Heap Handler}
    (left : heapOf (repl fuel below init lines) = some heap) :
    FreesCopies heap ↔ ∀ line ∈ lines, ¬ SetsHandler (strip (cstr line 0)) := by
  cases run : repl fuel below init lines with
  | ok shell =>
    rw [run] at left
    obtain rfl : shell.heap = heap := Option.some.inj left
    refine ⟨fun _ => ?_, fun _ => (sound_of_repl run).owned.freesCopies⟩
    intro line member
    obtain ⟨before, behind, rfl⟩ := List.append_of_mem member
    obtain ⟨middle, front, rest⟩ := repl_append_ok run
    obtain ⟨next, parsed, rest⟩ := repl_cons rest
    exact (parse_parsed parsed).sets_no_handler (sound_of_repl front)
  | error stop =>
    rw [run] at left
    obtain rfl : stop = .fault (.badFree heap) := by
      cases stop with
      | fuel => cases left
      | fault e =>
        cases e with
        | badFree heap' => rw [Option.some.inj left]
        | _ => cases left
    obtain ⟨⟨line, member, sets⟩, frees⟩ := repl_aborts sound_init run
    exact ⟨fun copies => absurd copies frees, fun none => absurd sets (none line member)⟩

theorem frees_copies_iff_prompt :
    FreesCopies (init.entered "PS1".toList (.var ['%'])).heap ↔
      ∀ line ∈ ["PS1=%\n".toList], ¬ SetsHandler (strip (cstr line 0)) :=
  frees_copies_iff (show heapOf (repl 60 NUL init ["PS1=%\n".toList]) = some _ by decide)

theorem setting_exit_frees_halt :
    ∃ heap, repl 60 NUL init ["exit=1\n".toList] = .error (.fault (.badFree heap)) ∧
      heap.freed = [.code .halt] ∧ ¬ FreesCopies heap := by
  refine ⟨(init.entered "exit".toList (.var ['1'])).heap, by decide, by decide, ?_⟩
  intro frees
  obtain ⟨block, s, copy, _⟩ := frees.1 (.code .halt) (by decide)
  cases copy

end OS2.Lsh
