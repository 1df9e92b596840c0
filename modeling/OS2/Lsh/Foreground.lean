import OS2.Lsh.Contract
import OS2.Machine.Progress
import OS2.Posix.Children

namespace OS2.Lsh.Foreground

open OS2.Text OS2.Loop OS2.Machine OS2.Posix OS2.Symtab OS2.Tokenise

inductive PC where
  | read
  | fork
  | waitpid (pid : Nat)
  | exited
  | crashed
  deriving DecidableEq, Repr

structure State where
  pc : PC
  shell : Shell
  lines : List Str
  forked : Nat
  children : Children

def behind (shell shell' : Shell) : PC :=
  if (shell'.actions.drop shell.actions.length).any isExternal then .fork
  else if shell'.running then .read else .exited

/-- A child shares the standard input of the shell: `touches` is what it can make of the lines that are not read. -/
inductive Step (touches : List Str → List Str → Prop) (below : Char) (s : State) : State → Prop where
  | child (children : Children) (lines : List Str) (lives : Lives s.children children)
      (shares : lines = s.lines ∨ touches s.lines lines) :
      Step touches below s { s with children := children, lines := lines }
  | parse (line : Str) (lines : List Str) (shell : Shell) (here : s.pc = .read) (more : s.lines = line :: lines)
      (parses : Ends (Lsh.parse · below s.shell line) (.ok shell)) :
      Step touches below s { s with pc := behind s.shell shell, shell := shell, lines := lines }
  | crash (line : Str) (lines : List Str) (e : Fault) (here : s.pc = .read) (more : s.lines = line :: lines)
      (fails : Ends (Lsh.parse · below s.shell line) (.error (.fault e))) :
      Step touches below s { s with pc := .crashed }
  | endOfFile (here : s.pc = .read) (none : s.lines = []) : Step touches below s { s with pc := .exited }
  | fork (here : s.pc = .fork) :
      Step touches below s { s with
        pc := .waitpid s.forked
        forked := s.forked + 1
        children := Function.update s.children s.forked (.running false) }
  | forkFails (here : s.pc = .fork) : Step touches below s { s with pc := .read }
  | waitpid (pid : Nat) (children : Children) (here : s.pc = .waitpid pid)
      (waits : WaitPid s.children (some pid) children) :
      Step touches below s { s with pc := .read, children := children }

def Untouched (touches : List Str → List Str → Prop) : Prop := ∀ lines lines', touches lines lines' → lines' = lines

def start (lines : List Str) : State :=
  { pc := .read, shell := init, lines := lines, forked := 0, children := fun _ => .absent }

/-- Every child but the one that is waited for is reaped, and each was forked for a command. -/
structure Inv (touches : List Str → List Str → Prop) (below : Char) (lines : List Str) (s : State) : Prop where
  read : ∃ done, Ends (repl · below init done) (.ok s.shell) ∧ (Untouched touches → lines = done ++ s.lines)
  running : s.pc ≠ .exited → s.shell.running = true
  absent : ∀ k, s.children k = .absent ↔ s.forked ≤ k
  reaped : ∀ k, k < s.forked → s.children k = .reaped ∨ s.pc = .waitpid k
  waiting : ∀ k, s.pc = .waitpid k → k < s.forked ∧ s.children k ≠ .reaped
  counted : s.forked + (if s.pc = .fork then 1 else 0) ≤ s.shell.actions.countP isExternal

variable {touches : List Str → List Str → Prop} {below : Char} {lines : List Str} {cmd line : Str}
  {shell shell' : Shell} {s t : State} {n : Nat}

theorem start_inv (touches : List Str → List Str → Prop) (below : Char) (lines : List Str) :
    Inv touches below lines (start lines) :=
  ⟨⟨[], Ends.const _, fun _ => rfl⟩, fun _ => rfl, by simp [start], by simp [start], by simp [start], by simp [start]⟩

theorem behind_cases (shell shell' : Shell) :
    behind shell shell' = .fork ∨ behind shell shell' = .read ∨ behind shell shell' = .exited := by
  unfold behind
  split
  · exact .inl rfl
  · split
    · exact .inr (.inl rfl)
    · exact .inr (.inr rfl)

theorem parse_acts (parses : Ends (parse · below shell line) (.ok shell')) :
    ∃ new, shell'.actions = shell.actions ++ new ∧
      (new.any isExternal = true → shell'.running = shell.running) := by
  obtain ⟨least, returns⟩ := parses
  have parsed := parse_parsed (returns least (Nat.le_refl _))
  cases parsed with
  | assign name value _ found settles first third sets =>
    obtain ⟨rfl, _⟩ := Shell.set_eq sets
    exact ⟨[], (List.append_nil _).symm, fun _ => rfl⟩
  | empty nothing => exact ⟨[], (List.append_nil _).symm, fun _ => rfl⟩
  | command _ other settles runs =>
    cases runs with
    | internal name symbol f head found type value => exact ⟨_, rfl, by simp [isExternal]⟩
    | external name head other => exact ⟨_, rfl, fun _ => rfl⟩

theorem Inv.child {children : Children} {left : List Str} (inv : Inv touches below lines s)
    (lives : Lives s.children children) (shares : left = s.lines ∨ touches s.lines left) :
    Inv touches below lines { s with children := children, lines := left } := by
  obtain ⟨done, ends, split⟩ := inv.read
  refine ⟨⟨done, ends, ?_⟩, inv.running, ?_, ?_, ?_, inv.counted⟩
  · intro untouched
    have same : left = s.lines := shares.elim id (untouched _ _)
    rw [split untouched, same]
  · intro k
    exact (lives.kept k).1.trans (inv.absent k)
  · intro k inside
    exact (inv.reaped k inside).imp_left (lives.kept k).2.mpr
  · intro k here
    have waiting := inv.waiting k here
    exact ⟨waiting.1, fun again => waiting.2 ((lives.kept k).2.mp again)⟩

theorem Inv.parse {rest : List Str} (inv : Inv touches below lines s) (here : s.pc = .read)
    (more : s.lines = line :: rest)
    (parses : Ends (Lsh.parse · below s.shell line) (.ok shell)) :
    Inv touches below lines { s with pc := behind s.shell shell, shell := shell, lines := rest } := by
  obtain ⟨done, ends, split⟩ := inv.read
  have running := inv.running (by simp [here])
  obtain ⟨new, actions, keeps⟩ := parse_acts parses
  have added : shell.actions.drop s.shell.actions.length = new := by rw [actions, List.drop_left]
  have counted := inv.counted
  rw [if_neg (by simp [here]), Nat.add_zero] at counted
  refine ⟨⟨done ++ [line], repl_snoc ends running parses, ?_⟩, ?_, inv.absent, ?_, ?_, ?_⟩
  · intro untouched
    rw [split untouched, more, List.append_assoc]
    rfl
  · intro open'
    simp only [behind, added] at open'
    by_cases external : new.any isExternal = true
    · rw [keeps external, running]
    · rw [if_neg external] at open'
      by_contra halted
      rw [if_neg halted] at open'
      exact open' rfl
  · intro k inside
    refine .inl ((inv.reaped k inside).resolve_right ?_)
    simp [here]
  · intro k waits
    have waits : behind s.shell shell = .waitpid k := waits
    rcases behind_cases s.shell shell with place | place | place <;> rw [place] at waits <;> cases waits
  · simp only [behind, added]
    rw [actions, List.countP_append]
    by_cases external : new.any isExternal = true
    · have one : 0 < new.countP isExternal := List.countP_pos_iff.mpr (List.any_eq_true.mp external)
      rw [if_pos external, if_pos rfl]
      omega
    · rw [if_neg external, if_neg (by split <;> simp)]
      omega

theorem Inv.fork (inv : Inv touches below lines s) (here : s.pc = .fork) :
    Inv touches below lines { s with
      pc := .waitpid s.forked
      forked := s.forked + 1
      children := Function.update s.children s.forked (.running false) } := by
  have counted := inv.counted
  rw [if_pos here] at counted
  refine ⟨inv.read, fun _ => inv.running (by simp [here]), ?_, ?_, ?_, counted⟩
  · intro k
    by_cases new : k = s.forked
    · simp [new]
    · simp only [Function.update_of_ne new, inv.absent k]
      omega
  · intro k inside
    by_cases new : k = s.forked
    · exact .inr (new ▸ rfl)
    · have inside : k < s.forked + 1 := inside
      simp only [Function.update_of_ne new]
      refine .inl ((inv.reaped k (by omega)).resolve_right ?_)
      simp [here]
  · intro k waits
    obtain rfl : s.forked = k := PC.waitpid.inj waits
    exact ⟨Nat.lt_succ_self _, by simp⟩

theorem Inv.waitpid {pid : Nat} {children : Children} (inv : Inv touches below lines s) (here : s.pc = .waitpid pid)
    (waits : WaitPid s.children (some pid) children) :
    Inv touches below lines { s with pc := .read, children := children } := by
  obtain ⟨inside, unreaped⟩ := inv.waiting pid here
  have present : s.children pid ≠ .absent := by
    rw [Ne, inv.absent pid]
    omega
  have counted := inv.counted
  rw [if_neg (by simp [here])] at counted
  rcases waits.reaps with ⟨k, same, _, _, rfl⟩ | ⟨rfl, gone⟩
  · obtain rfl := same pid rfl
    refine ⟨inv.read, fun _ => inv.running (by simp [here]), ?_, ?_, ?_, counted⟩
    · intro k
      rw [absent_update_reaped present, inv.absent k]
    · intro k below
      by_cases this : k = pid
      · subst this
        exact .inl (by simp)
      · simp only [Function.update_of_ne this]
        refine .inl ((inv.reaped k below).resolve_right ?_)
        rw [here]
        exact fun other => this (PC.waitpid.inj other).symm
    · intro k waits
      cases waits
  · rcases gone pid (.inr rfl) with absent | reaped
    · exact absurd absent present
    · exact absurd reaped unreaped

theorem inv_step (inv : Inv touches below lines s) (step : Step touches below s t) : Inv touches below lines t := by
  have moves : ∀ pc, (∀ k, pc ≠ .waitpid k) → pc ≠ .fork → (∀ k, s.pc ≠ .waitpid k) → s.shell.running = true →
      Inv touches below lines { s with pc := pc } := by
    intro pc noWait noFork free running
    have counted := inv.counted
    refine ⟨inv.read, fun _ => running, inv.absent, ?_, ?_, ?_⟩
    · intro k inside
      exact .inl ((inv.reaped k inside).resolve_right (free k))
    · intro k waits
      exact absurd waits (noWait k)
    · show s.forked + (if pc = .fork then 1 else 0) ≤ s.shell.actions.countP isExternal
      rw [if_neg noFork]
      omega
  cases step with
  | child children lines lives shares => exact inv.child lives shares
  | parse line lines shell here more parses => exact inv.parse here more parses
  | crash line lines e here more fails =>
    exact moves _ (by simp) (by simp) (by simp [here]) (inv.running (by simp [here]))
  | endOfFile here none => exact moves _ (by simp) (by simp) (by simp [here]) (inv.running (by simp [here]))
  | fork here => exact inv.fork here
  | forkFails here => exact moves _ (by simp) (by simp) (by simp [here]) (inv.running (by simp [here]))
  | waitpid pid children here waits => exact inv.waitpid here waits

theorem inv_of_reachable (run : Reachable (Step touches below) (start lines) s) : Inv touches below lines s :=
  run.invariant (start_inv touches below lines) fun _ _ inv step => inv_step inv step

/-- In every interleaving of the shell and its children: the shell is where `repl` is behind the lines it has
    read, which are those of its input in order where no child touches that; a child is running or unreaped only
    while the shell waits for it, so that no two commands run at a time and none is left behind; and no child is
    forked that is not for a command. -/
theorem foreground (run : Reachable (Step touches below) (start lines) s) :
    (∃ done, Ends (repl · below init done) (.ok s.shell) ∧ (Untouched touches → lines = done ++ s.lines)) ∧
    (∀ k, s.children k = .absent ∨ s.children k = .reaped ∨ s.pc = .waitpid k) ∧
    (∀ k, s.children k = .absent ↔ s.forked ≤ k) ∧ s.forked ≤ s.shell.actions.countP isExternal := by
  have inv := inv_of_reachable run
  refine ⟨inv.read, ?_, inv.absent, ?_⟩
  · intro k
    by_cases outside : s.forked ≤ k
    · exact .inl ((inv.absent k).mpr outside)
    · exact .inr (inv.reaped k (by omega))
  · have counted := inv.counted
    omega

theorem parse_ls (below : Char) : Ends (parse · below init "ls\n".toList)
    (.ok (init.forked "ls".toList 1 [some "ls".toList, none])) := by
  have said : Says "ls\n".toList (.command "ls".toList) :=
    ⟨[], "ls".toList, ['\n'], by decide, by decide, by decide,
      .command _ (by decide) (by decide) (by decide) (by decide) (by decide +kernel)⟩
  obtain ⟨text, spells, parses⟩ := parse_said said
  cases spells with
  | command _ free trimmed nonempty other plain =>
    have tokens : fetched "ls".toList = [⟨"ls".toList, .arg⟩] := by decide +kernel
    have unbound : symtabLookup init.symtab "ls".toList = none := by decide
    have runs : Runs init 1 [some "ls".toList, none] (init.forked "ls".toList 1 [some "ls".toList, none]) :=
      .external "ls".toList rfl (by rw [unbound]; exact fun _ found => by cases found)
    simp only [parses, other]
    apply dispatch_ends free (settles_of_noEscape plain) nonempty
    rw [tokens]
    exact runs

theorem foreground_ls : ∃ s, Reachable (Step Eq NUL) (start ["ls\n".toList]) s ∧ s.children 0 = .running false ∧
    (∀ k, s.children k = .absent ∨ s.children k = .reaped ∨ s.pc = .waitpid k) := by
  have first : Reachable (Step Eq NUL) (start ["ls\n".toList]) (start ["ls\n".toList]) := .refl
  have run := (first.next (.parse _ _ _ rfl rfl (parse_ls NUL))).next (.fork rfl)
  exact ⟨_, run, by simp [start], (foreground run).2.1⟩

def Settled (run : Nat → Except (Stop Fault) Shell) : Prop :=
  (∃ shell, Ends run (.ok shell)) ∨ (∃ e, Ends run (.error (.fault e))) ∨ Hangs run

theorem settled_of_ends {run : Nat → Except (Stop Fault) Shell} (result : Except Fault Shell)
    (ends : Ends run (result.mapError .fault)) : Settled run := by
  cases result with
  | ok shell => exact .inl ⟨shell, ends⟩
  | error e => exact .inr (.inl ⟨e, ends⟩)

theorem settled_fetch (free : NulFree cmd) (next : List Token × Nat → Except (Stop Fault) Shell)
    (sure : ∀ tokens, ∃ result : Except Fault Shell, next tokens = result.mapError .fault) :
    Settled fun fuel => fetch fuel cmd >>= next := by
  by_cases settles : Settles cmd
  · obtain ⟨result, same⟩ := sure (fetched cmd, (fetched cmd).length)
    have ends := (fetch_of_settles free settles).bind (Ends.const (next (fetched cmd, (fetched cmd).length)))
    rw [same] at ends
    exact settled_of_ends result ends
  · refine .inr (.inr ?_)
    intro fuel
    simp only [fetch_hangs free settles fuel, Bind.bind, Except.bind]

theorem settled_assign (free : NulFree cmd) (shell : Shell) : Settled (assign · shell cmd) := by
  apply settled_fetch free
  intro tokens
  cases first : tokens.1[0]? with
  | none => exact ⟨.error .tokenRange, by simp only [first]; rfl⟩
  | some name =>
    cases third : tokens.1[2]? with
    | none => exact ⟨.error .tokenRange, by simp only [first, third]; rfl⟩
    | some value => exact ⟨shell.set name.value (.var value.value), by simp only [first, third]⟩

theorem settled_dispatch (free : NulFree cmd) (shell : Shell) : Settled (dispatch · shell cmd) := by
  by_cases nothing : cmd = []
  · apply settled_of_ends (.ok shell)
    simp only [dispatch, if_pos nothing]
    exact Ends.const _
  · simp only [dispatch, if_neg nothing]
    exact settled_fetch free _ fun tokens => ⟨runCommand shell tokens.2 (argvOf tokens.1), rfl⟩

theorem settled_parse (below : Char) (shell : Shell) (line : Str) : Settled (parse · below shell line) := by
  cases trimmed : trimLine below line with
  | none =>
    apply settled_of_ends (.error .underrun)
    simp only [parse, trimmed]
    exact Ends.const _
  | some cmd =>
    obtain rfl := trimLine_some trimmed
    have free := nulFree_strip (cstr_terminated line).1
    simp only [parse, trimmed]
    cases assignment.search (strip (cstr line 0)) with
    | true => exact settled_assign free shell
    | false => exact settled_dispatch free shell

def stepsOf : Life → Nat
  | .running execed => if execed then 1 else 2
  | .absent | .terminated _ | .reaped => 0

/-- The steps that are left: five for a line, and those that its command has not made. -/
def State.left (s : State) : Nat :=
  5 * s.lines.length + match s.pc with
    | .read => 1
    | .fork => 5
    | .waitpid pid => 2 + stepsOf (s.children pid)
    | .exited => 0
    | .crashed => 0

theorem behind_left (shell shell' : Shell) (lines : List Str) (forked : Nat) (children : Children) :
    State.left ⟨behind shell shell', shell', lines, forked, children⟩ ≤ 5 * lines.length + 5 := by
  rcases behind_cases shell shell' with place | place | place <;>
  · simp only [State.left, place]
    omega

theorem Inv.waits (inv : Inv touches below lines s) {k : Nat} {execed : Bool} (runs : s.children k = .running execed) :
    s.pc = .waitpid k := by
  have inside : k < s.forked := by
    by_contra outside
    have absent := (inv.absent k).mpr (by omega)
    rw [runs] at absent
    cases absent
  refine (inv.reaped k inside).resolve_left ?_
  rw [runs]
  exact fun same => by cases same

theorem left_step (untouched : Untouched touches) (inv : Inv touches below lines s) (step : Step touches below s t) :
    t.left < s.left := by
  cases step with
  | child children lines lives shares =>
    obtain rfl : lines = s.lines := shares.elim id (untouched _ _)
    cases lives with
    | exec k runs =>
      simp only [State.left, inv.waits runs, Function.update_self, runs, stepsOf]
      simp
    | terminate k execed runs =>
      simp only [State.left, inv.waits runs, Function.update_self, runs, stepsOf]
      cases execed <;> simp
  | parse line rest shell here more parses =>
    have bound := behind_left s.shell shell rest s.forked s.children
    have before : s.left = 5 * (rest.length + 1) + 1 := by
      simp only [State.left, here, more, List.length_cons]
    omega
  | crash line rest e here more fails =>
    simp only [State.left, here]
    omega
  | endOfFile here none =>
    simp only [State.left, here]
    omega
  | fork here =>
    simp only [State.left, here, Function.update_self, stepsOf]
    simp
  | forkFails here =>
    simp only [State.left, here]
    omega
  | waitpid pid children here waits =>
    simp only [State.left, here]
    omega

theorem hangs_not_ends {run : Nat → Except (Stop Fault) Shell} (hangs : Hangs run) (result : Except Fault Shell)
    (ends : Ends run (result.mapError .fault)) : False := by
  have same := ends.unique ⟨0, fun fuel _ => hangs fuel⟩
  cases result <;> cases same

theorem stuck_iff (inv : Inv touches below lines s) : Stuck (Step touches below) s ↔ s.pc = .exited ∨ s.pc = .crashed ∨
    s.pc = .read ∧ ∃ line rest, s.lines = line :: rest ∧ Hangs (parse · below s.shell line) := by
  constructor
  · intro stuck
    cases here : s.pc with
    | exited => exact .inl rfl
    | crashed => exact .inr (.inl rfl)
    | fork => exact absurd (.forkFails here) (stuck _)
    | read =>
      cases more : s.lines with
      | nil => exact absurd (.endOfFile here more) (stuck _)
      | cons line rest =>
        rcases settled_parse below s.shell line with ⟨shell, ends⟩ | ⟨e, ends⟩ | hangs
        · exact absurd (.parse line rest shell here more ends) (stuck _)
        · exact absurd (.crash line rest e here more ends) (stuck _)
        · exact .inr (.inr ⟨rfl, line, rest, rfl, hangs⟩)
    | waitpid pid =>
      obtain ⟨inside, unreaped⟩ := inv.waiting pid here
      cases life : s.children pid with
      | absent =>
        have outside := (inv.absent pid).mp life
        omega
      | reaped => exact absurd life unreaped
      | running execed => exact absurd (.child _ _ (.terminate pid execed life) (.inl rfl)) (stuck _)
      | terminated execed => exact absurd (.waitpid pid _ here (.reap pid execed life)) (stuck _)
  · intro ended t step
    have alive : ∀ k, s.pc ≠ .waitpid k := by
      intro k waits
      rcases ended with done | done | ⟨done, _⟩ <;> rw [done] at waits <;> cases waits
    have busy : s.pc ≠ .fork := by
      intro forks
      rcases ended with done | done | ⟨done, _⟩ <;> rw [done] at forks <;> cases forks
    cases step with
    | child children lines lives shares =>
      cases lives with
      | exec k runs => exact alive k (inv.waits runs)
      | terminate k execed runs => exact alive k (inv.waits runs)
    | fork here => exact busy here
    | forkFails here => exact busy here
    | waitpid pid children here waits => exact alive pid here
    | parse line rest shell here more parses =>
      rw [here] at ended
      obtain ⟨_, line', rest', more', hangs⟩ := (ended.resolve_left (by simp)).resolve_left (by simp)
      obtain ⟨rfl, rfl⟩ := List.cons.inj (more.symm.trans more')
      exact hangs_not_ends hangs (.ok shell) parses
    | crash line rest e here more fails =>
      rw [here] at ended
      obtain ⟨_, line', rest', more', hangs⟩ := (ended.resolve_left (by simp)).resolve_left (by simp)
      obtain ⟨rfl, rfl⟩ := List.cons.inj (more.symm.trans more')
      exact hangs_not_ends hangs (.error e) fails
    | endOfFile here none =>
      rw [here] at ended
      obtain ⟨_, line', rest', more', _⟩ := (ended.resolve_left (by simp)).resolve_left (by simp)
      rw [none] at more'
      cases more'

/-- Where no child touches the standard input, the shell and its children make at most five steps for each line,
    and can go on until the shell has exited or crashed, or comes to a line on which `parse` hangs. -/
theorem foreground_ends (untouched : Untouched touches) (run : Takes (Step touches below) (start lines) n s) :
    n ≤ 5 * lines.length + 1 ∧
    (Stuck (Step touches below) s ↔ s.pc = .exited ∨ s.pc = .crashed ∨
      s.pc = .read ∧ ∃ line rest, s.lines = line :: rest ∧ Hangs (parse · below s.shell line)) := by
  have falls : ∀ s t, Reachable (Step touches below) (start lines) s → Step touches below s t → t.left < s.left :=
    fun s t run step => left_step untouched (inv_of_reachable run) step
  have bound := run.bounded falls
  have first : (start lines).left = 5 * lines.length + 1 := rfl
  exact ⟨by omega, stuck_iff (inv_of_reachable run.reachable)⟩

theorem foreground_ends_ls : ∃ s, Takes (Step Eq NUL) (start ["ls\n".toList]) 6 s ∧ 6 ≤ 5 * ["ls\n".toList].length + 1 ∧
    (Stuck (Step Eq NUL) s ↔ s.pc = .exited ∨ s.pc = .crashed ∨
      s.pc = .read ∧ ∃ line rest, s.lines = line :: rest ∧ Hangs (parse · NUL s.shell line)) := by
  have first : Takes (Step Eq NUL) (start ["ls\n".toList]) 0 (start ["ls\n".toList]) := .refl
  have forked := (first.next (.parse _ _ _ rfl rfl (parse_ls NUL))).next (.fork rfl)
  have died := (forked.next (.child _ _ (.exec 0 rfl) (.inl rfl))).next (.child _ _ (.terminate 0 true rfl) (.inl rfl))
  have run := (died.next (.waitpid 0 _ rfl (.reap 0 true rfl))).next (.endOfFile rfl rfl)
  exact ⟨_, run, foreground_ends (fun _ _ => Eq.symm) run⟩

end OS2.Lsh.Foreground
