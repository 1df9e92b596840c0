import OS2.Pipeline.Wiring

namespace OS2.Pipeline

open OS2.Text OS2.Posix

variable {α : Type}

namespace Nested

def reached (cmd : Str) (below : List (Exec α)) : Option (Descriptors α) → List (Exec α)
  | some table => ⟨cmd, table⟩ :: below
  | none => below

/-- `run` of pipeline.c where the `pipe` or `fork` for the i-th command fails if `fails i`: then the caller
    exits with 1, and there is no table of it. -/
def tryRun (fails : Nat → Bool) : List Str → Bool → Nat → Descriptors α → List (Exec α) × Option (Descriptors α)
  | [], _, _, table => ([], some table)
  | cmd :: cmdlist, false, pipes, table =>
    if fails 0 then ([], none)
    else
      let (below, child) := tryRun fails cmdlist true pipes table
      (reached cmd below child, some table)
  | cmd :: cmdlist, true, pipes, table =>
    if fails (pipes + 1) then ([], none)
    else
      let (table, r, w) := table.pipe (.readEnd pipes) (.writeEnd pipes)
      let child := ((table.close w).dup2 r STDIN_FILENO).close r
      let (below, child) := tryRun fails cmdlist true (pipes + 1) child
      (reached cmd below child, some (((table.close r).dup2 w STDOUT_FILENO).close w))

def tryMain (fails : Nat → Bool) (cmds : List Str) (table : Descriptors α) : List (Exec α) × Nat :=
  if cmds.length + 1 < 2 then ([], 1)
  else
    match tryRun fails cmds false 0 table with
    | (execs, some _) => (execs, 0)
    | (execs, none) => (execs, 1)

end Nested

namespace Direct

/-- A passage of the loop of pipeline2.c; where `pipe` or `fork` fails the children so far are left. -/
def tryPass (fails : Nat → Bool) (cmds : List Str) (s : Main α) (i : Nat) : Except (List (Exec α)) (Main α) :=
  if fails i then .error s.children else .ok (pass cmds s i)

def tryFinish (fails : Nat → Bool) (cmds : List Str) (s : Main α) (i : Nat) : Except (List (Exec α)) (Main α) :=
  if fails i then .error s.children else .ok (finish cmds s i)

def tryMain (fails : Nat → Bool) (cmds : List Str) (table : Descriptors α) : List (Exec α) × Nat :=
  if cmds.length + 1 < 3 then ([], 1)
  else
    let count := cmds.length
    match (List.range (count - 1)).foldlM (tryPass fails cmds) (start table) >>=
        fun s => tryFinish fails cmds s (count - 1) with
    | .ok s => (s.children, 0)
    | .error children => (children, 1)

end Direct

variable {t : Descriptors α} {fails : Nat → Bool} {cmds : List Str}

theorem find_range_succ (test : Nat → Bool) (n : Nat) : (List.range (n + 1)).find? test =
    if test 0 then some 0 else ((List.range n).find? fun i => test (i + 1)).map (· + 1) := by
  rw [List.range_succ_eq_map, List.find?_cons, List.find?_map]
  cases test 0 <;> rfl

namespace Nested

theorem tryRun_cons (standard : Standard t) (cmd : Str) (cmdlist : List Str) (pipes : Nat) :
    tryRun fails (cmd :: cmdlist) true pipes t =
      if fails (pipes + 1) then ([], none)
      else
        let rest := tryRun fails cmdlist true (pipes + 1) (t.assign STDIN_FILENO (.readEnd pipes))
        (reached cmd rest.1 rest.2, some (t.assign STDOUT_FILENO (.writeEnd pipes))) := by
  obtain ⟨r, w, opened, freeR, freeW, other⟩ := t.pipe_fresh (.readEnd pipes) (.writeEnd pipes)
  have child := (keep_end (a := .readEnd pipes) (b := .writeEnd pipes) freeR freeW other STDIN_FILENO
    (standard 0 (by omega))).1
  have parent := (keep_end (a := .readEnd pipes) (b := .writeEnd pipes) freeR freeW other STDOUT_FILENO
    (standard 1 (by omega))).2
  rw [tryRun]
  simp only [opened, child, parent]

def caller (t : Descriptors α) (pipes : Nat) (cmds : List Str) : Option Nat → Option (Descriptors α)
  | some 0 => none
  | _ => some (if cmds = [] then t else t.assign STDOUT_FILENO (.writeEnd pipes))

def cut (execs : List (Exec α)) : Option Nat → List (Exec α)
  | none => execs
  | some k => execs.take (k - 1)

theorem tryRun_stages (standard : Standard t) (pipes : Nat) :
    tryRun fails cmds true pipes t =
      (cut (stages t pipes cmds) ((List.range cmds.length).find? fun i => fails (pipes + 1 + i)),
        caller t pipes cmds ((List.range cmds.length).find? fun i => fails (pipes + 1 + i))) := by
  induction cmds generalizing pipes t with
  | nil => rfl
  | cons cmd cmdlist ih =>
    have later : (fun i => fails (pipes + 1 + (i + 1))) = fun i => fails (pipes + 1 + 1 + i) := by
      funext i
      rw [Nat.add_assoc (pipes + 1), Nat.add_comm 1 i]
    rw [tryRun_cons standard, ih (standard.assign _ _), List.length_cons, find_range_succ, later]
    simp only [Nat.add_zero]
    by_cases here : fails (pipes + 1) = true
    · rw [if_pos here, if_pos here]
      rfl
    · rw [if_neg here, if_neg here, stages_cons]
      cases found : (List.range cmdlist.length).find? fun i => fails (pipes + 1 + 1 + i) with
      | none =>
        by_cases last : cmdlist = []
        · subst last
          simp [caller, cut, reached, wire]
        · simp [caller, cut, reached, wire, last]
      | some k =>
        cases k with
        | zero => simp [caller, cut, reached]
        | succ k =>
          have more : cmdlist ≠ [] := by
            rintro rfl
            cases found
          simp [caller, cut, reached, wire, more]

theorem pipeline_cons (t : Descriptors α) (first next : Str) (cmdlist : List Str) :
    pipeline t (first :: next :: cmdlist) =
      ⟨first, t.assign STDOUT_FILENO (.writeEnd 0)⟩ :: stages t 0 (next :: cmdlist) := by
  rw [pipeline, List.mapIdx_cons, stages]
  simp [wire]

theorem tryMain_eq (standard : Standard t) (several : 2 ≤ cmds.length) :
    tryMain fails cmds t =
      match (List.range cmds.length).find? fails with
      | none => (pipeline t cmds, 0)
      | some k => ((pipeline t cmds).take (k - 1), if k = 0 then 1 else 0) := by
  match cmds with
  | [] => simp at several
  | [first] => simp at several
  | first :: next :: cmdlist =>
    have enough : ¬ (first :: next :: cmdlist).length + 1 < 2 := by simp
    have later : (fun i => fails (i + 1)) = fun i => fails (0 + 1 + i) := by
      funext i
      rw [Nat.zero_add, Nat.add_comm]
    rw [tryMain, if_neg enough, tryRun, List.length_cons, find_range_succ, later, pipeline_cons]
    by_cases here : fails 0 = true
    · rw [if_pos here, if_pos here]
      rfl
    · rw [if_neg here, if_neg here, tryRun_stages standard]
      cases (List.range (next :: cmdlist).length).find? fun i => fails (0 + 1 + i) with
      | none => simp [caller, cut, reached]
      | some k =>
        cases k with
        | zero => simp [caller, cut, reached]
        | succ k => simp [caller, cut, reached]

end Nested

namespace Direct

theorem tryPasses (s : Main α) (n : Nat) :
    (List.range n).foldlM (tryPass fails cmds) s =
      match (List.range n).find? fails with
      | none => .ok ((List.range n).foldl (pass cmds) s)
      | some k => .error ((List.range k).foldl (pass cmds) s).children := by
  induction n with
  | zero => rfl
  | succ n ih =>
    rw [List.range_succ, List.foldlM_append, ih, List.find?_append, List.foldl_append]
    cases (List.range n).find? fails with
    | some k => rfl
    | none =>
      rw [Option.none_or, List.find?_singleton]
      simp only [List.foldlM_cons, List.foldlM_nil, Bind.bind, Except.bind, tryPass, List.foldl_cons, List.foldl_nil]
      cases fails n <;> rfl

theorem children_take (standard : Standard t) {k : Nat} (bound : k < cmds.length) :
    ((List.range k).foldl (pass cmds) (start t)).children = (pipeline t cmds).take k := by
  cases k with
  | zero => rfl
  | succ k =>
    rw [(passes standard k bound).children, pipeline_eq_map, ← List.map_take, List.take_range,
      Nat.min_eq_left (Nat.le_of_lt bound)]

theorem tryMain_eq (standard : Standard t) (several : 2 ≤ cmds.length) :
    tryMain fails cmds t =
      match (List.range cmds.length).find? fails with
      | none => (pipeline t cmds, 0)
      | some k => ((pipeline t cmds).take k, 1) := by
  have enough : ¬ cmds.length + 1 < 3 := by omega
  obtain ⟨i, last⟩ : ∃ i, cmds.length = i + 1 + 1 := ⟨cmds.length - 2, by omega⟩
  have done := (finish_restores standard (passes standard i (by omega)) last.symm).2
  have prefixes := fun k (bound : k < i + 1 + 1) => children_take standard (last.symm ▸ bound : k < cmds.length)
  simp only [tryMain, if_neg enough, tryPasses]
  rw [last, List.range_succ (n := i + 1), List.find?_append, Nat.add_sub_cancel]
  cases found : (List.range (i + 1)).find? fails with
  | some k =>
    have inside := List.mem_range.mp (List.mem_of_find?_eq_some found)
    have taken := prefixes k (by omega)
    simp only [Option.some_or, Bind.bind, Except.bind, taken]
  | none =>
    rw [Option.none_or, List.find?_singleton]
    have taken := prefixes (i + 1) (by omega)
    simp only [Bind.bind, Except.bind, tryFinish]
    cases fails (i + 1) with
    | true => simp only [if_true, taken]
    | false => simp [done]

end Direct

/-- Where the `pipe` or the `fork` for a command is the first to fail, pipeline2.c leaves the commands in front
    of it running and says so; pipeline.c loses the one in front of it as well, and its exit status
    is 0 unless it was the first. What runs is wired as in the whole pipeline. -/
theorem pipelines_cut (standard : Standard t) (several : 2 ≤ cmds.length) (fails : Nat → Bool) :
    match (List.range cmds.length).find? fails with
    | none => Direct.tryMain fails cmds t = (pipeline t cmds, 0) ∧ Nested.tryMain fails cmds t = (pipeline t cmds, 0)
    | some k => Direct.tryMain fails cmds t = ((pipeline t cmds).take k, 1) ∧
        Nested.tryMain fails cmds t = ((pipeline t cmds).take (k - 1), if k = 0 then 1 else 0) := by
  have direct := @Direct.tryMain_eq _ _ fails _ standard several
  have nested := @Nested.tryMain_eq _ _ fails _ standard several
  cases found : (List.range cmds.length).find? fails with
  | none =>
    rw [found] at direct nested
    exact ⟨direct, nested⟩
  | some k =>
    rw [found] at direct nested
    exact ⟨direct, nested⟩

theorem pipelines_cut_second :
    Direct.tryMain (· == 1) ["uname".toList, "cat".toList, "wc".toList] (terminal.map .initial) =
        ((pipeline (terminal.map .initial) ["uname".toList, "cat".toList, "wc".toList]).take 1, 1) ∧
      Nested.tryMain (· == 1) ["uname".toList, "cat".toList, "wc".toList] (terminal.map .initial) = ([], 0) := by
  have standard : Standard (terminal.map (Object.initial (α := String))) := by
    intro fd bound
    simp [terminal, bound]
  have several : 2 ≤ ["uname".toList, "cat".toList, "wc".toList].length := by decide
  exact pipelines_cut standard several (· == 1)

end OS2.Pipeline
