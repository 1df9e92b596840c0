import OS2.Pipeline.Programs
import Mathlib.Data.List.Basic

namespace OS2.Pipeline

open OS2.Text OS2.Posix

variable {α : Type}

/-- The table of the i-th of `count` commands: the read end of the pipe in front of it, the write end of
    the pipe behind it, and nothing else that `t` does not have. -/
def wire (t : Descriptors α) (count i : Nat) : Descriptors α :=
  let t := if i = 0 then t else t.assign STDIN_FILENO (.readEnd (i - 1))
  if i + 1 = count then t else t.assign STDOUT_FILENO (.writeEnd i)

def pipeline (t : Descriptors α) (cmds : List Str) : List (Exec α) :=
  cmds.mapIdx fun i cmd => ⟨cmd, wire t cmds.length i⟩

def Standard (t : Table α) : Prop := ∀ fd, fd < 3 → (t.entry fd).isSome = true

theorem Standard.assign {t : Table α} (standard : Standard t) (fd : Nat) (x : α) : Standard (t.assign fd x) := by
  intro other bound
  rw [Table.entry_assign]
  split
  · rfl
  · exact standard other bound

variable {t : Descriptors α} {r w : Nat} {a b : Object α}

theorem Standard.ne_free (standard : Standard t) {fd : Nat} (free : t.entry fd = none) : fd ≠ 0 ∧ fd ≠ 1 :=
  ⟨(Table.ne_of_free free (standard 0 (by omega))).symm, (Table.ne_of_free free (standard 1 (by omega))).symm⟩

theorem keep_end (freeR : t.entry r = none) (freeW : t.entry w = none) (other : r ≠ w) (fd : Nat)
    (opened : (t.entry fd).isSome = true) :
    (((((t.assign r a).assign w b).close w).dup2 r fd).close r) = t.assign fd a ∧
    (((((t.assign r a).assign w b).close r).dup2 w fd).close w) = t.assign fd b := by
  have noR : fd ≠ r := Table.ne_of_free freeR opened
  have noW : fd ≠ w := Table.ne_of_free freeW opened
  constructor
  · have found : (((t.assign r a).assign w b).close w).entry r = some a := by simp [other]
    rw [Table.dup2_open found]
    ext1 k
    simp only [Table.entry_close, Table.entry_assign]
    grind
  · have found : (((t.assign r a).assign w b).close r).entry w = some b := by simp [other.symm]
    rw [Table.dup2_open found]
    ext1 k
    simp only [Table.entry_close, Table.entry_assign]
    grind

theorem pipeline_eq_map (t : Descriptors α) (cmds : List Str) :
    pipeline t cmds = (List.range cmds.length).map fun i => ⟨cmds.getD i [], wire t cmds.length i⟩ := by
  apply List.ext_getElem
  · simp [pipeline]
  · intro i bound _
    have inside : i < cmds.length := by simpa [pipeline] using bound
    simp [pipeline, inside]

theorem wire_assign (t : Descriptors α) (x : Object α) (count i : Nat) :
    wire (t.assign STDIN_FILENO x) count (i + 1) = wire t count (i + 1) := by
  simp [wire]

namespace Nested

def stages (t : Descriptors α) (pipes : Nat) (cmds : List Str) : List (Exec α) :=
  cmds.mapIdx fun i cmd => ⟨cmd, wire t (pipes + cmds.length + 1) (pipes + i + 1)⟩

theorem stages_cons (t : Descriptors α) (pipes : Nat) (cmd : Str) (cmdlist : List Str) :
    stages t pipes (cmd :: cmdlist) =
      ⟨cmd, wire t (pipes + cmdlist.length + 2) (pipes + 1)⟩ ::
        stages (t.assign STDIN_FILENO (.readEnd pipes)) (pipes + 1) cmdlist := by
  have later : ∀ i, wire t (pipes + (cmdlist.length + 1) + 1) (pipes + (i + 1) + 1) =
      wire (t.assign STDIN_FILENO (.readEnd pipes)) (pipes + 1 + cmdlist.length + 1) (pipes + 1 + i + 1) := by
    intro i
    rw [wire_assign, show pipes + (cmdlist.length + 1) + 1 = pipes + 1 + cmdlist.length + 1 by omega,
      show pipes + (i + 1) + 1 = pipes + 1 + i + 1 by omega]
  simp only [stages, List.mapIdx_cons, List.length_cons, later]
  rfl

theorem run_cons (standard : Standard t) (cmd : Str) (cmdlist : List Str) (pipes : Nat) :
    run (cmd :: cmdlist) true pipes t =
      (⟨cmd, (run cmdlist true (pipes + 1) (t.assign STDIN_FILENO (.readEnd pipes))).2⟩ ::
        (run cmdlist true (pipes + 1) (t.assign STDIN_FILENO (.readEnd pipes))).1,
      t.assign STDOUT_FILENO (.writeEnd pipes)) := by
  obtain ⟨r, w, opened, freeR, freeW, other⟩ := t.pipe_fresh (.readEnd pipes) (.writeEnd pipes)
  have child := (keep_end (a := .readEnd pipes) (b := .writeEnd pipes) freeR freeW other STDIN_FILENO
    (standard 0 (by omega))).1
  have parent := (keep_end (a := .readEnd pipes) (b := .writeEnd pipes) freeR freeW other STDOUT_FILENO
    (standard 1 (by omega))).2
  simp only [run, opened, child, parent]

theorem run_stages (standard : Standard t) (cmd : Str) (cmdlist : List Str) (pipes : Nat) :
    run (cmd :: cmdlist) true pipes t =
      (stages t pipes (cmd :: cmdlist), t.assign STDOUT_FILENO (.writeEnd pipes)) := by
  induction cmdlist generalizing cmd pipes t with
  | nil =>
    rw [run_cons standard, stages_cons]
    simp [run, stages, wire]
  | cons next cmdlist ih =>
    rw [run_cons standard, ih (standard.assign _ _), stages_cons t]
    simp [wire]

theorem main_pipeline (standard : Standard t) {cmds : List Str} (several : 2 ≤ cmds.length) :
    main cmds t = some (pipeline t cmds, t) := by
  cases cmds with
  | nil => simp at several
  | cons first cmds =>
    cases cmds with
    | nil => simp at several
    | cons next cmdlist =>
      have enough : ¬ (first :: next :: cmdlist).length + 1 < 2 := by simp
      have behind : pipeline t (first :: next :: cmdlist) =
          ⟨first, t.assign STDOUT_FILENO (.writeEnd 0)⟩ :: stages t 0 (next :: cmdlist) := by
        rw [pipeline, List.mapIdx_cons, stages]
        simp [wire]
      rw [main, if_neg enough, run, run_stages standard, behind]

end Nested

namespace Direct

structure Between (t : Descriptors α) (cmds : List Str) (i : Nat) (s : Main α) : Prop where
  table : s.table = t.assign (s.pipefds i).1 (.readEnd i)
  freeRead : t.entry (s.pipefds i).1 = none
  freeWrite : t.entry (s.pipefds i).2 = none
  distinct : (s.pipefds i).1 ≠ (s.pipefds i).2
  children : s.children = (List.range (i + 1)).map fun j => ⟨cmds.getD j [], wire t cmds.length j⟩

theorem run_first (standard : Standard t) (freeR : t.entry r = none) (freeW : t.entry w = none) (other : r ≠ w)
    (cmd : Str) :
    run cmd w STDIN_FILENO r ((t.assign r a).assign w b) = ⟨cmd, t.assign STDOUT_FILENO b⟩ := by
  have kept := (keep_end (a := a) (b := b) freeR freeW other STDOUT_FILENO (standard 1 (by omega))).2
  have stdout : w ≠ STDOUT_FILENO := (standard.ne_free freeW).2
  simp only [run, ne_eq, not_true_eq_false, if_false, stdout, not_false_eq_true, if_true, kept]

theorem run_middle (standard : Standard t) {q : Nat} {c : Object α} (freeQ : t.entry q = none)
    (freeR : (t.assign q c).entry r = none) (freeW : (t.assign q c).entry w = none) (other : r ≠ w) (cmd : Str) :
    run cmd w q r (((t.assign q c).assign r a).assign w b) =
      ⟨cmd, (t.assign STDIN_FILENO c).assign STDOUT_FILENO b⟩ := by
  have stdin : q ≠ STDIN_FILENO := (standard.ne_free freeQ).1
  have extended : Standard (t.assign q c) := standard.assign q c
  have noR : q ≠ r := Table.ne_of_free freeR (by simp)
  have noW : q ≠ w := Table.ne_of_free freeW (by simp)
  have moved : ((((t.assign q c).assign r a).assign w b).close r).entry q = some c := by simp [noR, noW]
  have stdinW : w ≠ STDIN_FILENO := (extended.ne_free freeW).1
  have stdoutW : w ≠ STDOUT_FILENO := (extended.ne_free freeW).2
  have movedW : ((((((t.assign q c).assign r a).assign w b).close r).assign STDIN_FILENO c).close q).entry w =
      some b := by
    simp [noW.symm, stdinW, other.symm]
  simp only [run, ne_eq, stdin, not_false_eq_true, if_true, stdoutW, Table.dup2_open moved, Table.dup2_open movedW]
  have closedR := Table.ne_of_free freeR (extended 0 (by omega))
  have closedR' := Table.ne_of_free freeR (extended 1 (by omega))
  congr 1
  ext1 k
  simp only [Table.entry_close, Table.entry_assign, STDIN_FILENO, STDOUT_FILENO] at *
  grind

theorem run_last (standard : Standard t) {q closed : Nat} {c : Object α} (freeQ : t.entry q = none)
    (freeClosed : t.entry closed = none) (other : q ≠ closed) (cmd : Str) :
    run cmd STDOUT_FILENO q closed (t.assign q c) = ⟨cmd, t.assign STDIN_FILENO c⟩ := by
  have stdin : q ≠ STDIN_FILENO := (standard.ne_free freeQ).1
  have moved : ((t.assign q c).close closed).entry q = some c := by simp [other]
  simp only [run, ne_eq, stdin, not_false_eq_true, if_true, Table.dup2_open moved, not_true_eq_false, if_false]
  congr 1
  ext1 k
  simp only [Table.entry_close, Table.entry_assign]
  grind

theorem pass_first (standard : Standard t) {cmds : List Str} (several : 2 ≤ cmds.length) :
    Between t cmds 0 (pass cmds (start t) 0) := by
  obtain ⟨r, w, opened, freeR, freeW, other⟩ := t.pipe_fresh (.readEnd 0) (.writeEnd 0)
  have child := run_first (a := .readEnd 0) (b := .writeEnd 0) standard freeR freeW other (cmds.getD 0 [])
  have wired : wire t cmds.length 0 = t.assign STDOUT_FILENO (.writeEnd 0) := by
    have notLast : ¬ 0 + 1 = cmds.length := by omega
    simp only [wire, if_true, if_neg notLast]
  have shape : pass cmds (start t) 0 =
      { table := t.assign r (.readEnd 0), pipefds := Function.update (fun _ => (0, 0)) 0 (r, w),
        children := [⟨cmds.getD 0 [], wire t cmds.length 0⟩] } := by
    have parent : ((t.assign r (.readEnd 0)).assign w (.writeEnd 0)).close w = t.assign r (.readEnd 0) := by
      ext1 k
      simp only [Table.entry_close, Table.entry_assign]
      grind
    simp only [pass, start, opened, Function.update_self, if_true, child, parent, wired, List.nil_append,
      Nat.lt_irrefl, if_false]
  rw [shape]
  exact ⟨by simp, by simpa using freeR, by simpa using freeW, by simpa using other, rfl⟩

theorem pass_next (standard : Standard t) {cmds : List Str} {i : Nat} {s : Main α} (between : Between t cmds i s)
    (more : i + 2 < cmds.length) : Between t cmds (i + 1) (pass cmds s (i + 1)) := by
  obtain ⟨r, w, opened, freeR, freeW, other⟩ := s.table.pipe_fresh (.readEnd (i + 1)) (.writeEnd (i + 1))
  rw [between.table] at opened freeR freeW
  have child := run_middle (a := .readEnd (i + 1)) (b := .writeEnd (i + 1)) standard between.freeRead freeR freeW other
    (cmds.getD (i + 1) [])
  have wired : wire t cmds.length (i + 1) =
      (t.assign STDIN_FILENO (.readEnd i)).assign STDOUT_FILENO (.writeEnd (i + 1)) := by
    have notLast : ¬ i + 1 + 1 = cmds.length := by omega
    simp [wire, notLast]
  have noR : (s.pipefds i).1 ≠ r := Table.ne_of_free freeR (by simp)
  have noW : (s.pipefds i).1 ≠ w := Table.ne_of_free freeW (by simp)
  have parent : ((((t.assign (s.pipefds i).1 (.readEnd i)).assign r (.readEnd (i + 1))).assign w
      (.writeEnd (i + 1))).close w).close (s.pipefds i).1 = t.assign r (.readEnd (i + 1)) := by
    have free := between.freeRead
    ext1 k
    simp only [Table.entry_close, Table.entry_assign] at *
    grind
  have shape : pass cmds s (i + 1) =
      { table := t.assign r (.readEnd (i + 1)), pipefds := Function.update s.pipefds (i + 1) (r, w),
        children := s.children ++ [⟨cmds.getD (i + 1) [], wire t cmds.length (i + 1)⟩] } := by
    have earlier : Function.update s.pipefds (i + 1) (r, w) i = s.pipefds i :=
      Function.update_of_ne (by omega) _ _
    simp only [pass, between.table, opened, Function.update_self, Nat.add_sub_cancel, earlier, Nat.succ_ne_zero,
      if_false, child, Nat.succ_pos, if_true, parent, wired]
  have freeR' : t.entry r = none := by simpa [noR.symm] using freeR
  have freeW' : t.entry w = none := by simpa [noW.symm] using freeW
  rw [shape]
  refine ⟨by simp, by simpa using freeR', by simpa using freeW', by simpa using other, ?_⟩
  rw [between.children, List.range_succ (n := i + 1), List.map_append, List.map_singleton]

theorem passes (standard : Standard t) {cmds : List Str} (i : Nat) (bound : i + 2 ≤ cmds.length) :
    Between t cmds i ((List.range (i + 1)).foldl (pass cmds) (start t)) := by
  induction i with
  | zero => exact pass_first standard (by omega)
  | succ i ih =>
    rw [List.range_succ, List.foldl_append]
    exact pass_next standard (ih (by omega)) (by omega)

theorem finish_restores (standard : Standard t) {cmds : List Str} {i : Nat} {s : Main α}
    (between : Between t cmds i s) (last : i + 2 = cmds.length) :
    (finish cmds s (i + 1)).table = t ∧ (finish cmds s (i + 1)).children = pipeline t cmds := by
  have child := run_last (c := .readEnd i) standard between.freeRead between.freeWrite between.distinct
    (cmds.getD (i + 1) [])
  have wired : wire t cmds.length (i + 1) = t.assign STDIN_FILENO (.readEnd i) := by
    have isLast : i + 1 + 1 = cmds.length := by omega
    simp [wire, isLast]
  simp only [finish, Nat.add_sub_cancel, between.table, child, between.children, ← wired]
  constructor
  · have freeRead := between.freeRead
    have freeWrite := between.freeWrite
    ext1 k
    simp only [Table.entry_close, Table.entry_assign]
    grind
  · rw [pipeline_eq_map, ← last, List.range_succ (n := i + 1), List.map_append, List.map_singleton]

theorem main_pipeline (standard : Standard t) {cmds : List Str} (several : 2 ≤ cmds.length) :
    ∃ s, main cmds t = some s ∧ s.table = t ∧ s.children = pipeline t cmds := by
  obtain ⟨i, last⟩ : ∃ i, i + 2 = cmds.length := ⟨cmds.length - 2, by omega⟩
  have restored := finish_restores standard (passes standard i (by omega)) last
  have enough : ¬ cmds.length + 1 < 3 := by omega
  refine ⟨_, ?_, restored.1, restored.2⟩
  have count : cmds.length - 1 = i + 1 := by omega
  simp only [main, if_neg enough, count]

end Direct

/-- The processes of a pipeline at their `execl`, and the one that set it up: each command reads from the
    pipe in front of it, writes to the pipe behind it and has no other end of a pipe; the reader of a
    pipe meets its end when the command in front of it has exited, since nobody else can write. -/
structure Wired (initial : Table α) (cmds : List Str) (execs : List (Exec α)) (parent : Descriptors α) : Prop where
  commands : execs.map Exec.cmd = cmds
  stdin : ∀ (i : Nat) (exec : Exec α), execs[i]? = some exec → exec.table.entry STDIN_FILENO =
    if i = 0 then (initial.entry STDIN_FILENO).map .initial else some (.readEnd (i - 1))
  stdout : ∀ (i : Nat) (exec : Exec α), execs[i]? = some exec → exec.table.entry STDOUT_FILENO =
    if i + 1 = cmds.length then (initial.entry STDOUT_FILENO).map .initial else some (.writeEnd i)
  others : ∀ (i : Nat) (exec : Exec α), execs[i]? = some exec → ∀ fd, fd ≠ STDIN_FILENO → fd ≠ STDOUT_FILENO →
    exec.table.entry fd = (initial.entry fd).map .initial
  parent : ∀ fd, parent.entry fd = (initial.entry fd).map .initial
  eof : ∀ (i j : Nat) (exec : Exec α), j ≠ i → execs[j]? = some exec → ∀ fd, exec.table.entry fd ≠ some (.writeEnd i)

theorem wired_pipeline (initial : Table α) (cmds : List Str) :
    Wired initial cmds (pipeline (initial.map .initial) cmds) (initial.map .initial) := by
  have shape : ∀ i (exec : Exec α), (pipeline (initial.map .initial) cmds)[i]? = some exec →
      exec.table = wire (initial.map .initial) cmds.length i := by
    intro i exec found
    rw [pipeline, List.getElem?_mapIdx] at found
    obtain ⟨cmd, _, rfl⟩ := Option.map_eq_some_iff.mp found
    rfl
  have entry : ∀ fd i, (wire (initial.map Object.initial) cmds.length i).entry fd =
      if fd = STDOUT_FILENO ∧ i + 1 ≠ cmds.length then some (.writeEnd i)
      else if fd = STDIN_FILENO ∧ i ≠ 0 then some (.readEnd (i - 1)) else (initial.entry fd).map .initial := by
    intro fd i
    unfold wire
    split <;> split <;> simp only [Table.entry_assign, Table.entry_map] <;> grind
  refine ⟨?_, ?_, ?_, ?_, fun fd => rfl, ?_⟩
  · apply List.ext_getElem?
    intro i
    rw [List.getElem?_map, pipeline, List.getElem?_mapIdx]
    cases cmds[i]? <;> rfl
  · intro i exec found
    rw [shape i exec found, entry]
    by_cases first : i = 0 <;> simp [first, STDIN_FILENO, STDOUT_FILENO]
  · intro i exec found
    rw [shape i exec found, entry]
    by_cases last : i + 1 = cmds.length <;> simp [last, STDIN_FILENO, STDOUT_FILENO]
  · intro i exec found fd stdin stdout
    rw [shape i exec found, entry]
    simp [stdin, stdout]
  · intro i j exec other found fd
    rw [shape j exec found, entry]
    split
    · simpa using other
    · split
      · simp
      · cases initial.entry fd <;> simp

/-- Both programs build the same pipeline, and neither parent keeps an end of a pipe. -/
theorem pipelines_wired {initial : Table α} (standard : Standard initial) {cmds : List Str}
    (several : 2 ≤ cmds.length) :
    ∃ s execs parent, Direct.main cmds (initial.map .initial) = some s ∧
      Nested.main cmds (initial.map .initial) = some (execs, parent) ∧ s.children = execs ∧
      Wired initial cmds execs s.table ∧ Wired initial cmds execs parent := by
  have lifted : Standard (initial.map (Object.initial (α := α))) := by
    intro fd bound
    simpa using standard fd bound
  obtain ⟨s, direct, table, children⟩ := Direct.main_pipeline lifted several
  have wired := wired_pipeline initial cmds
  refine ⟨s, _, _, direct, Nested.main_pipeline lifted several, children, ?_, wired⟩
  rw [table]
  exact wired

def terminal : Table String where
  entry := fun fd => if fd < 3 then some "tty" else none
  finite := ⟨3, fun fd bound => if_neg (by omega)⟩

theorem pipelines_wired_uname_wc :
    ∃ s execs parent, Direct.main ["uname".toList, "wc".toList] (terminal.map .initial) = some s ∧
      Nested.main ["uname".toList, "wc".toList] (terminal.map .initial) = some (execs, parent) ∧
      s.children = execs ∧ Wired terminal ["uname".toList, "wc".toList] execs s.table ∧
      Wired terminal ["uname".toList, "wc".toList] execs parent :=
  pipelines_wired (fun fd bound => by simp [terminal, bound]) (Nat.le_refl 2)

end OS2.Pipeline
