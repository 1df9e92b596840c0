import OS2.Machine.Runs
import OS2.Posix.Children

namespace OS2.Pipeline.Waiting

open OS2.Machine OS2.Posix

inductive PC where
  | fork (i : Nat)
  | setpgid (i : Nat)
  | waitpid (i : Nat)
  | exited (status : Nat)
  deriving DecidableEq, Repr

/-- The children by their place in the pipeline, which stands for their pid; `none` in `pidlist` is -1. -/
structure State where
  pc : PC
  pidlist : Nat → Option Nat
  children : Children

def waitFrom (count i : Nat) : PC := if i < count then .waitpid i else .exited 0

def forkFrom (count i : Nat) : PC := if i < count then .fork i else waitFrom count 0

def start (count : Nat) : State :=
  { pc := forkFrom count 0, pidlist := fun _ => none, children := fun _ => .absent }

inductive Step (count : Nat) (s : State) : State → Prop where
  | child (children : Children) (lives : Lives s.children children) : Step count s { s with children := children }
  | giveUp (i : Nat) (here : s.pc = .fork i) : Step count s { s with pc := .exited 1 }
  | fork (i : Nat) (here : s.pc = .fork i) :
      Step count s { s with pc := .setpgid i, children := Function.update s.children i (.running false) }
  | setpgid (i : Nat) (here : s.pc = .setpgid i) :
      Step count s { s with
        pc := forkFrom count (i + 1)
        pidlist := Function.update s.pidlist i (if (s.children i).execed then none else some i) }
  | waitpid (i : Nat) (children : Children) (here : s.pc = .waitpid i)
      (waits : WaitPid s.children (s.pidlist i) children) :
      Step count s { s with pc := waitFrom count (i + 1), children := children }

def Waits (s : State) : Prop := s.pc = .exited 0 → ∀ k execed, s.children k ≠ .running execed

def SparesRecorded (count : Nat) (s t : State) : Prop :=
  ∀ i j k, s.pc = .waitpid i → s.pidlist i = none → i < j → j < count → s.pidlist j = some k →
    t.children k = .reaped → s.children k = .reaped

def Careful (count : Nat) (s t : State) : Prop := Step count s t ∧ SparesRecorded count s t

def Forked (n : Nat) (children : Children) : Prop := ∀ k, children k = .absent ↔ n ≤ k

/-- The children at each place of the parent, where no `waitpid(-1)` has taken one that is recorded. -/
def Accounts (count : Nat) (pidlist : Nat → Option Nat) (children : Children) : PC → Prop
  | .fork i => i < count ∧ Forked i children ∧ ∀ k, children k ≠ .reaped
  | .setpgid i => i < count ∧ Forked (i + 1) children ∧ ∀ k, children k ≠ .reaped
  | .waitpid i => i < count ∧ Forked count children ∧ reapedOf children count = i ∧
      ∀ j, i ≤ j → j < count → pidlist j = some j → children j ≠ .reaped
  | .exited status => status = 0 → Forked count children ∧ reapedOf children count = count

structure Accounted (count : Nat) (s : State) : Prop where
  recorded : ∀ k, s.pidlist k = none ∨ s.pidlist k = some k
  accounts : Accounts count s.pidlist s.children s.pc

variable {count i : Nat} {pidlist : Nat → Option Nat} {children children' : Children} {s t : State}

theorem accounts_waitFrom (bound : i ≤ count) (forked : Forked count children)
    (reaped : reapedOf children count = i)
    (spared : ∀ j, i ≤ j → j < count → pidlist j = some j → children j ≠ .reaped) :
    Accounts count pidlist children (waitFrom count i) := by
  unfold waitFrom
  split
  · exact ⟨by assumption, forked, reaped, spared⟩
  · intro _
    exact ⟨forked, by omega⟩

theorem accounts_forkFrom (bound : i ≤ count) (forked : Forked i children)
    (unreaped : ∀ k, children k ≠ .reaped) :
    Accounts count pidlist children (forkFrom count i) := by
  unfold forkFrom
  split
  · exact ⟨by assumption, forked, unreaped⟩
  · have all : i = count := by omega
    subst all
    exact accounts_waitFrom (Nat.zero_le _) forked (reapedOf_zero unreaped) fun j _ _ _ => unreaped j

theorem accounted_start (count : Nat) : Accounted count (start count) :=
  ⟨fun _ => .inl rfl, accounts_forkFrom (Nat.zero_le _) (by simp [Forked, start]) (by simp [start])⟩

theorem Accounts.child {pc : PC} (accounts : Accounts count pidlist children pc) (lives : Lives children children') :
    Accounts count pidlist children' pc := by
  have absent := fun k => (lives.kept k).1
  have reaped := fun k => (lives.kept k).2
  cases pc <;> simpa only [Accounts, Forked, ne_eq, absent, reaped, reapedOf_congr reaped] using accounts

theorem Accounts.waitpid (accounts : Accounts count pidlist children (.waitpid i))
    (recorded : ∀ k, pidlist k = none ∨ pidlist k = some k) (waits : WaitPid children (pidlist i) children')
    (spares : ∀ j k, pidlist i = none → i < j → j < count → pidlist j = some k → children' k = .reaped →
      children k = .reaped) : Accounts count pidlist children' (waitFrom count (i + 1)) := by
  obtain ⟨bound, forked, reaped, spared⟩ := accounts
  rcases waits.reaps with ⟨k, own, present, unreaped, rfl⟩ | ⟨rfl, gone⟩
  · have inside : k < count := by
      by_contra outside
      exact present ((forked k).mpr (by omega))
    apply accounts_waitFrom bound
    · intro j
      rw [absent_update_reaped present, forked j]
    · rw [reapedOf_reap inside unreaped, reaped]
    · intro j later below pid again
      have before : children j ≠ .reaped := spared j (by omega) below pid
      rcases recorded i with lost | holds
      · exact before (spares j j lost (by omega) below pid again)
      · have other : j ≠ k := by
          rw [← own i holds]
          omega
        rw [Function.update_of_ne other] at again
        exact before again
  · exfalso
    rcases recorded i with lost | own
    · have all : reapedOf children' count = count := reapedOf_eq_iff.mpr fun k below => by
        refine (gone k (.inl lost)).resolve_left fun absent => ?_
        have outside := (forked k).mp absent
        omega
      omega
    · rcases gone i (.inr own) with absent | again
      · have outside := (forked i).mp absent
        omega
      · exact spared i (Nat.le_refl i) bound own again

theorem Accounts.fork (accounts : Accounts count pidlist children (.fork i)) :
    Accounts count pidlist (Function.update children i (.running false)) (.setpgid i) := by
  obtain ⟨bound, forked, unreaped⟩ := accounts
  refine ⟨bound, ?_, ?_⟩
  · intro k
    by_cases new : k = i
    · simp [new]
    · rw [Function.update_of_ne new, forked k]
      omega
  · intro k
    by_cases new : k = i
    · simp [new]
    · rw [Function.update_of_ne new]
      exact unreaped k

theorem recorded_setpgid (recorded : ∀ k, pidlist k = none ∨ pidlist k = some k) (i : Nat) (failed : Bool)
    (k : Nat) : Function.update pidlist i (if failed then none else some i) k = none ∨
      Function.update pidlist i (if failed then none else some i) k = some k := by
  by_cases new : k = i
  · subst new
    cases failed <;> simp
  · rw [Function.update_of_ne new]
    exact recorded k

theorem accounted_step (accounted : Accounted count s) (careful : Careful count s t) : Accounted count t := by
  obtain ⟨recorded, accounts⟩ := accounted
  obtain ⟨step, spares⟩ := careful
  cases step with
  | child children lives => exact ⟨recorded, accounts.child lives⟩
  | giveUp i here =>
    refine ⟨recorded, ?_⟩
    intro failed
    cases failed
  | fork i here =>
    rw [here] at accounts
    exact ⟨recorded, accounts.fork⟩
  | setpgid i here =>
    rw [here] at accounts
    exact ⟨recorded_setpgid recorded i _, accounts_forkFrom accounts.1 accounts.2.1 accounts.2.2⟩
  | waitpid i children here waits =>
    rw [here] at accounts
    exact ⟨recorded, accounts.waitpid recorded waits fun j k => spares i j k here⟩

theorem waits_of_careful (run : Reachable (Careful count) (start count) s) : Waits s := by
  have accounted : Accounted count s :=
    run.invariant (accounted_start count) fun _ _ before careful => accounted_step before careful
  intro exited k execed running
  have accounts := accounted.accounts
  rw [exited] at accounts
  obtain ⟨forked, all⟩ := accounts rfl
  by_cases inside : k < count
  · rw [reapedOf_eq_iff.mp all k inside] at running
    cases running
  · rw [(forked k).mpr (by omega)] at running
    cases running

def PC.waiting : PC → Bool
  | .waitpid _ => true
  | .exited status => status == 0
  | _ => false

theorem waitFrom_waiting (count i : Nat) : (waitFrom count i).waiting = true := by
  unfold waitFrom
  split <;> rfl

/-- Where the pids stand in front of the -1s, no `waitpid(-1)` can take a recorded child: those are all
    reaped by then. -/
theorem careful_of_ordered (run : Reachable (Step count) (start count) s)
    (ordered : s.pc.waiting = true → ∀ i j, i < j → j < count → s.pidlist i = none → s.pidlist j = none) :
    Reachable (Careful count) (start count) s := by
  induction run with
  | refl => exact .refl
  | tail run step ih =>
    rename_i s t
    have before : s.pc.waiting = true → ∀ i j, i < j → j < count → s.pidlist i = none → s.pidlist j = none := by
      intro waiting
      cases step with
      | child children lives => exact ordered waiting
      | giveUp i here => rw [here] at waiting; cases waiting
      | fork i here => rw [here] at waiting; cases waiting
      | setpgid i here => rw [here] at waiting; cases waiting
      | waitpid i children here waits => exact ordered (waitFrom_waiting count (i + 1))
    apply (ih before).next
    refine ⟨step, fun i j k here lost later below pid _ => ?_⟩
    have none : s.pidlist j = none := before (by rw [here]; rfl) i j later below lost
    rw [none] at pid
    cases pid

def Loses (count : Nat) (lost : Nat → Bool) (s : State) : Prop :=
  ∀ k < count, s.pidlist k = none ↔ lost k = true

/-- No child that is too early for its `setpgid` is in front of one that is not. -/
def InOrder (count : Nat) (lost : Nat → Bool) : Prop :=
  ∀ i j, i < j → j < count → lost i = true → lost j = true

section LeftRunning

variable {lost : Nat → Bool} {j m k : Nat}

def forkedOf (lost : Nat → Bool) (m : Nat) : Children := fun k => if k < m then .running (lost k) else .absent

def pidsOf (lost : Nat → Bool) (m : Nat) : Nat → Option Nat :=
  fun k => if k < m then if lost k then none else some k else none

theorem reachable_forked (lost : Nat → Bool) (bound : m ≤ count) :
    Reachable (Step count) (start count) ⟨forkFrom count m, pidsOf lost m, forkedOf lost m⟩ := by
  induction m with
  | zero => exact .refl
  | succ m ih =>
    have run := ih (by omega)
    have here : forkFrom count m = .fork m := if_pos bound
    rw [here] at run
    have forks := run.next (Step.fork m rfl)
    have execs : Reachable (Step count)
        ⟨.setpgid m, pidsOf lost m, Function.update (forkedOf lost m) m (.running false)⟩
        ⟨.setpgid m, pidsOf lost m, Function.update (forkedOf lost m) m (.running (lost m))⟩ := by
      cases early : lost m with
      | false => exact .refl
      | true =>
        have exec : Lives (Function.update (forkedOf lost m) m (.running false)) _ := .exec m (by simp)
        rw [Function.update_idem] at exec
        exact Reachable.refl.next (Step.child _ exec)
    have returns := (forks.trans execs).next (Step.setpgid m rfl)
    have pids : Function.update (pidsOf lost m) m (if lost m then none else some m) = pidsOf lost (m + 1) := by
      funext k
      simp only [pidsOf, Function.update_apply]
      grind
    have children : Function.update (forkedOf lost m) m (.running (lost m)) = forkedOf lost (m + 1) := by
      funext k
      simp only [forkedOf, Function.update_apply]
      grind
    simpa [Life.execed, pids, children] using returns

theorem reachable_reap {pids : Nat → Option Nat} {execed : Bool} (here : m < count)
    (running : children k = .running execed) (pid : pids m = none ∨ pids m = some k) :
    Reachable (Step count) ⟨waitFrom count m, pids, children⟩
      ⟨waitFrom count (m + 1), pids, Function.update children k .reaped⟩ := by
  have place : waitFrom count m = .waitpid m := if_pos here
  rw [place]
  have terminates : Step count ⟨.waitpid m, pids, children⟩ _ := Step.child _ (.terminate k execed running)
  have waits : WaitPid (Function.update children k (.terminated execed)) (pids m)
      (Function.update children k .reaped) := by
    rcases pid with any | own
    · rw [any]
      have reaps : WaitPid (Function.update children k (.terminated execed)) none _ := .reapAny k execed (by simp)
      rwa [Function.update_idem] at reaps
    · rw [own]
      have reaps : WaitPid (Function.update children k (.terminated execed)) (some k) _ := .reap k execed (by simp)
      rwa [Function.update_idem] at reaps
  exact (Reachable.refl.next terminates).next (Step.waitpid m _ rfl waits)

def waitedOf (lost : Nat → Bool) (count i j m : Nat) : Children := fun k =>
  if count ≤ k then .absent
  else if k = i then .running (lost k)
  else if k < m ∨ k = j ∧ i < m then .reaped
  else .running (lost k)

theorem reachable_waited (before : i < j) (last : j < count) (early : lost i = true) (late : lost j = false)
    (bound : m ≤ count) : Reachable (Step count) ⟨waitFrom count 0, pidsOf lost count, forkedOf lost count⟩
      ⟨waitFrom count m, pidsOf lost count, waitedOf lost count i j m⟩ := by
  induction m with
  | zero =>
    have same : forkedOf lost count = waitedOf lost count i j 0 := by
      funext k
      simp only [forkedOf, waitedOf]
      grind
    rw [same]
    exact .refl
  | succ m ih =>
    have run := ih (by omega)
    by_cases taking : m = i
    · have running : waitedOf lost count i j m j = .running false := by
        grind [waitedOf]
      have any : pidsOf lost count m = none := by
        grind [pidsOf]
      have next : Function.update (waitedOf lost count i j m) j .reaped = waitedOf lost count i j (m + 1) := by
        funext k
        simp only [waitedOf, Function.update_apply]
        grind
      rw [← next]
      exact run.trans (reachable_reap bound running (.inl any))
    by_cases taken : m = j
    · have gone : waitedOf lost count i j m m = .reaped := by
        grind [waitedOf]
      have own : pidsOf lost count m = some m := by
        grind [pidsOf]
      have next : waitedOf lost count i j m = waitedOf lost count i j (m + 1) := by
        funext k
        grind [waitedOf]
      have here : waitFrom count m = .waitpid m := if_pos bound
      have fails : WaitPid (waitedOf lost count i j m) (pidsOf lost count m) (waitedOf lost count i j m) := by
        rw [own]
        exact .noSuchChild m (.inr gone)
      rw [here] at run
      rw [← next]
      exact run.next (Step.waitpid m _ rfl fails)
    · have running : waitedOf lost count i j m m = .running (lost m) := by
        grind [waitedOf]
      have pid : pidsOf lost count m = none ∨ pidsOf lost count m = some m := by
        grind [pidsOf]
      have next : Function.update (waitedOf lost count i j m) m .reaped = waitedOf lost count i j (m + 1) := by
        funext k
        simp only [waitedOf, Function.update_apply]
        grind
      rw [← next]
      exact run.trans (reachable_reap bound running pid)

theorem left_running (before : i < j) (last : j < count) (early : lost i = true) (late : lost j = false) :
    ∃ s, Reachable (Step count) (start count) s ∧ Loses count lost s ∧ s.pc = .exited 0 ∧
      s.children i = .running true := by
  have forks : Reachable (Step count) (start count) ⟨forkFrom count count, _, _⟩ :=
    reachable_forked lost (Nat.le_refl count)
  have behind : forkFrom count count = waitFrom count 0 := if_neg (Nat.lt_irrefl count)
  rw [behind] at forks
  refine ⟨_, forks.trans (reachable_waited before last early late (Nat.le_refl count)), ?_, ?_, ?_⟩
  · intro k inside
    simp [pidsOf, inside]
  · exact if_neg (Nat.lt_irrefl count)
  · simp only [waitedOf]
    grind

end LeftRunning

/-- The parent outlives its children in every run that spares the recorded ones, and in every run with
    given outcomes of the `setpgid` calls exactly where those that fail are the last ones. -/
theorem pipeline_waits_iff (count : Nat) :
    (∀ s, Reachable (Careful count) (start count) s → Waits s) ∧
      ∀ lost, (∀ s, Reachable (Step count) (start count) s → Loses count lost s → Waits s) ↔
        InOrder count lost := by
  refine ⟨fun s => waits_of_careful, fun lost => ⟨?_, ?_⟩⟩
  · intro safe i j before last early
    by_contra late
    obtain ⟨s, run, loses, exited, running⟩ := left_running before last early (Bool.eq_false_iff.mpr late)
    exact safe s run loses exited i true running
  · intro inOrder s run loses
    apply waits_of_careful
    apply careful_of_ordered run
    intro _ i j before last early
    rw [loses i (by omega)] at early
    rw [loses j last]
    exact inOrder i j before last early

theorem first_command_left_running :
    ∃ s, Reachable (Step 2) (start 2) s ∧ s.pc = .exited 0 ∧ s.children 0 = .running true ∧ ¬ Waits s := by
  have bad : ∃ s, Reachable (Step 2) (start 2) s ∧ Loses 2 (fun k => k == 0) s ∧ s.pc = .exited 0 ∧
      s.children 0 = .running true :=
    left_running (j := 1) (by decide) (by decide) rfl rfl
  obtain ⟨s, run, _, exited, running⟩ := bad
  exact ⟨s, run, exited, running, fun waits => waits exited 0 true running⟩

end OS2.Pipeline.Waiting
