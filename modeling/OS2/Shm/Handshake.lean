import OS2.Machine.Runs
import Mathlib.Logic.Function.Basic

namespace OS2.Shm

open OS2.Machine

def SHM_MAGIC : Int := 0xbadcafe

structure Object where
  size : Nat
  word : Int
  deriving DecidableEq, Repr

def ftruncate (size : Nat) (o : Object) : Object :=
  { size := size, word := if 4 ≤ o.size then o.word else 0 }

def write (o : Object) : Object := { size := max o.size 4, word := SHM_MAGIC }

def SEEK_SET : Nat := 0

def lseek (offset whence : Nat) : Option Nat := if whence = SEEK_SET then some offset else none

def read (o : Object) (offset : Option Nat) : Option Int :=
  if offset = some 0 ∧ 4 ≤ o.size then some o.word else none

/-- Where `main` of shm_server.c stands; `sptr` is `none` where `mmap` has failed, which the comparison
    with NULL does not see. -/
inductive Server where
  | unlink
  | shmOpen
  | ftruncate (fd : Nat)
  | write (fd : Nat)
  | mmap (fd : Nat)
  | close (fd : Nat) (sptr : Option Nat)
  | loop (sptr : Option Nat)
  | exited (status : Nat)
  | killed
  deriving DecidableEq, Repr

inductive Client where
  | shmOpen
  | fstat (fd : Nat)
  | lseek (fd : Nat)
  | read (fd : Nat) (offset : Option Nat)
  | mmap (fd : Nat)
  | close (fd : Nat) (sptr : Option Nat)
  | work (sptr : Option Nat)
  | exited (status : Nat)
  | killed
  deriving DecidableEq, Repr

structure State where
  name : Option Nat
  next : Nat
  objects : Nat → Object
  server : Nat → Server
  client : Nat → Client

def State.putServer (s : State) (p : Nat) (server : Server) : State :=
  { s with server := Function.update s.server p server }

def State.putClient (s : State) (c : Nat) (client : Client) : State :=
  { s with client := Function.update s.client c client }

def State.putObject (s : State) (fd : Nat) (o : Object) : State :=
  { s with objects := Function.update s.objects fd o }

/-- The clients whose `fstat` may fail, and those whose `read` may. -/
structure Failing where
  fstat : Nat → Prop
  read : Nat → Prop

/-- No result of `ftruncate`, `write`, `fstat` and `lseek` is looked at: behind an `fstat` that fails `statbuf` is
    not initialised. `lseek` has its arguments the wrong way round, and both are 0. -/
inductive Step (failing : Failing) (size : Nat) (s : State) : State → Prop where
  | unlink (p : Nat) (here : s.server p = .unlink) : Step failing size s ({ s with name := none }.putServer p .shmOpen)
  | unlinkFails (p : Nat) (here : s.server p = .unlink) : Step failing size s (s.putServer p .shmOpen)
  | create (p : Nat) (here : s.server p = .shmOpen) (free : s.name = none) :
      Step failing size s (({ s with name := some s.next, next := s.next + 1 }.putObject s.next ⟨0, 0⟩).putServer p
        (.ftruncate s.next))
  | createFails (p : Nat) (here : s.server p = .shmOpen) : Step failing size s (s.putServer p (.exited 1))
  | ftruncate (p fd : Nat) (here : s.server p = .ftruncate fd) :
      Step failing size s ((s.putObject fd (ftruncate size (s.objects fd))).putServer p (.write fd))
  | ftruncateFails (p fd : Nat) (here : s.server p = .ftruncate fd) : Step failing size s (s.putServer p (.write fd))
  | write (p fd : Nat) (here : s.server p = .write fd) :
      Step failing size s ((s.putObject fd (write (s.objects fd))).putServer p (.mmap fd))
  | writeFails (p fd : Nat) (here : s.server p = .write fd) : Step failing size s (s.putServer p (.mmap fd))
  | mmap (p fd : Nat) (here : s.server p = .mmap fd) : Step failing size s (s.putServer p (.close fd (some fd)))
  | mmapFails (p fd : Nat) (here : s.server p = .mmap fd) : Step failing size s (s.putServer p (.close fd none))
  | close (p fd : Nat) (sptr : Option Nat) (here : s.server p = .close fd sptr) :
      Step failing size s (s.putServer p (.loop sptr))
  | sigusr1 (p : Nat) (sptr : Option Nat) (here : s.server p = .loop sptr) :
      Step failing size s (s.putServer p (.exited 0))
  | killServer (p : Nat) : Step failing size s (s.putServer p .killed)
  | shmOpen (c o : Nat) (here : s.client c = .shmOpen) (named : s.name = some o) :
      Step failing size s (s.putClient c (.fstat o))
  | shmOpenFails (c : Nat) (here : s.client c = .shmOpen) : Step failing size s (s.putClient c (.exited 1))
  | fstat (c fd : Nat) (here : s.client c = .fstat fd) :
      Step failing size s (s.putClient c (if (s.objects fd).size = size then .lseek fd else .exited 1))
  | fstatFails (c fd : Nat) (garbage : Int) (here : s.client c = .fstat fd) (fails : failing.fstat c) :
      Step failing size s (s.putClient c (if garbage = size then .lseek fd else .exited 1))
  | lseek (c fd : Nat) (here : s.client c = .lseek fd) :
      Step failing size s (s.putClient c (.read fd (lseek SEEK_SET 0)))
  | lseekFails (c fd : Nat) (here : s.client c = .lseek fd) : Step failing size s (s.putClient c (.read fd (some 0)))
  | read (c fd : Nat) (offset : Option Nat) (here : s.client c = .read fd offset) :
      Step failing size s (s.putClient c (if read (s.objects fd) offset = some SHM_MAGIC then .mmap fd else .exited 1))
  | readFails (c fd : Nat) (offset : Option Nat) (here : s.client c = .read fd offset) (fails : failing.read c) :
      Step failing size s (s.putClient c (.exited 1))
  | clientMmap (c fd : Nat) (here : s.client c = .mmap fd) : Step failing size s (s.putClient c (.close fd (some fd)))
  | clientMmapFails (c fd : Nat) (here : s.client c = .mmap fd) : Step failing size s (s.putClient c (.close fd none))
  | clientClose (c fd : Nat) (sptr : Option Nat) (here : s.client c = .close fd sptr) :
      Step failing size s (s.putClient c (.work sptr))
  | clientExits (c : Nat) (sptr : Option Nat) (here : s.client c = .work sptr) :
      Step failing size s (s.putClient c (.exited 0))
  | killClient (c : Nat) : Step failing size s (s.putClient c .killed)

structure Start (s : State) : Prop where
  named : ∀ o, s.name = some o → o < s.next
  server : ∀ p, s.server p = .unlink ∨ s.server p = .killed
  client : ∀ c, s.client c = .shmOpen ∨ s.client c = .killed

def Server.object : Server → Option Nat
  | .ftruncate fd | .write fd | .mmap fd | .close fd _ => some fd
  | .loop sptr => sptr
  | _ => none

/-- The object that a client works with behind its `check`. -/
def Client.accepted : Client → Option Nat
  | .mmap fd | .close fd _ => some fd
  | .work sptr => sptr
  | _ => none

def complete (size : Nat) : Object := ⟨size, SHM_MAGIC⟩

structure Checked (size : Nat) (sure : Prop) (o : Object) : Prop where
  magic : o.word = SHM_MAGIC
  sized : sure → o.size = size

def Client.Sees (size next : Nat) (objects : Nat → Object) (sure : Prop) : Client → Prop
  | .fstat fd => fd < next
  | .lseek fd => fd < next ∧ (sure → (objects fd).size = size)
  | .read fd offset => fd < next ∧ (sure → (objects fd).size = size) ∧ offset = some 0
  | .mmap fd => fd < next ∧ Checked size sure (objects fd)
  | .close fd sptr => fd < next ∧ Checked size sure (objects fd) ∧ (sptr = some fd ∨ sptr = none)
  | .work sptr => ∀ fd, sptr = some fd → fd < next ∧ Checked size sure (objects fd)
  | .shmOpen | .exited _ | .killed => True

/-- An object is touched by the server that has created it only, and by that before it is complete. -/
structure Inv (failing : Failing) (size : Nat) (s : State) : Prop where
  named : ∀ o, s.name = some o → o < s.next
  held : ∀ p o, (s.server p).object = some o → o < s.next
  sole : ∀ p q o, (s.server p).object = some o → (s.server q).object = some o → p = q
  mapped : ∀ p fd sptr, s.server p = .close fd sptr → sptr = some fd ∨ sptr = none
  truncating : ∀ p o, s.server p = .ftruncate o → s.objects o = ⟨0, 0⟩
  writing : ∀ p o, s.server p = .write o → (s.objects o).word = 0
  sees : ∀ c, (s.client c).Sees size s.next s.objects (¬ failing.fstat c)

structure Grows (size next next' : Nat) (objects objects' : Nat → Object) : Prop where
  more : next ≤ next'
  sized : ∀ o, o < next → (objects o).size = size → (objects' o).size = size
  magic : ∀ o, o < next → (objects o).word = SHM_MAGIC → (objects' o).word = SHM_MAGIC

variable {failing : Failing} {size p c o : Nat} {sure : Prop} {s t : State}

theorem Grows.refl (next : Nat) (objects : Nat → Object) : Grows size next next objects objects :=
  ⟨Nat.le_refl _, fun _ _ sized => sized, fun _ _ done => done⟩

theorem Grows.checked {next next' : Nat} {objects objects' : Nat → Object}
    (grows : Grows size next next' objects objects') (known : o < next) (checked : Checked size sure (objects o)) :
    Checked size sure (objects' o) :=
  ⟨grows.magic o known checked.magic, fun certain => grows.sized o known (checked.sized certain)⟩

theorem Checked.complete {object : Object} (checked : Checked size sure object) (certain : sure) :
    object = complete size := congrArg₂ Object.mk (checked.sized certain) checked.magic

theorem checked_complete (size : Nat) (sure : Prop) : Checked size sure (complete size) := ⟨rfl, fun _ => rfl⟩

theorem Client.Sees.grows {next next' : Nat} {objects objects' : Nat → Object} {client : Client}
    (sees : client.Sees size next objects sure) (grows : Grows size next next' objects objects') :
    client.Sees size next' objects' sure := by
  have later : ∀ fd, fd < next → fd < next' := fun fd bound => Nat.lt_of_lt_of_le bound grows.more
  cases client with
  | shmOpen => trivial
  | exited status => trivial
  | killed => trivial
  | fstat fd => exact later fd sees
  | lseek fd => exact ⟨later fd sees.1, fun certain => grows.sized fd sees.1 (sees.2 certain)⟩
  | read fd offset => exact ⟨later fd sees.1, fun certain => grows.sized fd sees.1 (sees.2.1 certain), sees.2.2⟩
  | mmap fd => exact ⟨later fd sees.1, grows.checked sees.1 sees.2⟩
  | close fd sptr => exact ⟨later fd sees.1, grows.checked sees.1 sees.2.1, sees.2.2⟩
  | work sptr =>
    intro fd same
    have before := sees fd same
    exact ⟨later fd before.1, grows.checked before.1 before.2⟩

theorem server_put (s : State) (p q : Nat) (server : Server) :
    (s.putServer p server).server q = if q = p then server else s.server q := Function.update_apply _ _ _ _

theorem client_put (s : State) (c d : Nat) (client : Client) :
    (s.putClient c client).client d = if d = c then client else s.client d := Function.update_apply _ _ _ _

theorem objects_put (s : State) (fd o : Nat) (object : Object) :
    (s.putObject fd object).objects o = if o = fd then object else s.objects o := Function.update_apply _ _ _ _

theorem Inv.putClient {client : Client} (inv : Inv failing size s) (c : Nat)
    (sees : client.Sees size s.next s.objects (¬ failing.fstat c)) :
    Inv failing size (s.putClient c client) := by
  refine ⟨inv.named, inv.held, inv.sole, inv.mapped, inv.truncating, inv.writing, ?_⟩
  intro d
  rw [client_put]
  split
  · rename_i same
    exact same ▸ sees
  · exact inv.sees d

theorem Inv.putServer {server : Server} (inv : Inv failing size s) (p : Nat)
    (object : ∀ o, server.object = some o → (s.server p).object = some o)
    (mapped : ∀ fd sptr, server = .close fd sptr → sptr = some fd ∨ sptr = none)
    (truncating : ∀ o, server = .ftruncate o → s.objects o = ⟨0, 0⟩)
    (writing : ∀ o, server = .write o → (s.objects o).word = 0) : Inv failing size (s.putServer p server) := by
  have before : ∀ q o, ((s.putServer p server).server q).object = some o → (s.server q).object = some o := by
    intro q o
    rw [server_put]
    split
    · rename_i same
      rw [same]
      exact object o
    · exact id
  refine ⟨inv.named, ?_, ?_, ?_, ?_, ?_, inv.sees⟩
  · intro q o held
    exact inv.held q o (before q o held)
  · intro q r o first second
    exact inv.sole q r o (before q o first) (before r o second)
  · intro q fd sptr
    rw [server_put]
    split
    · exact mapped fd sptr
    · exact inv.mapped q fd sptr
  · intro q o
    rw [server_put]
    split
    · exact truncating o
    · exact inv.truncating q o
  · intro q o
    rw [server_put]
    split
    · exact writing o
    · exact inv.writing q o

theorem Inv.putObject {fd : Nat} {server : Server} {object : Object} (inv : Inv failing size s)
    (here : (s.server p).object = some fd) (grows : Grows size s.next s.next s.objects (s.putObject fd object).objects)
    (goesOn : server = .mmap fd ∨ server = .write fd ∧ object.word = 0) :
    Inv failing size ((s.putObject fd object).putServer p server) := by
  have same : server.object = some fd := by
    rcases goesOn with rfl | ⟨rfl, _⟩ <;> rfl
  have others : ∀ q o, q ≠ p → (s.server q).object = some o → o ≠ fd := by
    intro q o other held equal
    rw [equal] at held
    exact other (inv.sole q p fd held here)
  have before : ∀ q o, (((s.putObject fd object).putServer p server).server q).object = some o →
      (s.server q).object = some o := by
    intro q o
    rw [server_put]
    split
    · rename_i equal
      rw [same, equal, here]
      exact id
    · exact id
  refine ⟨inv.named, ?_, ?_, ?_, ?_, ?_, ?_⟩
  · intro q o held
    exact inv.held q o (before q o held)
  · intro q r o first second
    exact inv.sole q r o (before q o first) (before r o second)
  · intro q o sptr
    rw [server_put]
    split
    · intro close
      rcases goesOn with rfl | ⟨rfl, _⟩ <;> cases close
    · exact inv.mapped q o sptr
  · intro q o
    rw [server_put]
    split
    · intro truncate
      rcases goesOn with rfl | ⟨rfl, _⟩ <;> cases truncate
    · rename_i other
      intro truncate
      have apart := others q o other (by rw [show s.server q = .ftruncate o from truncate]; rfl)
      show (s.putObject fd object).objects o = _
      rw [objects_put, if_neg apart]
      exact inv.truncating q o truncate
  · intro q o
    rw [server_put]
    split
    · intro write
      rcases goesOn with rfl | ⟨rfl, zero⟩
      · cases write
      · obtain rfl : fd = o := Server.write.inj write
        show ((s.putObject fd object).objects fd).word = 0
        rw [objects_put, if_pos rfl, zero]
    · rename_i other
      intro write
      have apart := others q o other (by rw [show s.server q = .write o from write]; rfl)
      show ((s.putObject fd object).objects o).word = 0
      rw [objects_put, if_neg apart]
      exact inv.writing q o write
  · intro c
    exact (inv.sees c).grows grows

theorem Inv.unlink (inv : Inv failing size s) : Inv failing size { s with name := none } := by
  refine ⟨?_, inv.held, inv.sole, inv.mapped, inv.truncating, inv.writing, inv.sees⟩
  intro o named
  cases named

theorem grows_create (s : State) (object : Object) :
    Grows size s.next (s.next + 1) s.objects (s.putObject s.next object).objects := by
  refine ⟨Nat.le_succ _, ?_, ?_⟩
  · intro o bound
    rw [objects_put, if_neg (Nat.ne_of_lt bound)]
    exact id
  · intro o bound
    rw [objects_put, if_neg (Nat.ne_of_lt bound)]
    exact id

theorem Inv.create (inv : Inv failing size s) (p : Nat) :
    Inv failing size (({ s with name := some s.next, next := s.next + 1 }.putObject s.next ⟨0, 0⟩).putServer p
      (.ftruncate s.next)) := by
  let t := { s with name := some s.next, next := s.next + 1 }.putObject s.next ⟨0, 0⟩
  have old : ∀ o, o < s.next → t.objects o = s.objects o := by
    intro o bound
    rw [objects_put, if_neg (Nat.ne_of_lt bound)]
  have before : ∀ q o, ((t.putServer p (.ftruncate s.next)).server q).object = some o →
      q = p ∧ o = s.next ∨ q ≠ p ∧ (s.server q).object = some o := by
    intro q o
    rw [server_put]
    split
    · rename_i same
      intro new
      exact .inl ⟨same, (Option.some.inj new).symm⟩
    · rename_i other
      intro held
      exact .inr ⟨other, held⟩
  refine ⟨?_, ?_, ?_, ?_, ?_, ?_, ?_⟩
  · intro o named
    obtain rfl : s.next = o := Option.some.inj named
    exact Nat.lt_succ_self _
  · intro q o held
    rcases before q o held with ⟨_, rfl⟩ | ⟨_, held⟩
    · exact Nat.lt_succ_self _
    · exact Nat.lt_succ_of_lt (inv.held q o held)
  · intro q r o first second
    rcases before q o first with ⟨rfl, new⟩ | ⟨_, first⟩
    · rcases before r o second with ⟨same, _⟩ | ⟨_, second⟩
      · exact same.symm
      · exact absurd (inv.held r o second) (by omega)
    · rcases before r o second with ⟨_, new⟩ | ⟨_, second⟩
      · exact absurd (inv.held q o first) (by omega)
      · exact inv.sole q r o first second
  · intro q o sptr
    rw [server_put]
    split
    · intro close
      cases close
    · exact inv.mapped q o sptr
  · intro q o
    rw [server_put]
    split
    · intro truncate
      obtain rfl : s.next = o := Server.ftruncate.inj truncate
      show t.objects s.next = _
      rw [objects_put, if_pos rfl]
    · intro truncate
      have truncate : s.server q = .ftruncate o := truncate
      show t.objects o = _
      rw [old o (inv.held q o (by rw [truncate]; rfl))]
      exact inv.truncating q o truncate
  · intro q o
    rw [server_put]
    split
    · intro write
      cases write
    · intro write
      have write : s.server q = .write o := write
      show (t.objects o).word = 0
      rw [old o (inv.held q o (by rw [write]; rfl))]
      exact inv.writing q o write
  · intro c
    exact (inv.sees c).grows (grows_create s _)

theorem grows_write {fd : Nat} {object : Object} (unwritten : (s.objects fd).word = 0)
    (sized : (s.objects fd).size = size → object.size = size) :
    Grows size s.next s.next s.objects (s.putObject fd object).objects := by
  refine ⟨Nat.le_refl _, ?_, ?_⟩
  · intro o bound right
    rw [objects_put]
    split
    · rename_i same
      subst same
      exact sized right
    · exact right
  · intro o bound done
    rw [objects_put]
    split
    · rename_i same
      subst same
      rw [done] at unwritten
      exact absurd unwritten (by decide)
    · exact done

theorem inv_step (large : 4 ≤ size) (inv : Inv failing size s) (step : Step failing size s t) :
    Inv failing size t ∧ Grows size s.next t.next s.objects t.objects := by
  cases step with
  | unlink p here =>
    exact ⟨inv.unlink.putServer p (by simp [Server.object]) (by simp) (by simp) (by simp), Grows.refl _ _⟩
  | unlinkFails p here =>
    exact ⟨inv.putServer p (by simp [Server.object]) (by simp) (by simp) (by simp), Grows.refl _ _⟩
  | create p here free => exact ⟨inv.create p, grows_create s _⟩
  | createFails p here =>
    exact ⟨inv.putServer p (by simp [Server.object]) (by simp) (by simp) (by simp), Grows.refl _ _⟩
  | ftruncate p fd here =>
    have empty := inv.truncating p fd here
    have grows : Grows size s.next s.next s.objects (s.putObject fd (ftruncate size (s.objects fd))).objects :=
      grows_write (by rw [empty]) fun _ => rfl
    refine ⟨inv.putObject (by rw [here]; rfl) grows (.inr ⟨rfl, ?_⟩), grows⟩
    rw [empty]
    rfl
  | ftruncateFails p fd here =>
    have empty := inv.truncating p fd here
    refine ⟨inv.putServer p ?_ (by simp) (by simp) ?_, Grows.refl _ _⟩
    · rw [here]
      exact fun o same => same
    · intro o same
      obtain rfl : fd = o := Server.write.inj same
      rw [empty]
  | write p fd here =>
    have unwritten := inv.writing p fd here
    have grows : Grows size s.next s.next s.objects (s.putObject fd (write (s.objects fd))).objects := by
      apply grows_write unwritten
      intro right
      rw [write, right]
      exact Nat.max_eq_left large
    exact ⟨inv.putObject (by rw [here]; rfl) grows (.inl rfl), grows⟩
  | writeFails p fd here =>
    exact ⟨inv.putServer p (by rw [here]; exact fun o same => same) (by simp) (by simp) (by simp), Grows.refl _ _⟩
  | mmap p fd here =>
    exact ⟨inv.putServer p (by rw [here]; exact fun o same => same) (by simp) (by simp) (by simp), Grows.refl _ _⟩
  | mmapFails p fd here =>
    exact ⟨inv.putServer p (by rw [here]; exact fun o same => same) (by simp) (by simp) (by simp), Grows.refl _ _⟩
  | close p fd sptr here =>
    have mapped := inv.mapped p fd sptr here
    refine ⟨inv.putServer p ?_ (by simp) (by simp) (by simp), Grows.refl _ _⟩
    rw [here]
    intro o same
    rcases mapped with rfl | rfl
    · exact same
    · cases same
  | sigusr1 p sptr here =>
    exact ⟨inv.putServer p (by simp [Server.object]) (by simp) (by simp) (by simp), Grows.refl _ _⟩
  | killServer p =>
    exact ⟨inv.putServer p (by simp [Server.object]) (by simp) (by simp) (by simp), Grows.refl _ _⟩
  | shmOpen c o here named => exact ⟨inv.putClient c (inv.named o named), Grows.refl _ _⟩
  | shmOpenFails c here => exact ⟨inv.putClient c trivial, Grows.refl _ _⟩
  | fstat c fd here =>
    have sees := inv.sees c
    rw [here] at sees
    refine ⟨inv.putClient c ?_, Grows.refl _ _⟩
    split
    · rename_i right
      exact ⟨sees, fun _ => right⟩
    · trivial
  | fstatFails c fd garbage here fails =>
    have sees := inv.sees c
    rw [here] at sees
    refine ⟨inv.putClient c ?_, Grows.refl _ _⟩
    split
    · exact ⟨sees, fun certain => absurd fails certain⟩
    · trivial
  | lseek c fd here =>
    have sees := inv.sees c
    rw [here] at sees
    exact ⟨inv.putClient c ⟨sees.1, sees.2, rfl⟩, Grows.refl _ _⟩
  | lseekFails c fd here =>
    have sees := inv.sees c
    rw [here] at sees
    exact ⟨inv.putClient c ⟨sees.1, sees.2, rfl⟩, Grows.refl _ _⟩
  | read c fd offset here =>
    have sees := inv.sees c
    rw [here] at sees
    refine ⟨inv.putClient c ?_, Grows.refl _ _⟩
    split
    · rename_i magic
      refine ⟨sees.1, ?_, sees.2.1⟩
      rw [read] at magic
      split at magic
      · exact Option.some.inj magic
      · cases magic
    · trivial
  | readFails c fd offset here fails => exact ⟨inv.putClient c trivial, Grows.refl _ _⟩
  | clientMmap c fd here =>
    have sees := inv.sees c
    rw [here] at sees
    exact ⟨inv.putClient c ⟨sees.1, sees.2, .inl rfl⟩, Grows.refl _ _⟩
  | clientMmapFails c fd here =>
    have sees := inv.sees c
    rw [here] at sees
    exact ⟨inv.putClient c ⟨sees.1, sees.2, .inr rfl⟩, Grows.refl _ _⟩
  | clientClose c fd sptr here =>
    have sees := inv.sees c
    rw [here] at sees
    refine ⟨inv.putClient c ?_, Grows.refl _ _⟩
    intro o same
    obtain ⟨bound, done, mapped⟩ := sees
    rcases mapped with rfl | rfl
    · obtain rfl : fd = o := Option.some.inj same
      exact ⟨bound, done⟩
    · cases same
  | clientExits c sptr here => exact ⟨inv.putClient c trivial, Grows.refl _ _⟩
  | killClient c => exact ⟨inv.putClient c trivial, Grows.refl _ _⟩

theorem inv_start {start : State} (first : Start start) : Inv failing size start := by
  have none : ∀ p, (start.server p).object = none := by
    intro p
    rcases first.server p with here | here <;> rw [here] <;> rfl
  refine ⟨first.named, ?_, ?_, ?_, ?_, ?_, ?_⟩
  · intro p o held
    rw [none] at held
    cases held
  · intro p q o held
    rw [none] at held
    cases held
  · intro p fd sptr here
    rcases first.server p with other | other <;> rw [here] at other <;> cases other
  · intro p o here
    rcases first.server p with other | other <;> rw [here] at other <;> cases other
  · intro p o here
    rcases first.server p with other | other <;> rw [here] at other <;> cases other
  · intro c
    rcases first.client c with here | here <;> rw [here] <;> trivial

theorem inv_of_reachable {start : State} (large : 4 ≤ size) (inv : Inv failing size start)
    (run : Reachable (Step failing size) start s) : Inv failing size s :=
  run.invariant inv fun _ _ inv step => (inv_step large inv step).1

theorem checked_of_reachable (large : 4 ≤ size) (inv : Inv failing size s) (known : o < s.next)
    (checked : Checked size sure (s.objects o)) (run : Reachable (Step failing size) s t) :
    Checked size sure (t.objects o) := by
  have all : Inv failing size t ∧ o < t.next ∧ Checked size sure (t.objects o) := by
    apply run.invariant ⟨inv, known, checked⟩
    intro u v before step
    obtain ⟨inv, known, checked⟩ := before
    obtain ⟨inv', grows⟩ := inv_step large inv step
    exact ⟨inv', Nat.lt_of_lt_of_le known grows.more, grows.checked known checked⟩
  exact all.2.2

theorem Client.Sees.accepted {next : Nat} {objects : Nat → Object} {client : Client}
    (sees : client.Sees size next objects sure) (accepted : client.accepted = some o) :
    o < next ∧ Checked size sure (objects o) := by
  cases client with
  | mmap fd =>
    obtain rfl : fd = o := Option.some.inj accepted
    exact sees
  | close fd sptr =>
    obtain rfl : fd = o := Option.some.inj accepted
    exact ⟨sees.1, sees.2.1⟩
  | work sptr => exact sees o accepted
  | shmOpen => cases accepted
  | fstat fd => cases accepted
  | lseek fd => cases accepted
  | read fd offset => cases accepted
  | exited status => cases accepted
  | killed => cases accepted

def Client.Passing (fd : Nat) : Client → Prop
  | .fstat fd' | .lseek fd' | .mmap fd' | .close fd' _ => fd' = fd
  | .read fd' offset => fd' = fd ∧ offset = some 0
  | .work _ | .killed => True
  | .exited status => status = 0
  | .shmOpen => False

theorem passing_step {fd : Nat} (large : 4 ≤ size) (sure : ¬ failing.fstat c) (reads : ¬ failing.read c)
    (passing : (s.client c).Passing fd) (done : s.objects fd = complete size) (step : Step failing size s t) :
    (t.client c).Passing fd := by
  have moves : ∀ d client, (d = c → (s.client d).Passing fd → client.Passing fd) →
      ((s.putClient d client).client c).Passing fd := by
    intro d client goesOn
    rw [client_put]
    split
    · rename_i same
      exact goesOn same.symm (same ▸ passing)
    · exact passing
  cases step with
  | unlink p here => exact passing
  | unlinkFails p here => exact passing
  | create p here free => exact passing
  | createFails p here => exact passing
  | ftruncate p fd here => exact passing
  | ftruncateFails p fd here => exact passing
  | write p fd here => exact passing
  | writeFails p fd here => exact passing
  | mmap p fd here => exact passing
  | mmapFails p fd here => exact passing
  | close p fd sptr here => exact passing
  | sigusr1 p sptr here => exact passing
  | killServer p => exact passing
  | shmOpen d o here named => exact moves d _ fun _ => by rw [here]; exact False.elim
  | shmOpenFails d here => exact moves d _ fun _ => by rw [here]; exact False.elim
  | fstat d fd' here =>
    apply moves
    rw [here]
    rintro _ rfl
    have right : (s.objects fd').size = size := by rw [done]; rfl
    rw [if_pos right]
    rfl
  | fstatFails d fd' garbage here fails =>
    apply moves
    rintro rfl
    exact absurd fails sure
  | lseek d fd' here =>
    apply moves
    rw [here]
    exact fun _ same => ⟨same, rfl⟩
  | lseekFails d fd' here =>
    apply moves
    rw [here]
    exact fun _ same => ⟨same, rfl⟩
  | read d fd' offset here =>
    apply moves
    rw [here]
    rintro _ ⟨rfl, rfl⟩
    have magic : read (s.objects fd') (some 0) = some SHM_MAGIC := by
      rw [done, read, if_pos ⟨rfl, large⟩]
      rfl
    rw [if_pos magic]
    rfl
  | readFails d fd' offset here fails =>
    apply moves
    rintro rfl
    exact absurd fails reads
  | clientMmap d fd' here => exact moves d _ fun _ => by rw [here]; exact id
  | clientMmapFails d fd' here => exact moves d _ fun _ => by rw [here]; exact id
  | clientClose d fd' sptr here => exact moves d _ fun _ _ => trivial
  | clientExits d sptr here => exact moves d _ fun _ _ => rfl
  | killClient d => exact moves d _ fun _ _ => trivial

theorem passing_of_reachable {fd : Nat} (large : 4 ≤ size) (sure : ¬ failing.fstat c) (reads : ¬ failing.read c)
    (inv : Inv failing size s) (here : s.client c = .fstat fd) (done : s.objects fd = complete size)
    (run : Reachable (Step failing size) s t) : (t.client c).Passing fd := by
  have sees := inv.sees c
  rw [here] at sees
  have all : Inv failing size t ∧ fd < t.next ∧ t.objects fd = complete size ∧ (t.client c).Passing fd := by
    apply run.invariant ⟨inv, sees, done, by rw [here]; rfl⟩
    intro u v before step
    obtain ⟨inv, known, done, passing⟩ := before
    obtain ⟨inv', grows⟩ := inv_step large inv step
    have checked : Checked size True (u.objects fd) := done ▸ checked_complete size True
    exact ⟨inv', Nat.lt_of_lt_of_le known grows.more, (grows.checked known checked).complete trivial,
      passing_step large sure reads passing done step⟩
  exact all.2.2.2

/-- In every interleaving of any servers and clients, whatever calls fail and whoever is killed: a client is
    behind `check` only on an object that has the magic number, and its size too unless its own `fstat` has
    failed, for ever from then on; a client that opens such an object is not turned away unless its own
    `fstat` or `read` fails; and no two servers have the same object. -/
theorem handshake_safe {start : State} (large : 4 ≤ size) (first : Start start)
    (run : Reachable (Step failing size) start s) :
    (∀ c o, (s.client c).accepted = some o → ∀ t, Reachable (Step failing size) s t →
      (t.objects o).word = SHM_MAGIC ∧ (¬ failing.fstat c → t.objects o = complete size)) ∧
    (∀ c fd, ¬ failing.fstat c → ¬ failing.read c → s.client c = .fstat fd → s.objects fd = complete size →
      ∀ t, Reachable (Step failing size) s t → ∀ status, t.client c = .exited status → status = 0) ∧
    ∀ p q o, (s.server p).object = some o → (s.server q).object = some o → p = q := by
  have inv := inv_of_reachable large (inv_start first) run
  refine ⟨?_, ?_, inv.sole⟩
  · intro c o accepted t more
    obtain ⟨known, checked⟩ := (inv.sees c).accepted accepted
    have later := checked_of_reachable large inv known checked more
    exact ⟨later.magic, later.complete⟩
  · intro c fd sure reads here done t more status ended
    have passing := passing_of_reachable large sure reads inv here done more
    rw [ended] at passing
    exact passing

def pair : State where
  name := none
  next := 0
  objects := fun _ => ⟨0, 0⟩
  server := fun p => if p = 0 then .unlink else .killed
  client := fun c => if c = 0 then .shmOpen else .killed

theorem start_pair : Start pair := by
  refine ⟨?_, ?_, ?_⟩
  · intro o named
    cases named
  · intro p
    by_cases here : p = 0 <;> simp [pair, here]
  · intro c
    by_cases here : c = 0 <;> simp [pair, here]

def second : Failing := ⟨fun c => c = 1, fun c => c = 1⟩

theorem pair_run : ∃ s, Reachable (Step second 4208) pair s ∧ s.client 0 = .mmap 0 ∧ s.server 0 = .mmap 0 := by
  have first : Reachable (Step second 4208) pair pair := .refl
  have opened := ((first.next (.unlinkFails 0 rfl)).next (.create 0 rfl rfl)).next (.shmOpen 0 0 rfl rfl)
  have written := (opened.next (.ftruncate 0 0 rfl)).next (.write 0 0 rfl)
  have checked := ((written.next (.fstat 0 0 rfl)).next (.lseek 0 0 rfl)).next (.read 0 0 (some 0) rfl)
  exact ⟨_, checked, rfl, rfl⟩

theorem handshake_safe_pair : ∃ s, Reachable (Step second 4208) pair s ∧ (s.client 0).accepted = some 0 ∧
    ∀ t, Reachable (Step second 4208) s t → t.objects 0 = complete 4208 := by
  obtain ⟨s, run, here, _⟩ := pair_run
  have accepted : (s.client 0).accepted = some 0 := by rw [here]; rfl
  refine ⟨s, run, accepted, ?_⟩
  intro t more
  exact ((handshake_safe (by decide) start_pair run).1 0 0 accepted t more).2 (by simp [second])

def Client.object : Client → Option Nat
  | .fstat fd | .lseek fd | .read fd _ | .mmap fd | .close fd _ => some fd
  | .work sptr => sptr
  | .shmOpen | .exited _ | .killed => none

structure Single (server : Nat) (s : State) : Prop where
  others : ∀ p, p ≠ server → s.server p = .killed
  early : s.server server = .unlink ∨ s.server server = .shmOpen → s.name = none
  held : ∀ o, (s.server server).object = some o → s.name = some o
  opened : ∀ c o, (s.client c).object = some o → s.name = some o

theorem Client.accepted_object {client : Client} (accepted : client.accepted = some o) : client.object = some o := by
  cases client <;> first | exact accepted | cases accepted

theorem Single.putClient {server : Nat} {client : Client} (single : Single server s) (c : Nat)
    (same : client.object = none ∨ client.object = (s.client c).object ∨ client.object = s.name) :
    Single server (s.putClient c client) := by
  refine ⟨single.others, single.early, single.held, ?_⟩
  intro d o
  rw [client_put]
  split
  · intro opened
    rcases same with none | kept | new
    · rw [none] at opened
      cases opened
    · exact single.opened c o (kept ▸ opened)
    · exact new ▸ opened
  · exact single.opened d o

theorem Single.alone {server : Nat} (single : Single server s) (alive : s.server p ≠ .killed) : p = server := by
  by_contra other
  exact alive (single.others p other)

theorem Single.putServer {server : Nat} {next : Server} (single : Single server s) (p : Nat)
    (alive : s.server p ≠ .killed) (object : ∀ o, next.object = some o → (s.server p).object = some o)
    (moved : next ≠ .unlink ∧ next ≠ .shmOpen) : Single server (s.putServer p next) := by
  obtain rfl := single.alone alive
  refine ⟨?_, ?_, ?_, single.opened⟩
  · intro q other
    rw [server_put, if_neg other]
    exact single.others q other
  · rw [server_put, if_pos rfl]
    intro early
    rcases early with early | early
    · exact absurd early moved.1
    · exact absurd early moved.2
  · intro o
    rw [server_put, if_pos rfl]
    intro held
    exact single.held o (object o held)

theorem Single.putObject {server : Nat} (single : Single server s) (fd : Nat) (object : Object) :
    Single server (s.putObject fd object) := ⟨single.others, single.early, single.held, single.opened⟩

theorem Single.kill {server : Nat} (single : Single server s) (p : Nat) : Single server (s.putServer p .killed) := by
  refine ⟨?_, ?_, ?_, single.opened⟩
  · intro q other
    rw [server_put]
    split
    · rfl
    · exact single.others q other
  · rw [server_put]
    split
    · intro early
      rcases early with early | early <;> cases early
    · exact single.early
  · intro o
    rw [server_put]
    split
    · intro held
      cases held
    · exact single.held o

theorem Single.unopened {server : Nat} (single : Single server s)
    (early : s.server server = .unlink ∨ s.server server = .shmOpen) (c : Nat) : (s.client c).object = none := by
  cases opened : (s.client c).object with
  | none => rfl
  | some o =>
    have named := single.opened c o opened
    rw [single.early early] at named
    cases named

theorem Single.unlink {server : Nat} (single : Single server s) (here : s.server server = .unlink) :
    Single server ({ s with name := none }.putServer server .shmOpen) := by
  refine ⟨?_, fun _ => rfl, ?_, ?_⟩
  · intro q other
    rw [server_put, if_neg other]
    exact single.others q other
  · intro o
    rw [server_put, if_pos rfl]
    intro held
    cases held
  · intro c o opened
    have opened : (s.client c).object = some o := opened
    rw [single.unopened (.inl here) c] at opened
    cases opened

theorem Single.create {server : Nat} (single : Single server s) (here : s.server server = .shmOpen) :
    Single server (({ s with name := some s.next, next := s.next + 1 }.putObject s.next ⟨0, 0⟩).putServer server
      (.ftruncate s.next)) := by
  refine ⟨?_, ?_, ?_, ?_⟩
  · intro q other
    rw [server_put, if_neg other]
    exact single.others q other
  · rw [server_put, if_pos rfl]
    intro early
    rcases early with early | early <;> cases early
  · intro o
    rw [server_put, if_pos rfl]
    exact id
  · intro c o opened
    have opened : (s.client c).object = some o := opened
    rw [single.unopened (.inr here) c] at opened
    cases opened

theorem Single.unlinkFails {server : Nat} (single : Single server s) (here : s.server server = .unlink) :
    Single server (s.putServer server .shmOpen) := by
  refine ⟨?_, fun _ => single.early (.inl here), ?_, single.opened⟩
  · intro q other
    rw [server_put, if_neg other]
    exact single.others q other
  · intro o
    rw [server_put, if_pos rfl]
    intro held
    cases held

theorem single_step {server : Nat} (inv : Inv failing size s) (single : Single server s)
    (step : Step failing size s t) : Single server t := by
  cases step with
  | unlink p here =>
    obtain rfl := single.alone (p := p) (by simp [here])
    exact single.unlink here
  | unlinkFails p here =>
    obtain rfl := single.alone (p := p) (by simp [here])
    exact single.unlinkFails here
  | create p here free =>
    obtain rfl := single.alone (p := p) (by simp [here])
    exact single.create here
  | createFails p here =>
    exact single.putServer p (by simp [here]) (by simp [Server.object]) (by simp)
  | ftruncate p fd here =>
    apply (single.putObject fd _).putServer p
    · simp [State.putObject, here]
    · show ∀ o, some fd = some o → (s.server p).object = some o
      rw [here]
      exact fun o same => same
    · simp
  | ftruncateFails p fd here =>
    exact single.putServer p (by simp [here]) (by rw [here]; exact fun o same => same) (by simp)
  | write p fd here =>
    apply (single.putObject fd _).putServer p
    · simp [State.putObject, here]
    · show ∀ o, some fd = some o → (s.server p).object = some o
      rw [here]
      exact fun o same => same
    · simp
  | writeFails p fd here =>
    exact single.putServer p (by simp [here]) (by rw [here]; exact fun o same => same) (by simp)
  | mmap p fd here =>
    exact single.putServer p (by simp [here]) (by rw [here]; exact fun o same => same) (by simp)
  | mmapFails p fd here =>
    exact single.putServer p (by simp [here]) (by rw [here]; exact fun o same => same) (by simp)
  | close p fd sptr here =>
    have mapped := inv.mapped p fd sptr here
    refine single.putServer p (by simp [here]) ?_ (by simp)
    rw [here]
    intro o same
    rcases mapped with rfl | rfl
    · exact same
    · cases same
  | sigusr1 p sptr here =>
    exact single.putServer p (by simp [here]) (by simp [Server.object]) (by simp)
  | killServer p => exact single.kill p
  | shmOpen c o here named => exact single.putClient c (.inr (.inr named.symm))
  | shmOpenFails c here => exact single.putClient c (.inl rfl)
  | fstat c fd here =>
    apply single.putClient
    rw [here]
    split
    · exact .inr (.inl rfl)
    · exact .inl rfl
  | fstatFails c fd garbage here fails =>
    apply single.putClient
    rw [here]
    split
    · exact .inr (.inl rfl)
    · exact .inl rfl
  | lseek c fd here => exact single.putClient c (.inr (.inl (by rw [here]; rfl)))
  | lseekFails c fd here => exact single.putClient c (.inr (.inl (by rw [here]; rfl)))
  | read c fd offset here =>
    apply single.putClient
    rw [here]
    split
    · exact .inr (.inl rfl)
    · exact .inl rfl
  | readFails c fd offset here fails => exact single.putClient c (.inl rfl)
  | clientMmap c fd here => exact single.putClient c (.inr (.inl (by rw [here]; rfl)))
  | clientMmapFails c fd here => exact single.putClient c (.inr (.inl (by rw [here]; rfl)))
  | clientClose c fd sptr here =>
    have sees := inv.sees c
    rw [here] at sees
    apply single.putClient
    rw [here]
    rcases sees.2.2 with rfl | rfl
    · exact .inr (.inl rfl)
    · exact .inl rfl
  | clientExits c sptr here => exact single.putClient c (.inl rfl)
  | killClient c => exact single.putClient c (.inl rfl)

def Client.mapped : Client → Option Nat
  | .close _ sptr | .work sptr => sptr
  | _ => none

theorem Client.Sees.mapped {next : Nat} {objects : Nat → Object} {client : Client}
    (sees : client.Sees size next objects sure) (mapped : client.mapped = some o) : client.accepted = some o := by
  cases client with
  | close fd sptr =>
    obtain rfl : sptr = some o := mapped
    exact (sees.2.2.resolve_right (by simp)).symm
  | work sptr => exact mapped
  | shmOpen => cases mapped
  | fstat fd => cases mapped
  | lseek fd => cases mapped
  | read fd offset => cases mapped
  | mmap fd => cases mapped
  | exited status => cases mapped
  | killed => cases mapped

/-- One server that starts where there is no object of the name: what it has is what every client has opened
    that is behind `check`, and what every client maps, in every interleaving. -/
theorem handshake_agrees {start : State} {server : Nat} (large : 4 ≤ size) (first : Start start)
    (alone : ∀ p, p ≠ server → start.server p = .killed) (unnamed : start.name = none)
    (run : Reachable (Step failing size) start s) :
    ∀ c o o', (s.client c).accepted = some o ∨ (s.client c).mapped = some o →
      (s.server server).object = some o' → o = o' := by
  have single : Single server start := by
    refine ⟨alone, fun _ => unnamed, ?_, ?_⟩
    · intro o held
      rcases first.server server with here | here <;> rw [here] at held <;> cases held
    · intro c o opened
      rcases first.client c with here | here <;> rw [here] at opened <;> cases opened
  have both : Inv failing size s ∧ Single server s := by
    apply run.invariant ⟨inv_start first, single⟩
    intro u v before step
    exact ⟨(inv_step large before.1 step).1, single_step before.1 before.2 step⟩
  intro c o o' has held
  have accepted : (s.client c).accepted = some o := has.elim id (both.1.sees c).mapped
  have name := both.2.opened c o (Client.accepted_object accepted)
  have name' := both.2.held o' held
  exact Option.some.inj (name.symm.trans name')

theorem handshake_agrees_pair : ∃ s, Reachable (Step second 4208) pair s ∧
    ∀ c o, (s.client c).accepted = some o ∨ (s.client c).mapped = some o → o = 0 := by
  obtain ⟨s, run, _, here⟩ := pair_run
  have alone : ∀ p, p ≠ 0 → pair.server p = .killed := by
    intro p other
    exact if_neg other
  refine ⟨s, run, ?_⟩
  intro c o accepted
  exact handshake_agrees (by decide) start_pair alone rfl run c o 0 accepted (by rw [here]; rfl)

end OS2.Shm
