import OS2.Lsh.Trim
import OS2.Loop.Fuel

namespace OS2.Lsh

open OS2.Text OS2.Loop

inductive Access where
  | read (i : Int)
  | write (i : Int)
  deriving DecidableEq, Repr

/-- A pointer on its way through the memory, and the accesses made so far. -/
structure Walk where
  mem : Int → Char
  pos : Int
  log : List Access

def Walk.read (w : Walk) : Walk := { w with log := w.log ++ [.read w.pos] }

def Walk.advance (w : Walk) : Walk := { w.read with pos := w.pos + 1 }

def Walk.erase (w : Walk) : Walk :=
  { mem := Function.update w.mem w.pos NUL, pos := w.pos - 1, log := w.log ++ [.read w.pos, .write w.pos] }

def Walk.sees (test : Char → Bool) (w : Walk) : Bool := test (w.mem w.pos)

def forward (test : Char → Bool) (fuel : Nat) (w : Walk) : Except (Stop Empty) Walk :=
  (whileLoop (Walk.sees test) (fun w => .ok w.advance) fuel w).map Walk.read

def backward (fuel : Nat) (w : Walk) : Except (Stop Empty) Walk :=
  (whileLoop (Walk.sees isspace) (fun w => .ok w.erase) fuel w).map Walk.read

/-- `trim(str)` on the whole memory, with its three walks: to `start`, to the end in `strlen(str)`, and
    back from there. -/
def trimWalk (fuel : Nat) (mem : Int → Char) (str : Int) : Except (Stop Empty) (Walk × Int) := do
  let start ← forward isspace fuel ⟨mem, str, []⟩
  let nul ← forward (· != NUL) fuel { start with pos := str }
  let cut ← backward fuel { nul with pos := nul.pos - 1 }
  .ok (cut, start.pos)

structure Holds (mem : Int → Char) (str : Int) (s : Str) : Prop where
  free : NulFree s
  chars : ∀ (k : Nat) (c : Char), s[k]? = some c → mem (str + k) = c
  nul : mem (str + s.length) = NUL

/-- What `trim` promises of a string: it stays inside it, clears white space behind the text only and
    returns the place of the text. -/
structure Trims (mem : Int → Char) (str : Int) (s : Str) (w : Walk) (start : Int) : Prop where
  reads : ∀ i, .read i ∈ w.log → str ≤ i ∧ i ≤ str + s.length
  writes : ∀ i, .write i ∈ w.log → ∃ k, k < s.length ∧ i = str + k ∧ Blank (s.drop k)
  kept : ∀ i, .write i ∉ w.log → w.mem i = mem i
  suffix : ∃ k, k ≤ s.length ∧ start = str + k
  text : Holds w.mem start (strip s)

theorem Holds.char {mem : Int → Char} {str : Int} {s : Str} (holds : Holds mem str s) {k : Nat}
    (inside : k < s.length) : mem (str + k) = s[k] :=
  holds.chars k _ (List.getElem?_eq_getElem inside)

def reads (pos : Int) (n : Nat) : List Access := (List.range n).map fun (k : Nat) => .read (pos + k)

def erases (pos : Int) (n : Nat) : List Access :=
  (List.range n).flatMap fun (k : Nat) => [.read (pos - k), .write (pos - k)]

def cleared (mem : Int → Char) (pos : Int) (n : Nat) : Int → Char :=
  fun i => if pos - n < i ∧ i ≤ pos then NUL else mem i

theorem read_mem_reads {pos i : Int} {n : Nat} : .read i ∈ reads pos n ↔ pos ≤ i ∧ i < pos + n := by
  simp only [reads, List.mem_map, List.mem_range, Access.read.injEq]
  constructor
  · intro ⟨k, bound, same⟩
    omega
  · intro ⟨low, high⟩
    exact ⟨(i - pos).toNat, by omega, by omega⟩

theorem write_mem_reads {pos i : Int} {n : Nat} : .write i ∉ reads pos n := by
  simp [reads]

theorem read_mem_erases {pos i : Int} {n : Nat} : .read i ∈ erases pos n ↔ pos - n < i ∧ i ≤ pos := by
  simp only [erases, List.mem_flatMap, List.mem_range, List.mem_cons, Access.read.injEq, reduceCtorEq,
    List.not_mem_nil, or_false]
  constructor
  · intro ⟨k, bound, same⟩
    omega
  · intro ⟨low, high⟩
    exact ⟨(pos - i).toNat, by omega, by omega⟩

theorem write_mem_erases {pos i : Int} {n : Nat} : .write i ∈ erases pos n ↔ pos - n < i ∧ i ≤ pos := by
  simp only [erases, List.mem_flatMap, List.mem_range, List.mem_cons, Access.write.injEq, reduceCtorEq,
    List.not_mem_nil, or_false, false_or]
  constructor
  · intro ⟨k, bound, same⟩
    omega
  · intro ⟨low, high⟩
    exact ⟨(pos - i).toNat, by omega, by omega⟩

theorem forward_ends {test : Char → Bool} {mem : Int → Char} {pos : Int} {n : Nat} (log : List Access)
    (pass : ∀ k : Nat, k < n → test (mem (pos + k)) = true) (stop : test (mem (pos + n)) = false) :
    Ends (forward test · ⟨mem, pos, log⟩) (.ok ⟨mem, pos + n, log ++ reads pos (n + 1)⟩) := by
  have walked : ∀ m : Nat, m ≤ n → Reaches (Walk.sees test) (fun w => (.ok w.advance : Except Empty Walk))
      ⟨mem, pos, log⟩ ⟨mem, pos + m, log ++ reads pos m⟩ := by
    intro m bound
    induction m with
    | zero => simpa [reads, Reaches] using Relation.ReflTransGen.refl
    | succ m ih =>
      refine (ih (by omega)).tail ⟨pass m bound, ?_⟩
      simp [Walk.advance, Walk.read, reads, List.range_succ, Int.add_assoc]
  have exits : Ends (whileLoop (Walk.sees test) (fun w => (.ok w.advance : Except Empty Walk)) ·
      ⟨mem, pos, log⟩) (.ok ⟨mem, pos + n, log ++ reads pos n⟩) :=
    ((walked n (Nat.le_refl n)).sameEnd _).mpr (ends_exit stop)
  have last := exits.map Walk.read
  have shape : Walk.read ⟨mem, pos + n, log ++ reads pos n⟩ = ⟨mem, pos + n, log ++ reads pos (n + 1)⟩ := by
    simp [Walk.read, reads, List.range_succ]
  rw [← shape]
  exact last

theorem backward_ends {mem : Int → Char} {pos : Int} {n : Nat} (log : List Access)
    (pass : ∀ k : Nat, k < n → isspace (mem (pos - k)) = true) (stop : isspace (mem (pos - n)) = false) :
    Ends (backward · ⟨mem, pos, log⟩)
      (.ok ⟨cleared mem pos n, pos - n, log ++ erases pos n ++ [.read (pos - n)]⟩) := by
  have walked : ∀ m : Nat, m ≤ n → Reaches (Walk.sees isspace) (fun w => (.ok w.erase : Except Empty Walk))
      ⟨mem, pos, log⟩ ⟨cleared mem pos m, pos - m, log ++ erases pos m⟩ := by
    intro m bound
    induction m with
    | zero =>
      have same : cleared mem pos 0 = mem := by
        funext i
        simp only [cleared]
        split
        · omega
        · rfl
      simpa [same, erases, Reaches] using Relation.ReflTransGen.refl
    | succ m ih =>
      have here : cleared mem pos m (pos - m) = mem (pos - m) := if_neg (by omega)
      refine (ih (by omega)).tail ⟨?_, ?_⟩
      · show isspace (cleared mem pos m (pos - m)) = true
        rw [here]
        exact pass m bound
      · have next : Function.update (cleared mem pos m) (pos - m) NUL = cleared mem pos (m + 1) := by
          funext i
          simp only [Function.update_apply, cleared]
          grind
        simp only [Walk.erase, next, erases, List.range_succ, List.flatMap_append, List.flatMap_singleton,
          List.append_assoc]
        congr 2
        omega
  have here : cleared mem pos n (pos - n) = mem (pos - n) := if_neg (by omega)
  have done : Walk.sees isspace ⟨cleared mem pos n, pos - n, log ++ erases pos n⟩ = false := by
    show isspace (cleared mem pos n (pos - n)) = false
    rw [here]
    exact stop
  have exits : Ends (whileLoop (Walk.sees isspace) (fun w => (.ok w.erase : Except Empty Walk)) ·
      ⟨mem, pos, log⟩) (.ok ⟨cleared mem pos n, pos - n, log ++ erases pos n⟩) :=
    ((walked n (Nat.le_refl n)).sameEnd _).mpr (ends_exit done)
  exact exits.map Walk.read

theorem Holds.lead {mem : Int → Char} {str : Int} {s : Str} (holds : Holds mem str s) :
    (∀ k : Nat, k < (s.takeWhile isspace).length → isspace (mem (str + k)) = true) ∧
      isspace (mem (str + (s.takeWhile isspace).length)) = false := by
  have split := List.takeWhile_append_dropWhile (p := isspace) (l := s)
  constructor
  · intro k inside
    have char : s[k]? = some (s.takeWhile isspace)[k] := by
      conv_lhs => rw [← split]
      rw [List.getElem?_append_left inside, List.getElem?_eq_getElem inside]
    rw [holds.chars k _ char]
    exact List.mem_takeWhile_imp (List.getElem_mem inside)
  · cases rest : s.dropWhile isspace with
    | nil =>
      rw [rest, List.append_nil] at split
      rw [split, holds.nul]
      rfl
    | cons c cs =>
      have stop := List.head?_dropWhile_not isspace s
      rw [rest] at split stop
      have char : (s.takeWhile isspace ++ c :: cs)[(s.takeWhile isspace).length]? = some c := by simp
      rw [split] at char
      rw [holds.chars _ c char]
      exact stop

theorem trimWalk_forward {mem : Int → Char} {str : Int} {s : Str} (holds : Holds mem str s) :
    ∃ log, (∀ i, .read i ∈ log → str ≤ i ∧ i ≤ str + s.length) ∧ (∀ i, .write i ∉ log) ∧
      ∃ least, ∀ fuel, least ≤ fuel → trimWalk fuel mem str =
        backward fuel ⟨mem, str + s.length - 1, log⟩ >>= fun cut =>
          .ok (cut, str + (s.takeWhile isspace).length) := by
  have lead : Ends (forward isspace · ⟨mem, str, []⟩)
      (.ok ⟨mem, str + (s.takeWhile isspace).length, [] ++ reads str ((s.takeWhile isspace).length + 1)⟩) :=
    forward_ends [] holds.lead.1 holds.lead.2
  have whole : Ends (forward (· != NUL) · ⟨mem, str, [] ++ reads str ((s.takeWhile isspace).length + 1)⟩)
      (.ok ⟨mem, str + s.length,
        [] ++ reads str ((s.takeWhile isspace).length + 1) ++ reads str (s.length + 1)⟩) := by
    apply forward_ends
    · intro k inside
      rw [holds.char inside]
      exact bne_iff_ne.mpr (holds.free.ne_of_mem (List.getElem_mem inside))
    · rw [holds.nul]
      rfl
  have bound : (s.takeWhile isspace).length ≤ s.length := (List.takeWhile_prefix isspace).length_le
  obtain ⟨n, first⟩ := lead
  obtain ⟨m, second⟩ := whole
  refine ⟨[] ++ reads str ((s.takeWhile isspace).length + 1) ++ reads str (s.length + 1), ?_, ?_, max n m,
    fun fuel enough => ?_⟩
  · intro i member
    simp only [List.nil_append, List.mem_append, read_mem_reads] at member
    omega
  · intro i member
    simp only [List.nil_append, List.mem_append, write_mem_reads, or_self] at member
  · simp only [trimWalk, first fuel (by omega), second fuel (by omega), Bind.bind, Except.bind]

theorem Holds.behind {mem : Int → Char} {str : Int} {front rest : Str} (holds : Holds mem str (front ++ rest))
    {j : Nat} (inside : j < rest.length) : mem (str + (front.length + j : Nat)) = rest[j] := by
  apply holds.chars
  rw [List.getElem?_append_right (Nat.le_add_right _ _), Nat.add_sub_cancel_left, List.getElem?_eq_getElem inside]

theorem Holds.trail {mem : Int → Char} {str : Int} {front trail : Str} {last : Char}
    (holds : Holds mem str (front ++ last :: trail)) (trailing : Blank trail) (black : isspace last = false) :
    (∀ k : Nat, k < trail.length → isspace (mem (str + (front ++ last :: trail).length - 1 - k)) = true) ∧
      isspace (mem (str + (front ++ last :: trail).length - 1 - trail.length)) = false := by
  rw [List.length_append, List.length_cons]
  constructor
  · intro k inside
    have char := holds.behind (j := trail.length - k) (by simp only [List.length_cons]; omega)
    have place : str + (front.length + (trail.length + 1) : Nat) - 1 - (k : Int) =
        str + (front.length + (trail.length - k) : Nat) := by omega
    rw [place, char, List.getElem_cons, dif_neg (by omega)]
    exact trailing _ (List.getElem_mem _)
  · have char := holds.behind (j := 0) (by simp)
    have place : str + (front.length + (trail.length + 1) : Nat) - 1 - (trail.length : Int) =
        str + (front.length + 0 : Nat) := by omega
    rw [place, char]
    exact black

theorem trimWalk_text {mem : Int → Char} {str : Int} {lead text trail : Str}
    (holds : Holds mem str (lead ++ (text ++ trail))) (leading : Blank lead) (trailing : Blank trail)
    (trimmed : Trimmed text) (nonempty : text ≠ []) :
    ∃ w, Ends (trimWalk · mem str) (.ok (w, str + lead.length)) ∧
      w.mem = cleared mem (str + (lead ++ (text ++ trail)).length - 1) trail.length ∧
      (∀ i, .read i ∈ w.log → str ≤ i ∧ i ≤ str + (lead ++ (text ++ trail)).length) ∧
      ∀ i, .write i ∈ w.log ↔
        str + (lead ++ text).length ≤ i ∧ i < str + (lead ++ (text ++ trail)).length := by
  obtain ⟨log, reads, writes, least, forwards⟩ := trimWalk_forward holds
  have start : (lead ++ (text ++ trail)).takeWhile isspace = lead := by
    rw [List.takeWhile_append_of_pos leading]
    cases text with
    | nil => exact absurd rfl nonempty
    | cons c text => rw [List.cons_append, List.takeWhile_cons_of_neg (by simp [trimmed.1 c rfl]), List.append_nil]
  obtain ⟨front, last, rfl⟩ : ∃ front last, text = front ++ [last] :=
    ⟨text.dropLast, text.getLast nonempty, (List.dropLast_append_getLast nonempty).symm⟩
  have black : isspace last = false := trimmed.2 last (by simp)
  have shape : lead ++ ((front ++ [last]) ++ trail) = (lead ++ front) ++ last :: trail := by simp
  rw [shape] at holds
  have behind := holds.trail trailing black
  obtain ⟨enough, back⟩ := backward_ends log behind.1 behind.2
  rw [start, shape] at forwards
  rw [shape] at reads ⊢
  let final := str + ((lead ++ front) ++ last :: trail).length - 1
  let cut : Walk := ⟨cleared mem final trail.length, final - trail.length,
    log ++ erases final trail.length ++ [.read (final - trail.length)]⟩
  have ends : Ends (trimWalk · mem str) (.ok (cut, str + lead.length)) := by
    refine ⟨max least enough, fun fuel bound => ?_⟩
    have returned : backward fuel _ = _ := back fuel (by omega)
    show trimWalk fuel mem str = _
    rw [forwards fuel (by omega), returned]
    rfl
  have logged : cut.log = log ++ erases final trail.length ++ [.read (final - trail.length)] := rfl
  have ending : final = str + (lead ++ (front ++ [last])).length + trail.length - 1 := by
    simp only [final, List.length_append, List.length_cons, List.length_nil]
    omega
  have length : ((lead ++ front) ++ last :: trail).length = (lead ++ (front ++ [last])).length + trail.length := by
    simp only [List.length_append, List.length_cons, List.length_nil]
    omega
  have reached : 1 ≤ (lead ++ (front ++ [last])).length := by
    simp only [List.length_append, List.length_cons, List.length_nil]
    omega
  refine ⟨cut, ends, rfl, ?_, ?_⟩
  · intro i member
    simp only [logged, List.mem_append, List.mem_singleton, Access.read.injEq, read_mem_erases] at member
    rcases member with (first | inside) | stop
    · exact reads i first
    · omega
    · omega
  · intro i
    simp only [logged, List.mem_append, List.mem_singleton, reduceCtorEq, or_false, write_mem_erases, writes i,
      false_or]
    omega

theorem trims_of_black {mem : Int → Char} {str : Int} {s : Str} (holds : Holds mem str s) (black : ¬ Blank s) :
    ∃ w start, Ends (trimWalk · mem str) (.ok (w, start)) ∧ Trims mem str s w start := by
  obtain ⟨lead, trail, split, leading, trailing, trimmed⟩ := strip_split s
  have nonempty : strip s ≠ [] := fun empty => black (strip_eq_nil.mp empty)
  have shape : s = (lead ++ strip s) ++ trail := by rw [List.append_assoc]; exact split
  have total : s.length = (lead ++ strip s).length + trail.length := by
    conv_lhs => rw [shape]
    exact List.length_append
  obtain ⟨w, ends, memory, reads, writes⟩ :=
    trimWalk_text (split ▸ holds) leading trailing trimmed nonempty
  rw [← split] at memory reads writes
  have outside : ∀ i, i < str + (lead ++ strip s).length ∨ str + s.length ≤ i → w.mem i = mem i := by
    intro i where_
    rw [memory]
    exact if_neg (by omega)
  rw [List.length_append] at total
  refine ⟨w, str + lead.length, ends, reads, ?_, ?_, ⟨lead.length, by omega, rfl⟩, ?_, ?_, ?_⟩
  · intro i member
    have range := (writes i).mp member
    rw [List.length_append] at range
    refine ⟨(i - str).toNat, by omega, by omega, fun c later => ?_⟩
    rw [shape, List.drop_append, List.drop_eq_nil_of_le (by rw [List.length_append]; omega), List.nil_append] at later
    exact trailing c (List.mem_of_mem_drop later)
  · intro i untouched
    apply outside
    by_contra within
    exact untouched ((writes i).mpr (by omega))
  · exact nulFree_strip holds.free
  · intro k c char
    have inside : k < (strip s).length := (List.getElem?_eq_some_iff.mp char).1
    rw [outside _ (.inl (by rw [List.length_append]; omega)), Int.add_assoc, ← Int.natCast_add]
    apply holds.chars
    rw [shape, List.append_assoc, List.getElem?_append_right (Nat.le_add_right _ _), Nat.add_sub_cancel_left,
      List.getElem?_append_left inside]
    exact char
  · cases trail with
    | nil =>
      rw [List.length_nil] at total
      rw [outside _ (.inr (by omega)), ← holds.nul]
      congr 1
      omega
    | cons c trail =>
      rw [List.length_cons] at total memory
      rw [memory]
      exact if_pos (by omega)

/-- On a blank string the walk back meets no character that stops it, and reads in front of the string. -/
theorem reads_in_front {mem : Int → Char} {str : Int} {s : Str} (holds : Holds mem str s) (blank : Blank s)
    {w : Walk} {start : Int} (ends : Ends (trimWalk · mem str) (.ok (w, start))) : .read (str - 1) ∈ w.log := by
  obtain ⟨log, _, _, least, forwards⟩ := trimWalk_forward holds
  obtain ⟨enough, returns⟩ := ends
  have returned : trimWalk (max least enough) mem str = .ok (w, start) := returns _ (by omega)
  rw [forwards _ (by omega)] at returned
  obtain ⟨cut, back, same⟩ := bind_ok returned
  obtain rfl : cut = w := congrArg Prod.fst (Except.ok.inj same)
  unfold backward at back
  cases walked : whileLoop (Walk.sees isspace) (fun w => (.ok w.erase : Except Empty Walk)) (max least enough)
      ⟨mem, str + s.length - 1, log⟩ with
  | error stop =>
    rw [walked] at back
    cases back
  | ok last =>
    rw [walked] at back
    cases back
    let inside (v : Walk) : Prop := str - 1 ≤ v.pos ∧ ∀ i, str ≤ i → i ≤ v.pos → isspace (v.mem i) = true
    have starts : inside ⟨mem, str + s.length - 1, log⟩ := by
      refine ⟨by show str - 1 ≤ str + s.length - 1; omega, fun i low high => ?_⟩
      have below : (i - str).toNat < s.length := by
        change i ≤ str + s.length - 1 at high
        omega
      have place : i = str + ((i - str).toNat : Int) := by omega
      show isspace (mem i) = true
      rw [place, holds.char below]
      exact blank _ (List.getElem_mem below)
    have step : ∀ u v, (inside u ∨ .read (str - 1) ∈ u.log) →
        Iter (Walk.sees isspace) (fun w => (.ok w.erase : Except Empty Walk)) u v →
        inside v ∨ .read (str - 1) ∈ v.log := by
      intro u v before iter
      obtain ⟨_, rfl⟩ : _ ∧ u.erase = v := ⟨iter.1, Except.ok.inj iter.2⟩
      rcases before with ⟨low, spaces⟩ | already
      · by_cases front : u.pos = str - 1
        · right
          simp [Walk.erase, front]
        · left
          refine ⟨by simp only [Walk.erase]; omega, fun i above below => ?_⟩
          simp only [Walk.erase] at below ⊢
          rw [Function.update_of_ne (by omega)]
          exact spaces i above (by omega)
      · right
        simp [Walk.erase, already]
    obtain ⟨final, stopped⟩ := whileLoop_invariant step (.inl starts) walked
    simp only [Walk.read, List.mem_append, List.mem_singleton, Access.read.injEq]
    rcases final with ⟨low, spaces⟩ | already
    · right
      by_contra past
      have white := spaces last.pos (by omega) (Int.le_refl _)
      exact Bool.false_ne_true (stopped.symm.trans white)
    · exact .inl already

/-- `trim` keeps to its string and finds its text exactly where there is a text. -/
theorem trim_in_bounds_iff {mem : Int → Char} {str : Int} {s : Str} (holds : Holds mem str s) :
    (∃ w start, Ends (trimWalk · mem str) (.ok (w, start)) ∧ Trims mem str s w start) ↔ ¬ Blank s := by
  constructor
  · intro ⟨w, start, ends, trims⟩ blank
    have front := trims.reads _ (reads_in_front holds blank ends)
    omega
  · exact trims_of_black holds

def bytes (block : List Char) (i : Int) : Char := if i < 0 then NUL else block.getD i.toNat NUL

theorem bytes_natCast (block : List Char) (n : Nat) : bytes block n = block.getD n NUL := by
  rw [bytes, if_neg (by omega), Int.toNat_natCast]

theorem holds_bytes {s : Str} (free : NulFree s) (pre post : List Char) :
    Holds (bytes (pre ++ (s ++ NUL :: post))) pre.length s := by
  refine ⟨free, fun k c char => ?_, ?_⟩
  · have inside : k < s.length := (List.getElem?_eq_some_iff.mp char).1
    rw [← Int.natCast_add, bytes_natCast, List.getD_eq_getElem?_getD,
      List.getElem?_append_right (Nat.le_add_right _ _), Nat.add_sub_cancel_left,
      List.getElem?_append_left inside, char]
    rfl
  · rw [← Int.natCast_add, bytes_natCast]
    simp

theorem trim_in_bounds_iff_padded :
    (∃ w start, Ends (trimWalk · (bytes " ls \n\x00".toList) 0) (.ok (w, start)) ∧
      Trims (bytes " ls \n\x00".toList) 0 " ls \n".toList w start) ↔ ¬ Blank " ls \n".toList :=
  trim_in_bounds_iff (holds_bytes (s := " ls \n".toList) (by decide) [] [])

theorem blank_line_leaves_buffer :
    Holds (bytes "x\n\x00".toList) 1 "\n".toList ∧
      ¬ ∃ w start, Ends (trimWalk · (bytes "x\n\x00".toList) 1) (.ok (w, start)) ∧
        Trims (bytes "x\n\x00".toList) 1 "\n".toList w start := by
  have holds : Holds (bytes "x\n\x00".toList) 1 "\n".toList := holds_bytes (s := ['\n']) (by decide) ['x'] []
  refine ⟨holds, fun ⟨w, start, ends, trims⟩ => ?_⟩
  have front := trims.reads _ (reads_in_front holds (by decide) ends)
  omega

end OS2.Lsh
