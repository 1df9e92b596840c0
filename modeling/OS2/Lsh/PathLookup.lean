import OS2.Lsh.Trim
import OS2.Loop.Fuel
import OS2.Text.Strtok

namespace OS2.Lsh

open OS2.Text OS2.Loop

inductive LookupFault where
  | underrun
  | overflow
  deriving DecidableEq, Repr

/-- `strdup(s)` in a new block behind the memory, in front of which there is a byte `below`. -/
def strdup (below : Char) (mem : List Char) (s : Nat) : List Char × Nat :=
  (mem ++ below :: (cstr mem s ++ [NUL]), mem.length + 1)

def trimIn (p : Nat) (mem : List Char) (str : Nat) : Option (List Char × Nat) :=
  (trim (mem.drop (p - 1)) (str - (p - 1))).map fun (block, start) => (mem.take (p - 1) ++ block, p - 1 + start)

def strcpy (size : Nat) (s : Str) : Except LookupFault Str :=
  if s.length + 1 ≤ size then .ok s else .error .overflow

def strcat (size : Nat) (dest s : Str) : Except LookupFault Str := strcpy size (dest ++ s)

inductive Which where
  | path
  | execpath (text : Str)
  deriving DecidableEq, Repr

structure Lookup where
  mem : List Char
  saveptr : Nat
  token : Option Nat
  which : Which

def Lookup.strtok (l : Lookup) : Lookup :=
  let (mem, token, saveptr) := strtokR ':' l.mem l.saveptr
  { l with mem, token, saveptr }

def Lookup.searching (l : Lookup) : Bool := l.token.isSome && l.which == .path

/-- `execpath`, in a block of `strlen(token) + binlen + 2` bytes. `int binlen` is exact: a line holds at
    most ARG_MAX characters. -/
def execpath (token binary : Str) : Except LookupFault Str := do
  let size := token.length + binary.length + 2
  let execpath ← strcpy size token
  let execpath ← strcat size execpath ['/']
  strcat size execpath binary

def tryToken (p : Nat) (binary : Str) (stat : Str → Bool) (l : Lookup) : Except LookupFault Lookup :=
  match l.token with
  | none => .ok l
  | some token =>
    match trimIn p l.mem token with
    | none => .error .underrun
    | some (mem, token) => do
      let execpath ← execpath (cstr mem token) binary
      if stat execpath then .ok { l with mem, token := some token, which := .execpath execpath }
      else .ok { l with mem, token := some token : Lookup }.strtok

/-- `path_lookup(path, binary)` in a file system that has what `stat` finds, with the byte `below` in front of
    its copy of `path`: the memory of the caller, and `which`. -/
def pathLookup (fuel : Nat) (below : Char) (mem : List Char) (path : Nat) (binary : Str) (stat : Str → Bool) :
    Except (Stop LookupFault) (List Char × Which) := do
  let (copied, p) := strdup below mem path
  let l ← whileLoop Lookup.searching (tryToken p binary stat) fuel (Lookup.strtok ⟨copied, p, none, .path⟩)
  .ok (l.mem.take mem.length, l.which)

def candidate (binary c : Str) : Str := strip c ++ '/' :: binary

theorem execpath_fits (token binary : Str) : execpath token binary = .ok (token ++ '/' :: binary) := by
  simp only [execpath, strcat, strcpy, Bind.bind]
  rw [if_pos (by omega)]
  simp only [Except.bind, List.length_append, List.length_singleton]
  rw [if_pos (by omega)]
  simp only [List.length_append, List.length_singleton]
  rw [if_pos (by omega), List.append_assoc]
  rfl

theorem trim_blank_token {white c : Str} (before : Blank white) (blank : Blank c) {b : Char}
    (black : isspace b = false) (front post : List Char) :
    trim ((front ++ [b]) ++ (white ++ (c ++ NUL :: post))) ((front ++ [b]).length + white.length) =
      some ((front ++ [b]) ++ (List.replicate (white.length + c.length) NUL ++ NUL :: post),
        (front ++ [b]).length + white.length + c.length) := by
  have whole :
      cstr ((front ++ [b]) ++ (white ++ (c ++ NUL :: post))) ((front ++ [b]).length + white.length) = c := by
    have found := cstr_append (nulFree_of_blank blank) ((front ++ [b]) ++ white) post
    rw [List.length_append, List.append_assoc] at found
    exact found
  have start :
      skipSpace (((front ++ [b]) ++ (white ++ (c ++ NUL :: post))).drop ((front ++ [b]).length + white.length))
        ((front ++ [b]).length + white.length) = (front ++ [b]).length + white.length + c.length := by
    rw [← List.append_assoc, ← List.length_append, List.drop_left, skipSpace_blank blank,
      skipSpace_stop not_isspace_NUL]
  have both : Blank (white ++ c) := fun d member => (List.mem_append.mp member).elim (before d) (blank d)
  have erased := eraseSpace_blank both (front ++ [b]) (NUL :: post)
  have stop := eraseSpace_stop black front (List.replicate (white.length + c.length) NUL ++ NUL :: post)
  simp only [List.length_append, List.length_singleton, List.append_assoc, List.singleton_append, Nat.add_assoc]
    at whole start erased stop ⊢
  simp only [trim, whole, start, erased, stop, Option.map_some, Nat.add_assoc]

theorem trim_token {c : Str} (free : NulFree c) {below : Char} {front : List Char}
    (stops : ¬ Blank (below :: (front ++ c))) (post : List Char) :
    ∃ behind start, trim ([below] ++ (front ++ (c ++ NUL :: post))) (1 + front.length) =
        some ([below] ++ (behind ++ NUL :: post), start) ∧
      behind.length = front.length + c.length ∧ cstr ([below] ++ (behind ++ NUL :: post)) start = strip c := by
  by_cases blank : Blank c
  · have stop : ∃ x b, [below] ++ front.rdropWhile isspace = x ++ [b] ∧ isspace b = false := by
      by_cases none : front.rdropWhile isspace = []
      · have white : Blank front := List.rdropWhile_eq_nil_iff.mp none
        refine ⟨[], below, by rw [none]; rfl, ?_⟩
        by_contra space
        apply stops
        intro d member
        rcases List.mem_cons.mp member with rfl | member
        · simpa using space
        · rcases List.mem_append.mp member with inFront | inToken
          · exact white d inFront
          · exact blank d inToken
      · have last := List.rdropWhile_last_not isspace front none
        refine ⟨[below] ++ (front.rdropWhile isspace).dropLast, _, ?_, Bool.eq_false_iff.mpr last⟩
        rw [List.append_assoc, List.dropLast_append_getLast]
    have white : Blank (front.rtakeWhile isspace) := fun d => List.mem_rtakeWhile_imp
    have split : front = front.rdropWhile isspace ++ front.rtakeWhile isspace :=
      List.rdropWhile_append_rtakeWhile.symm
    generalize front.rdropWhile isspace = kept at stop split
    generalize front.rtakeWhile isspace = spaces at white split
    subst split
    obtain ⟨x, b, shape, black⟩ := stop
    have trimmed := trim_blank_token white blank black x post
    rw [← shape] at trimmed
    simp only [List.length_append, List.length_singleton, List.append_assoc, Nat.add_assoc] at trimmed ⊢
    refine ⟨kept ++ List.replicate (spaces.length + c.length) NUL,
      1 + (kept.length + (spaces.length + c.length)), ?_, ?_, ?_⟩
    · rw [List.append_assoc]
      exact trimmed
    · rw [List.length_append, List.length_replicate]
    · rw [strip_eq_nil.mpr blank]
      simp [cstr, Nat.add_comm 1]
  · obtain ⟨behind, start, trimmed, length, text⟩ := trim_black free blank ([below] ++ front) post
    refine ⟨front ++ behind, start, ?_, ?_, ?_⟩
    · simpa [Nat.add_comm 1] using trimmed
    · rw [List.length_append, length]
    · simpa using text

theorem trimIn_token {c : Str} (free : NulFree c) {below : Char} {front : List Char}
    (stops : ¬ Blank (below :: (front ++ c))) (mem post : List Char) :
    ∃ behind start, trimIn (mem.length + 1) ((mem ++ [below]) ++ (front ++ (c ++ NUL :: post)))
          ((mem ++ [below]).length + front.length) = some ((mem ++ [below]) ++ (behind ++ NUL :: post), start) ∧
      behind.length = front.length + c.length ∧ cstr ((mem ++ [below]) ++ (behind ++ NUL :: post)) start = strip c := by
  obtain ⟨behind, start, trimmed, length, text⟩ := trim_token free stops post
  refine ⟨behind, mem.length + start, ?_, length, ?_⟩
  · have place : (mem ++ [below]).length + front.length - mem.length = 1 + front.length := by
      rw [List.length_append, List.length_singleton]
      omega
    rw [trimIn, Nat.add_sub_cancel, place, List.append_assoc, List.drop_left, trimmed, List.take_left,
      List.append_assoc]
    rfl
  · rw [← text, cstr, cstr, List.append_assoc, List.drop_length_add_append]

/-- The path begins with a component of white space. -/
def LeadsBlank (path : Str) : Prop := path.takeWhile (· != ':') ≠ [] ∧ Blank (path.takeWhile (· != ':'))

instance (path : Str) : Decidable (LeadsBlank path) := inferInstanceAs (Decidable (_ ∧ _))

theorem leadsBlank_token {c : Str} (nonempty : c ≠ []) (clean : ':' ∉ c) {tail : Str}
    (stop : ∀ d, tail.head? = some d → d = ':') : LeadsBlank (c ++ tail) ↔ Blank c := by
  have inside : ∀ d ∈ c, (d != ':') = true := fun d member => bne_iff_ne.mpr fun same => clean (same ▸ member)
  have taken : (c ++ tail).takeWhile (· != ':') = c := by
    rw [List.takeWhile_append_of_pos inside]
    cases tail with
    | nil => exact List.append_nil c
    | cons d tail =>
      obtain rfl := stop d rfl
      simp
  rw [LeadsBlank, taken]
  exact and_iff_right nonempty

theorem not_blank_token {below : Char} {front c tail : Str} {n : Nat} (nonempty : c ≠ []) (clean : ':' ∉ c)
    (stop : ∀ d, tail.head? = some d → d = ':')
    (stops : ¬ Blank (below :: front) ∨ ¬ LeadsBlank (List.replicate n ':' ++ (c ++ tail))) :
    ¬ Blank (below :: ((front ++ List.replicate n ':') ++ c)) := by
  intro blank
  have frontal : Blank (below :: front) := by
    intro d member
    apply blank d
    rcases List.mem_cons.mp member with same | member
    · exact same ▸ List.mem_cons_self
    · exact List.mem_cons_of_mem _ (List.mem_append_left _ (List.mem_append_left _ member))
  have leads := stops.resolve_left (not_not_intro frontal)
  cases n with
  | zero =>
    rw [List.replicate_zero, List.nil_append, leadsBlank_token nonempty clean stop] at leads
    exact leads fun d member => blank d (List.mem_cons_of_mem _ (List.mem_append_right _ member))
  | succ n =>
    have colon := blank ':' (by simp [List.replicate_succ])
    exact absurd colon (by decide)

def firstMatch (binary : Str) (stat : Str → Bool) (cs : List Str) : Which :=
  match cs.find? fun c => stat (candidate binary c) with
  | some c => .execpath (candidate binary c)
  | none => .path

variable {mem guard path : List Char} {below : Char} {addr : Nat}

theorem tryToken_token {c : Str} (shape : guard = mem ++ [below]) (free : NulFree c) {front : List Char}
    (stops : ¬ Blank (below :: (front ++ c))) (binary : Str) (stat : Str → Bool) (post : List Char) (saveptr : Nat) :
    ∃ behind start, behind.length = front.length + c.length ∧
      tryToken (mem.length + 1) binary stat
          ⟨guard ++ (front ++ (c ++ NUL :: post)), saveptr, some (guard.length + front.length), .path⟩ =
        .ok (if stat (candidate binary c) then
            ⟨guard ++ (behind ++ NUL :: post), saveptr, some start, .execpath (candidate binary c)⟩
          else Lookup.strtok ⟨guard ++ (behind ++ NUL :: post), saveptr, some start, .path⟩) := by
  subst shape
  obtain ⟨behind, start, trimmed, length, text⟩ := trimIn_token free stops mem post
  refine ⟨behind, start, length, ?_⟩
  have fits : execpath (strip c) binary = .ok (candidate binary c) := execpath_fits _ _
  simp only [tryToken, trimmed, text, fits, Bind.bind, Except.bind]
  by_cases exists_ : stat (candidate binary c) = true
  · rw [if_pos exists_, if_pos exists_]
  · rw [if_neg exists_, if_neg exists_]

theorem search_token {c : Str} (shape : guard = mem ++ [below]) (free : NulFree c) {front : List Char}
    (stops : ¬ Blank (below :: (front ++ c))) (binary : Str) (stat : Str → Bool) (post : List Char) (saveptr : Nat)
    {cs : List Str} (later : ∀ behind start, behind.length = front.length + c.length →
      ∃ l, Ends (whileLoop Lookup.searching (tryToken (mem.length + 1) binary stat) ·
        (Lookup.strtok ⟨guard ++ (behind ++ NUL :: post), saveptr, some start, .path⟩)) (.ok l) ∧
        guard <+: l.mem ∧ l.which = firstMatch binary stat cs) :
    ∃ l, Ends (whileLoop Lookup.searching (tryToken (mem.length + 1) binary stat) ·
      ⟨guard ++ (front ++ (c ++ NUL :: post)), saveptr, some (guard.length + front.length), .path⟩) (.ok l) ∧
      guard <+: l.mem ∧ l.which = firstMatch binary stat (c :: cs) := by
  obtain ⟨behind, start, length, tried⟩ := tryToken_token shape free stops binary stat post saveptr
  have passed : SameEnd Lookup.searching (tryToken (mem.length + 1) binary stat) _ _ := Iter.sameEnd ⟨rfl, tried⟩
  by_cases exists_ : stat (candidate binary c) = true
  · rw [if_pos exists_] at passed
    refine ⟨_, (passed _).mpr (ends_exit rfl), List.prefix_append _ _, ?_⟩
    simp [firstMatch, exists_]
  · rw [if_neg exists_] at passed
    obtain ⟨l, ends, kept, which⟩ := later behind start length
    refine ⟨l, (passed _).mpr ends, kept, ?_⟩
    rw [which]
    simp [firstMatch, exists_]

theorem front_length (front : List Char) (n : Nat) :
    (front ++ List.replicate n ':').length = front.length + n := by
  rw [List.length_append, List.length_replicate]

theorem search_ends {rest : Str} (shape : guard = mem ++ [below]) (free : NulFree rest) (binary : Str)
    (stat : Str → Bool) (front : List Char) (stops : ¬ Blank (below :: front) ∨ ¬ LeadsBlank rest)
    (token : Option Nat) :
    ∃ l, Ends (whileLoop Lookup.searching (tryToken (mem.length + 1) binary stat) ·
      (Lookup.strtok ⟨guard ++ (front ++ (rest ++ [NUL])), guard.length + front.length, token, .path⟩)) (.ok l) ∧
      guard <+: l.mem ∧ l.which = firstMatch binary stat (components ':' rest) := by
  have colon : ':' ≠ NUL := by decide
  induction rest using component_induction ':' generalizing front token with
  | none n =>
    have strtok := strtokR_none colon (guard ++ front) [] n
    have empty := components_delims ':' n []
    rw [List.append_nil] at empty
    simp only [List.append_assoc, List.length_append] at strtok
    simp only [Lookup.strtok, strtok, empty]
    exact ⟨_, ends_exit rfl, List.prefix_append _ _, rfl⟩
  | last n c nonempty clean =>
    have freeC : NulFree c := (nulFree_append.mp free).2
    have strtok := strtokR_token freeC nonempty clean (.inr rfl) (guard ++ front) [] n
    have inside := @not_blank_token below front c [] n nonempty clean (by simp) (by rwa [List.append_nil])
    rw [components_delims, components_last nonempty clean]
    simp only [List.append_assoc, List.length_append, if_true] at strtok
    simp only [Lookup.strtok, strtok, List.append_assoc]
    rw [← List.append_assoc front, Nat.add_assoc guard.length, ← front_length front n]
    apply search_token shape freeC inside
    intro behind start length
    have strtok := strtokR_none colon (guard ++ behind) [] 0
    simp only [List.replicate_zero, List.nil_append, List.append_assoc, List.length_append, Nat.add_zero] at strtok
    have place : guard.length + (front ++ List.replicate n ':').length + c.length = guard.length + behind.length := by
      rw [length, Nat.add_assoc]
    simp only [Lookup.strtok, strtok, place]
    exact ⟨_, ends_exit rfl, List.prefix_append _ _, rfl⟩
  | next n c s nonempty clean ih =>
    have freeC : NulFree c := (nulFree_append.mp (nulFree_append.mp free).2).1
    have freeS : NulFree s := (nulFree_cons.mp (nulFree_append.mp (nulFree_append.mp free).2).2).2
    have strtok := strtokR_token freeC nonempty clean (.inl rfl) (guard ++ front) (s ++ [NUL]) n
    have inside := @not_blank_token below front c (':' :: s) n nonempty clean (by simp) stops
    rw [components_delims, components_next nonempty clean]
    simp only [List.append_assoc, List.length_append, if_neg colon] at strtok
    simp only [Lookup.strtok, strtok, List.append_assoc, List.cons_append]
    rw [← List.append_assoc front, Nat.add_assoc guard.length, ← front_length front n]
    apply search_token shape freeC inside
    intro behind start length
    have ended : ¬ Blank (below :: (behind ++ [NUL])) :=
      fun blank => absurd (blank NUL (by simp)) (by decide)
    have later := ih freeS (behind ++ [NUL]) (.inl ended) (some start)
    have place : guard.length + (front ++ List.replicate n ':').length + c.length + 1 =
        guard.length + (behind ++ [NUL]).length := by
      have one : (behind ++ [NUL]).length = behind.length + 1 := List.length_append
      omega
    rw [place]
    simpa using later

theorem nulFree_cstr (mem : List Char) (addr : Nat) : NulFree (cstr mem addr) := by
  intro member
  simpa using List.mem_takeWhile_imp member

theorem strdup_eq (below : Char) (text : cstr mem addr = path) :
    strdup below mem addr = ((mem ++ [below]) ++ (path ++ [NUL]), mem.length + 1) := by
  rw [strdup, text, List.append_assoc]
  rfl

/-- `path_lookup` finds the first component that has the binary, unless `trim` writes in front of its copy of
    the path; the memory of the caller is as it was. -/
theorem pathLookup_ends (text : cstr mem addr = path) (stops : isspace below = false ∨ ¬ LeadsBlank path)
    (binary : Str) (stat : Str → Bool) :
    Ends (pathLookup · below mem addr binary stat) (.ok (mem, firstMatch binary stat (components ':' path))) := by
  have free : NulFree path := text ▸ nulFree_cstr mem addr
  have black : ¬ Blank [below] ∨ ¬ LeadsBlank path := by
    apply stops.imp_left
    intro black blank
    rw [blank below List.mem_cons_self] at black
    cases black
  obtain ⟨l, search, kept, which⟩ := search_ends rfl free binary stat [] black none
  have place : (mem ++ [below]).length + ([] : Str).length = mem.length + 1 := by simp
  rw [place, List.nil_append] at search
  have same : l.mem.take mem.length = mem :=
    List.prefix_iff_eq_take.mp ((List.prefix_append mem [below]).trans kept) |>.symm
  have result : (mem, firstMatch binary stat (components ':' path)) = (l.mem.take mem.length, l.which) := by
    rw [same, which]
  rw [result]
  simp only [pathLookup, strdup_eq below text]
  exact search.bind (Ends.const _)

theorem trimIn_underruns {c : Str} (shape : guard = mem ++ [below]) (white : isspace below = true) (blank : Blank c)
    (post : List Char) : trimIn (mem.length + 1) (guard ++ (c ++ NUL :: post)) guard.length = none := by
  subst shape
  have whole : cstr ([below] ++ (c ++ NUL :: post)) 1 = c := cstr_append (nulFree_of_blank blank) [below] post
  have erased := eraseSpace_blank blank [below] (NUL :: post)
  simp only [List.singleton_append, List.length_singleton, eraseSpace, List.getD_cons_zero, white, if_true]
    at whole erased
  have place : (mem ++ [below]).length - mem.length = 1 := by simp
  rw [trimIn, Nat.add_sub_cancel, place, List.append_assoc, List.drop_left]
  simp only [trim, List.singleton_append, whole, erased, Option.map_none]

theorem pathLookup_underruns (text : cstr mem addr = path) (white : isspace below = true) (leads : LeadsBlank path)
    (binary : Str) (stat : Str → Bool) :
    Ends (pathLookup · below mem addr binary stat) (.error (.fault .underrun)) := by
  have free : NulFree path := text ▸ nulFree_cstr mem addr
  obtain ⟨nonempty, blank⟩ := leads
  have split := List.takeWhile_append_dropWhile (p := (· != ':')) (l := path)
  have stop := List.head?_dropWhile_not (· != ':') path
  have clean : ':' ∉ path.takeWhile (· != ':') := fun member => by simpa using List.mem_takeWhile_imp member
  generalize path.takeWhile (· != ':') = c at nonempty blank split clean
  have cut : ∃ post saveptr, Lookup.strtok
      ⟨(mem ++ [below]) ++ (path ++ [NUL]), (mem ++ [below]).length, none, .path⟩ =
        ⟨(mem ++ [below]) ++ (c ++ NUL :: post), saveptr, some (mem ++ [below]).length, .path⟩ := by
    have freeC : NulFree c := (nulFree_append.mp (split ▸ free)).1
    cases rest : path.dropWhile (· != ':') with
    | nil =>
      rw [rest, List.append_nil] at split
      have strtok := strtokR_token freeC nonempty clean (.inr rfl) (mem ++ [below]) [] 0
      simp only [List.replicate_zero, List.nil_append, if_true, Nat.add_zero] at strtok
      refine ⟨[], (mem ++ [below]).length + c.length, ?_⟩
      simp only [Lookup.strtok, ← split, strtok]
    | cons d tail =>
      rw [rest] at split stop
      obtain rfl : d = ':' := by simpa using stop
      have strtok := strtokR_token freeC nonempty clean (.inl rfl) (mem ++ [below]) (tail ++ [NUL]) 0
      rw [if_neg (show ':' ≠ NUL by decide)] at strtok
      simp only [List.replicate_zero, List.nil_append, Nat.add_zero] at strtok
      refine ⟨tail ++ [NUL], (mem ++ [below]).length + c.length + 1, ?_⟩
      simp only [Lookup.strtok, ← split, List.append_assoc, List.cons_append] at strtok ⊢
      simp only [strtok]
  obtain ⟨post, saveptr, cut⟩ := cut
  have fails : tryToken (mem.length + 1) binary stat
      ⟨(mem ++ [below]) ++ (c ++ NUL :: post), saveptr, some (mem ++ [below]).length, .path⟩ = .error .underrun := by
    simp only [tryToken, trimIn_underruns rfl white blank]
  have place : mem.length + 1 = (mem ++ [below]).length := by simp
  rw [place] at fails
  simp only [pathLookup, strdup_eq below text, place, cut]
  exact Ends.bind_error (ends_fault rfl fails) _

theorem mem_components_of_leadsBlank (leads : LeadsBlank path) : ∃ c ∈ components ':' path, Blank c := by
  obtain ⟨nonempty, blank⟩ := leads
  have split := List.takeWhile_append_dropWhile (p := (· != ':')) (l := path)
  have stop := List.head?_dropWhile_not (· != ':') path
  have clean : ':' ∉ path.takeWhile (· != ':') := fun member => by simpa using List.mem_takeWhile_imp member
  generalize path.takeWhile (· != ':') = c at nonempty blank split clean
  refine ⟨c, ?_, blank⟩
  rw [← split]
  cases rest : path.dropWhile (· != ':') with
  | nil => simp [components_last nonempty clean]
  | cons d tail =>
    rw [rest] at stop
    obtain rfl : d = ':' := by simpa using stop
    simp [components_next nonempty clean]

/-- The first component whose candidate exists wins; the memory of the caller is as it was. -/
theorem path_lookup_first_match (text : cstr mem addr = path) (black : ∀ c ∈ components ':' path, ¬ Blank c)
    (below : Char) (binary : Str) (stat : Str → Bool) :
    Ends (pathLookup · below mem addr binary stat) (.ok (mem, firstMatch binary stat (components ':' path))) := by
  apply pathLookup_ends text
  right
  intro leads
  obtain ⟨c, member, blank⟩ := mem_components_of_leadsBlank leads
  exact black c member blank

theorem path_lookup_first_match_padded :
    Ends (pathLookup · ' ' "::/bin: /usr/bin:\x00".toList 0 "ls".toList (· == "/usr/bin/ls".toList))
      (.ok ("::/bin: /usr/bin:\x00".toList, .execpath "/usr/bin/ls".toList)) := by
  have found : firstMatch "ls".toList (· == "/usr/bin/ls".toList) (components ':' "::/bin: /usr/bin:".toList) =
      .execpath "/usr/bin/ls".toList := by decide +kernel
  rw [← found]
  exact path_lookup_first_match (by decide +kernel) (by decide +kernel) _ _ _

end OS2.Lsh
