import OS2.Text.Chars

namespace OS2.Text

/-- `strtok_r(s, delim, &saveptr)` for a delimiter string of one character, on the memory that holds the
    string: the memory with the token cut off, the token, and `saveptr`. -/
def strtokR (delim : Char) (mem : List Char) (s : Nat) : List Char × Option Nat × Nat :=
  let token := s + ((mem.drop s).takeWhile (· == delim)).length
  if mem.getD token NUL = NUL then (mem, none, token)
  else
    let stop := token + ((mem.drop token).takeWhile fun c => c != delim && c != NUL).length
    if mem.getD stop NUL = NUL then (mem, some token, stop)
    else (mem.set stop NUL, some token, stop + 1)

def components (delim : Char) (s : Str) : List Str := (s.splitOn delim).filter (· ≠ [])

section Components

variable {delim : Char}

theorem components_cons_delim (s : Str) : components delim (delim :: s) = components delim s := by
  have split := List.splitOn_append_cons_self [] s (a := delim)
  rw [List.nil_append, List.splitOn_nil] at split
  rw [components, split]
  simp [components]

theorem components_delims (delim : Char) (n : Nat) (s : Str) :
    components delim (List.replicate n delim ++ s) = components delim s := by
  induction n with
  | zero => rfl
  | succ n ih => rw [List.replicate_succ, List.cons_append, components_cons_delim, ih]

theorem components_last {c : Str} (nonempty : c ≠ []) (clean : delim ∉ c) : components delim c = [c] := by
  rw [components, List.splitOn_eq_singleton clean]
  simp [nonempty]

theorem components_next {c : Str} (nonempty : c ≠ []) (clean : delim ∉ c) (s : Str) :
    components delim (c ++ delim :: s) = c :: components delim s := by
  rw [components, List.splitOn_append_cons_self_of_not_mem clean]
  simp [components, nonempty]

theorem delims_split (delim : Char) (s : Str) :
    ∃ n rest, s = List.replicate n delim ++ rest ∧ rest.head? ≠ some delim := by
  induction s with
  | nil => exact ⟨0, [], rfl, by simp⟩
  | cons c s ih =>
    by_cases same : c = delim
    · obtain ⟨n, rest, split, stop⟩ := ih
      exact ⟨n + 1, rest, by rw [same, split, List.replicate_succ, List.cons_append], stop⟩
    · exact ⟨0, c :: s, rfl, by simpa using same⟩

theorem component_induction (delim : Char) {motive : Str → Prop} (none : ∀ n, motive (List.replicate n delim))
    (last : ∀ n c, c ≠ [] → delim ∉ c → motive (List.replicate n delim ++ c))
    (next : ∀ n c s, c ≠ [] → delim ∉ c → motive s → motive (List.replicate n delim ++ (c ++ delim :: s)))
    (s : Str) : motive s := by
  induction length : s.length using Nat.strongRecOn generalizing s with
  | ind size ih =>
    obtain ⟨n, rest, split, start⟩ := delims_split delim s
    subst split
    by_cases more : delim ∈ rest
    · obtain ⟨c, s, split, clean⟩ := List.eq_append_cons_of_mem more
      subst split
      have nonempty : c ≠ [] := by
        intro empty
        simp [empty] at start
      have shorter : s.length < size := by
        simp only [List.length_append, List.length_cons] at length
        omega
      exact next n c s nonempty clean (ih _ shorter s rfl)
    · cases rest with
      | nil => simpa using none n
      | cons c rest => exact last n (c :: rest) (List.cons_ne_nil _ _) more

end Components

section Strtok

variable {delim : Char} {c : Str}

theorem takeWhile_delims {d : Char} (stop : d ≠ delim) (n : Nat) (rest : List Char) :
    (List.replicate n delim ++ d :: rest).takeWhile (· == delim) = List.replicate n delim := by
  rw [List.takeWhile_append_of_pos (by simp)]
  simp [stop]

theorem takeWhile_token (free : NulFree c) (clean : delim ∉ c) {stop : Char} (ends : stop = delim ∨ stop = NUL)
    (rest : List Char) : (c ++ stop :: rest).takeWhile (fun c => c != delim && c != NUL) = c := by
  have inside : ∀ d ∈ c, (d != delim && d != NUL) = true := by
    intro d member
    simp only [Bool.and_eq_true, bne_iff_ne]
    exact ⟨fun same => clean (same ▸ member), free.ne_of_mem member⟩
  rw [List.takeWhile_append_of_pos inside]
  rcases ends with rfl | rfl <;> simp

theorem getD_behind (front rest : List Char) (d : Char) (n : Nat) :
    (front ++ (List.replicate n delim ++ d :: rest)).getD (front.length + n) NUL = d := by
  simp [List.getD_eq_getElem?_getD]

theorem strtokR_none (present : delim ≠ NUL) (front post : List Char) (n : Nat) :
    strtokR delim (front ++ (List.replicate n delim ++ NUL :: post)) front.length =
      (front ++ (List.replicate n delim ++ NUL :: post), none, front.length + n) := by
  rw [strtokR, List.drop_left, takeWhile_delims present.symm, List.length_replicate, getD_behind]
  rfl

theorem strtokR_token (free : NulFree c) (nonempty : c ≠ []) (clean : delim ∉ c)
    {stop : Char} (ends : stop = delim ∨ stop = NUL) (front post : List Char) (n : Nat) :
    strtokR delim (front ++ (List.replicate n delim ++ (c ++ stop :: post))) front.length =
      if stop = NUL then
        (front ++ (List.replicate n delim ++ (c ++ stop :: post)), some (front.length + n),
          front.length + n + c.length)
      else
        (front ++ (List.replicate n delim ++ (c ++ NUL :: post)), some (front.length + n),
          front.length + n + c.length + 1) := by
  have begins : ((List.replicate n delim ++ (c ++ stop :: post)).takeWhile (· == delim)).length = n := by
    cases c with
    | nil => exact absurd rfl nonempty
    | cons d c =>
      have other : d ≠ delim := fun same => clean (same ▸ List.mem_cons_self)
      rw [List.cons_append, takeWhile_delims other, List.length_replicate]
  have first : (front ++ (List.replicate n delim ++ (c ++ stop :: post))).getD (front.length + n) NUL ≠ NUL := by
    cases c with
    | nil => exact absurd rfl nonempty
    | cons d c =>
      rw [List.cons_append, getD_behind]
      exact (nulFree_cons.mp free).1
  have behind :
      (front ++ (List.replicate n delim ++ (c ++ stop :: post))).drop (front.length + n) = c ++ stop :: post := by
    simp
  have last :
      (front ++ (List.replicate n delim ++ (c ++ stop :: post))).getD (front.length + n + c.length) NUL = stop := by
    rw [Nat.add_assoc, List.getD_eq_getElem?_getD]
    simp
  have cut : (front ++ (List.replicate n delim ++ (c ++ stop :: post))).set (front.length + n + c.length) NUL =
      front ++ (List.replicate n delim ++ (c ++ NUL :: post)) := by
    rw [Nat.add_assoc]
    simp
  simp only [strtokR, List.drop_left, begins, if_neg first, behind, takeWhile_token free clean ends, last, cut]

end Strtok

end OS2.Text
