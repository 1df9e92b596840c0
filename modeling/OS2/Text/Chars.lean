import Mathlib.Data.List.Basic

namespace OS2.Text

abbrev Str := List Char

def NUL : Char := '\x00'

/-- `isspace` in the "C" locale, the only locale the programs run in. -/
def isspace (c : Char) : Bool :=
  c == ' ' || c == '\t' || c == '\n' || c == '\x0b' || c == '\x0c' || c == '\r'

def NulFree (s : Str) : Prop := NUL ∉ s

def Blank (s : Str) : Prop := ∀ c ∈ s, isspace c = true

instance (s : Str) : Decidable (NulFree s) := inferInstanceAs (Decidable (NUL ∉ s))
instance (s : Str) : Decidable (Blank s) := decidable_of_iff (s.all isspace = true) List.all_eq_true

def charAt (src : Str) (i : Nat) : Char := src.getD i NUL

theorem not_isspace_NUL : isspace NUL = false := by decide

theorem ne_NUL_of_isspace {c : Char} (h : isspace c = true) : c ≠ NUL := by
  intro same
  subst same
  exact absurd h (by decide)

@[simp] theorem nulFree_nil : NulFree [] := by simp [NulFree]

@[simp] theorem nulFree_cons {c : Char} {s : Str} : NulFree (c :: s) ↔ c ≠ NUL ∧ NulFree s := by
  simp only [NulFree, List.mem_cons, not_or, ne_eq]
  rw [eq_comm]

@[simp] theorem nulFree_append {s t : Str} : NulFree (s ++ t) ↔ NulFree s ∧ NulFree t := by
  simp [NulFree]

theorem nulFree_of_blank {s : Str} (blank : Blank s) : NulFree s := by
  intro member
  exact ne_NUL_of_isspace (blank NUL member) rfl

theorem charAt_of_drop {src rest : Str} {i : Nat} (suffix : src.drop i = rest) :
    charAt src i = rest.headD NUL := by
  subst suffix
  simp [charAt, List.headD_eq_head?_getD, List.head?_drop]

theorem drop_succ_of_drop {src cs : Str} {i : Nat} {c : Char} (suffix : src.drop i = c :: cs) :
    src.drop (i + 1) = cs := by
  rw [← List.tail_drop, suffix, List.tail_cons]

theorem drop_add_of_drop {src text rest : Str} {i : Nat} (suffix : src.drop i = text ++ rest) :
    src.drop (i + text.length) = rest := by
  rw [← List.drop_drop, suffix, List.drop_left]

theorem lt_length_of_drop {src cs : Str} {i : Nat} {c : Char} (suffix : src.drop i = c :: cs) :
    i < src.length := by
  have length := congrArg List.length suffix
  simp only [List.length_drop, List.length_cons] at length
  omega

theorem NulFree.ne_of_mem {s : Str} (free : NulFree s) {c : Char} (member : c ∈ s) : c ≠ NUL := by
  intro same
  subst same
  exact free member

theorem NulFree.drop {s : Str} (free : NulFree s) (i : Nat) : NulFree (s.drop i) :=
  fun member => free (List.mem_of_mem_drop member)

theorem NulFree.charAt_ne {s : Str} (free : NulFree s) {i : Nat} (bound : i < s.length) :
    charAt s i ≠ NUL := by
  rw [charAt, List.getD_eq_getElem?_getD, List.getElem?_eq_getElem bound]
  exact free.ne_of_mem (List.getElem_mem bound)

end OS2.Text
