import Mathlib.Computability.Language

namespace OS2.Regex

open scoped Computability

variable {α : Type}

inductive Pattern (α : Type) where
  | empty
  | epsilon
  | cls (test : α → Bool)
  | alt (p q : Pattern α)
  | seq (p q : Pattern α)
  | star (p : Pattern α)

namespace Pattern

def plus (p : Pattern α) : Pattern α := seq p (star p)

def lang : Pattern α → Language α
  | empty => 0
  | epsilon => 1
  | cls test => {w | ∃ a, test a = true ∧ w = [a]}
  | alt p q => p.lang + q.lang
  | seq p q => p.lang * q.lang
  | star p => p.lang∗

def nullable : Pattern α → Bool
  | empty => false
  | epsilon => true
  | cls _ => false
  | alt p q => p.nullable || q.nullable
  | seq p q => p.nullable && q.nullable
  | star _ => true

def deriv (a : α) : Pattern α → Pattern α
  | empty => empty
  | epsilon => empty
  | cls test => if test a then epsilon else empty
  | alt p q => alt (p.deriv a) (q.deriv a)
  | seq p q => if p.nullable then alt (seq (p.deriv a) q) (q.deriv a) else seq (p.deriv a) q
  | star p => seq (p.deriv a) (star p)

def matchesPrefix (p : Pattern α) : List α → Bool
  | [] => p.nullable
  | a :: w => p.nullable || (p.deriv a).matchesPrefix w

/-- Some part of the word matches: the answer of a POSIX search, its position left aside. -/
def search (p : Pattern α) : List α → Bool
  | [] => p.nullable
  | a :: w => p.matchesPrefix (a :: w) || p.search w

theorem mem_alt {p q : Pattern α} {w : List α} :
    w ∈ (alt p q).lang ↔ w ∈ p.lang ∨ w ∈ q.lang := Language.mem_add _ _ _

theorem nullable_iff (p : Pattern α) : p.nullable = true ↔ [] ∈ p.lang := by
  induction p with
  | empty => simp [nullable, lang]
  | epsilon => simp [nullable, lang]
  | cls test =>
    simp only [nullable, Bool.false_eq_true, false_iff]
    intro ⟨a, _, h⟩
    cases h
  | alt p q ihp ihq => rw [nullable, Bool.or_eq_true, ihp, ihq, mem_alt]
  | seq p q ihp ihq =>
    simp only [nullable, Bool.and_eq_true, ihp, ihq, lang, Language.mem_mul]
    constructor
    · intro ⟨left, right⟩
      exact ⟨[], left, [], right, rfl⟩
    · intro ⟨u, left, v, right, split⟩
      obtain ⟨rfl, rfl⟩ := List.append_eq_nil_iff.mp split
      exact ⟨left, right⟩
  | star p _ => simpa [nullable, lang] using Language.nil_mem_kstar p.lang

theorem cons_mem_mul {l m : Language α} {a : α} {w : List α} :
    a :: w ∈ l * m ↔ (∃ u v, a :: u ∈ l ∧ v ∈ m ∧ u ++ v = w) ∨ ([] ∈ l ∧ a :: w ∈ m) := by
  rw [Language.mem_mul]
  constructor
  · intro ⟨u, left, v, right, split⟩
    cases u with
    | nil => exact .inr ⟨left, by simpa using split ▸ right⟩
    | cons b u =>
      obtain ⟨rfl, rfl⟩ := List.cons.inj split
      exact .inl ⟨u, v, left, right, rfl⟩
  · intro member
    rcases member with ⟨u, v, left, right, rfl⟩ | ⟨left, right⟩
    · exact ⟨a :: u, left, v, right, rfl⟩
    · exact ⟨[], left, a :: w, right, rfl⟩

theorem cons_mem_kstar {l : Language α} {a : α} {w : List α} :
    a :: w ∈ l∗ ↔ ∃ u v, a :: u ∈ l ∧ v ∈ l∗ ∧ u ++ v = w := by
  constructor
  · rw [Language.mem_kstar_iff_exists_nonempty]
    intro ⟨words, split, all⟩
    cases words with
    | nil => simp at split
    | cons word words =>
      obtain ⟨first, nonempty⟩ := all word (by simp)
      cases word with
      | nil => exact absurd rfl nonempty
      | cons b u =>
        obtain ⟨rfl, rfl⟩ := List.cons.inj split
        refine ⟨u, words.flatten, first, ?_, rfl⟩
        exact Language.join_mem_kstar fun y member => (all y (List.mem_cons_of_mem _ member)).1
  · intro ⟨u, v, first, rest, split⟩
    rw [← split, ← Language.one_add_self_mul_kstar_eq_kstar l, Language.mem_add]
    exact .inr (Language.append_mem_mul first rest)

theorem mem_lang_deriv (p : Pattern α) (a : α) (w : List α) :
    w ∈ (p.deriv a).lang ↔ a :: w ∈ p.lang := by
  induction p generalizing w with
  | empty => simp [deriv, lang]
  | epsilon => simp [deriv, lang, Language.mem_one]
  | cls test =>
    have same : a :: w ∈ (cls test).lang ↔ test a = true ∧ w = [] := by
      constructor
      · intro ⟨b, passes, shape⟩
        obtain ⟨rfl, rfl⟩ := List.cons.inj shape
        exact ⟨passes, rfl⟩
      · intro ⟨passes, alone⟩
        exact ⟨a, passes, alone ▸ rfl⟩
    rw [same, deriv]
    split <;> simp [lang, Language.mem_one, *]
  | alt p q ihp ihq => rw [deriv, mem_alt, mem_alt, ihp, ihq]
  | seq p q ihp ihq =>
    have product : w ∈ (seq (p.deriv a) q).lang ↔
        ∃ u v, a :: u ∈ p.lang ∧ v ∈ q.lang ∧ u ++ v = w := by
      simp only [lang, Language.mem_mul, ihp]
      exact ⟨fun ⟨u, hu, v, hv, h⟩ => ⟨u, v, hu, hv, h⟩, fun ⟨u, v, hu, hv, h⟩ => ⟨u, hu, v, hv, h⟩⟩
    rw [show (seq p q).lang = p.lang * q.lang from rfl, cons_mem_mul, deriv]
    cases null : p.nullable with
    | true =>
      rw [if_pos rfl, mem_alt, product, ihq]
      simp [(nullable_iff p).mp null]
    | false =>
      have noEmpty : [] ∉ p.lang := fun member => by simp [(nullable_iff p).mpr member] at null
      simp only [Bool.false_eq_true, if_false, product, noEmpty, false_and, or_false]
  | star p ih =>
    rw [show (star p).lang = p.lang∗ from rfl, cons_mem_kstar, deriv]
    simp only [lang, Language.mem_mul, ih]
    exact ⟨fun ⟨u, hu, v, hv, h⟩ => ⟨u, v, hu, hv, h⟩, fun ⟨u, v, hu, hv, h⟩ => ⟨u, hu, v, hv, h⟩⟩

theorem matchesPrefix_iff (p : Pattern α) (w : List α) :
    p.matchesPrefix w = true ↔ ∃ found behind, w = found ++ behind ∧ found ∈ p.lang := by
  induction w generalizing p with
  | nil =>
    rw [matchesPrefix, nullable_iff]
    constructor
    · exact fun member => ⟨[], [], rfl, member⟩
    · intro ⟨found, behind, split, member⟩
      obtain ⟨rfl, rfl⟩ := List.append_eq_nil_iff.mp split.symm
      exact member
  | cons a w ih =>
    rw [matchesPrefix, Bool.or_eq_true, nullable_iff, ih]
    constructor
    · intro member
      rcases member with member | ⟨found, behind, rfl, member⟩
      · exact ⟨[], a :: w, rfl, member⟩
      · exact ⟨a :: found, behind, rfl, (mem_lang_deriv p a found).mp member⟩
    · intro ⟨found, behind, split, member⟩
      cases found with
      | nil => exact .inl member
      | cons b found =>
        obtain ⟨rfl, rfl⟩ := List.cons.inj split
        exact .inr ⟨found, behind, rfl, (mem_lang_deriv p a found).mpr member⟩

theorem search_iff (p : Pattern α) (w : List α) :
    p.search w = true ↔ ∃ before found behind, w = before ++ (found ++ behind) ∧ found ∈ p.lang := by
  induction w with
  | nil =>
    rw [search, nullable_iff]
    constructor
    · exact fun member => ⟨[], [], [], rfl, member⟩
    · intro ⟨before, found, behind, split, member⟩
      obtain ⟨_, rest⟩ := List.append_eq_nil_iff.mp split.symm
      obtain ⟨rfl, _⟩ := List.append_eq_nil_iff.mp rest
      exact member
  | cons a w ih =>
    rw [search, Bool.or_eq_true, matchesPrefix_iff, ih]
    constructor
    · intro member
      rcases member with ⟨found, behind, split, member⟩ | ⟨before, found, behind, rfl, member⟩
      · exact ⟨[], found, behind, split, member⟩
      · exact ⟨a :: before, found, behind, rfl, member⟩
    · intro ⟨before, found, behind, split, member⟩
      cases before with
      | nil => exact .inl ⟨found, behind, split, member⟩
      | cons b before =>
        obtain ⟨rfl, rfl⟩ := List.cons.inj split
        exact .inr ⟨before, found, behind, rfl, member⟩

theorem mem_cls {test : α → Bool} {w : List α} :
    w ∈ (cls test).lang ↔ ∃ a, test a = true ∧ w = [a] := Iff.rfl

theorem mem_seq {p q : Pattern α} {w : List α} :
    w ∈ (seq p q).lang ↔ ∃ u ∈ p.lang, ∃ v ∈ q.lang, u ++ v = w := Language.mem_mul

theorem mem_star_cls {test : α → Bool} {w : List α} :
    w ∈ (star (cls test)).lang ↔ ∀ a ∈ w, test a = true := by
  rw [show (star (cls test)).lang = (cls test).lang∗ from rfl]
  induction w with
  | nil => simpa using Language.nil_mem_kstar _
  | cons a w ih =>
    rw [cons_mem_kstar, List.forall_mem_cons, ← ih]
    constructor
    · intro ⟨u, v, ⟨b, passes, shape⟩, rest, split⟩
      obtain ⟨rfl, rfl⟩ := List.cons.inj shape
      exact ⟨passes, split ▸ rest⟩
    · intro ⟨passes, rest⟩
      exact ⟨[], w, ⟨a, passes, rfl⟩, rest, rfl⟩

theorem mem_plus_cls {test : α → Bool} {w : List α} :
    w ∈ (plus (cls test)).lang ↔ w ≠ [] ∧ ∀ a ∈ w, test a = true := by
  rw [plus, mem_seq]
  constructor
  · intro ⟨u, ⟨a, passes, first⟩, v, rest, split⟩
    subst first split
    exact ⟨by simp, List.forall_mem_cons.mpr ⟨passes, mem_star_cls.mp rest⟩⟩
  · intro ⟨nonempty, all⟩
    cases w with
    | nil => exact absurd rfl nonempty
    | cons a w =>
      obtain ⟨passes, rest⟩ := List.forall_mem_cons.mp all
      exact ⟨[a], ⟨a, passes, rfl⟩, w, mem_star_cls.mpr rest, rfl⟩

end Pattern

end OS2.Regex
