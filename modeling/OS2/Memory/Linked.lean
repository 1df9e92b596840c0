import OS2.Memory.Blocks

namespace OS2.Memory

/-- How the entries of a linked list lie in a store: each has a node, and other blocks of its own. -/
structure Layout (β ε : Type) where
  node : ε → Nat
  others : ε → List Nat
  Stored : Store β → ε → Nat → Prop
  used : ∀ {s : Store β} {e : ε} {next : Nat}, Stored s e next → (s.block (node e)).isSome = true
  frame : ∀ {s t : Store β} {e : ε} {next : Nat}, Stored s e next →
    (∀ x ∈ node e :: others e, t.block x = s.block x) → Stored t e next

variable {β ε : Type} {layout : Layout β ε} {s t : Store β} {e : ε} {entries before : List ε} {a b c : Nat}

def Layout.blocks (layout : Layout β ε) (entries : List ε) : List Nat :=
  entries.flatMap fun e => layout.node e :: layout.others e

/-- From the node `a` on, the `next` pointers lead through `entries` to `b`. -/
inductive Segment (layout : Layout β ε) (s : Store β) : Nat → List ε → Nat → Prop where
  | nil (a : Nat) : Segment layout s a [] a
  | cons {e : ε} {entries : List ε} {b c : Nat} (stored : layout.Stored s e b)
      (rest : Segment layout s b entries c) : Segment layout s (layout.node e) (e :: entries) c

theorem Layout.node_ne_zero (stored : layout.Stored s e a) : layout.node e ≠ 0 := by
  obtain ⟨b, block⟩ := Option.isSome_iff_exists.mp (layout.used stored)
  exact Store.ne_zero block

theorem Layout.mem_blocks (member : e ∈ entries) {x : Nat} (inside : x ∈ layout.node e :: layout.others e) :
    x ∈ layout.blocks entries := List.mem_flatMap.mpr ⟨e, member, inside⟩

@[simp] theorem Layout.blocks_nil (layout : Layout β ε) : layout.blocks [] = [] := rfl

theorem Layout.blocks_cons (layout : Layout β ε) (e : ε) (entries : List ε) :
    layout.blocks (e :: entries) = layout.node e :: (layout.others e ++ layout.blocks entries) := rfl

theorem Layout.blocks_append (layout : Layout β ε) (before entries : List ε) :
    layout.blocks (before ++ entries) = layout.blocks before ++ layout.blocks entries := List.flatMap_append

theorem Segment.null (segment : Segment layout s a entries 0) : a = 0 ↔ entries = [] := by
  cases segment with
  | nil => simp
  | cons stored rest => simp [layout.node_ne_zero stored]

theorem Segment.frame (segment : Segment layout s a entries b)
    (same : ∀ x ∈ layout.blocks entries, t.block x = s.block x) : Segment layout t a entries b := by
  induction segment with
  | nil => exact .nil _
  | cons stored rest ih =>
    apply Segment.cons
    · exact layout.frame stored fun x inside => same x (layout.mem_blocks List.mem_cons_self inside)
    · exact ih fun x inside => same x (List.mem_append_right _ inside)

theorem Segment.append (first : Segment layout s a before b) (second : Segment layout s b entries c) :
    Segment layout s a (before ++ entries) c := by
  induction first with
  | nil => exact second
  | cons stored rest ih => exact .cons stored (ih second)

theorem Segment.split (segment : Segment layout s a (before ++ entries) c) :
    ∃ b, Segment layout s a before b ∧ Segment layout s b entries c := by
  induction before generalizing a with
  | nil => exact ⟨a, .nil a, segment⟩
  | cons e before ih =>
    cases segment with
    | cons stored rest =>
      obtain ⟨b, first, second⟩ := ih rest
      exact ⟨b, .cons stored first, second⟩

theorem Segment.stored (segment : Segment layout s a (before ++ e :: entries) c) : ∃ b, layout.Stored s e b := by
  obtain ⟨b, first, second⟩ := segment.split
  cases second with
  | cons stored rest => exact ⟨_, stored⟩

theorem Segment.update {e' : ε} (segment : Segment layout s a (before ++ e :: entries) c)
    (same : layout.node e' = layout.node e)
    (others : ∀ x ∈ layout.blocks (before ++ entries), t.block x = s.block x)
    (stored : ∀ next, layout.Stored s e next → layout.Stored t e' next) :
    Segment layout t a (before ++ e' :: entries) c := by
  obtain ⟨b, first, second⟩ := segment.split
  cases second with
  | cons here rest =>
    apply (first.frame fun x inside => others x ?_).append
    · rw [← same]
      apply Segment.cons (stored _ here)
      exact rest.frame fun x inside => others x (layout.blocks_append before entries ▸ List.mem_append_right _ inside)
    · exact layout.blocks_append before entries ▸ List.mem_append_left _ inside

theorem Segment.unlink {p : ε} (segment : Segment layout s a (before ++ p :: e :: entries) c)
    (others : ∀ x ∈ layout.blocks (before ++ entries), t.block x = s.block x)
    (stored : ∀ next, layout.Stored s p (layout.node e) → layout.Stored s e next → layout.Stored t p next) :
    Segment layout t a (before ++ p :: entries) c := by
  obtain ⟨b, first, second⟩ := segment.split
  cases second with
  | cons here rest =>
    cases rest with
    | cons after rest =>
      apply (first.frame fun x inside => others x ?_).append
      · apply Segment.cons (stored _ here after)
        exact rest.frame fun x inside =>
          others x (layout.blocks_append before entries ▸ List.mem_append_right _ inside)
      · exact layout.blocks_append before entries ▸ List.mem_append_left _ inside

end OS2.Memory
