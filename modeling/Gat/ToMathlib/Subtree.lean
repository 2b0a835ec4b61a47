import Gat.ToMathlib.AncestorFree
import Mathlib.Order.Cover

/-! # Subtrees of hierarchical names

A subtree is a name together with everything it is an ancestor of. Its proper part is one interval of the
lexicographic order, so a sorted table holds it as a range. Moving a subtree replaces the prefix of each of
its names; that is injective on the subtree, lands in the target subtree, and reverses.
-/

namespace List

variable {α : Type*} [LinearOrder α]

@[simp] theorem append_lt_append_iff {front left right : List α} : front ++ left < front ++ right ↔ left < right := by
  induction front with
  | nil => rfl
  | cons letter front ih => rw [cons_append, cons_append, cons_lt_cons_self, ih]

@[simp] theorem append_le_append_iff {front left right : List α} : front ++ left ≤ front ++ right ↔ left ≤ right := by
  rw [← not_lt, ← not_lt, append_lt_append_iff]

/-- The extensions of a nonempty list are those from it up to the next last letter. -/
theorem concat_prefix_iff_range {front path : List α} {letter next : α} (cover : letter ⋖ next) :
    front ++ [letter] <+: path ↔ front ++ [letter] ≤ path ∧ path < front ++ [next] := by
  constructor
  · intro below
    refine ⟨below.le_lex, ?_⟩
    obtain ⟨rest, rfl⟩ := below
    rw [append_assoc, append_lt_append_iff]
    exact Lex.rel cover.lt
  · rintro ⟨lower, upper⟩
    have inside : front <+: path :=
      (prefix_append front [next]).of_between ((prefix_append front [letter]).le_lex.trans lower) upper.le
    obtain ⟨rest, rfl⟩ := inside
    rw [append_le_append_iff] at lower
    rw [append_lt_append_iff] at upper
    refine (prefix_append_right_inj front).mpr ?_
    cases rest with
    | nil => exact absurd lower (not_le_of_gt Lex.nil)
    | cons head rest =>
      have below : head < next := by
        rcases cons_lt_cons_iff.mp upper with below | ⟨-, empty⟩
        · exact below
        · exact absurd empty (not_lt_nil rest)
      have above : letter ≤ head := by
        rcases lower.lt_or_eq with less | same
        · rcases cons_lt_cons_iff.mp less with above | ⟨same, -⟩
          · exact above.le
          · exact same.le
        · cases same
          exact le_rfl
      obtain rfl : letter = head := above.eq_of_not_lt fun between => cover.2 between below
      exact cons_prefix_cons.mpr ⟨rfl, nil_prefix⟩

end List

namespace AncestorFree

open List

variable {α : Type*} {separator : α}

/-- The path is the root of the subtree or has it as an ancestor. -/
def IsWithin (separator : α) (root path : List α) : Prop := path = root ∨ IsAncestor separator root path

instance [DecidableEq α] (root path : List α) : Decidable (IsWithin separator root path) :=
  inferInstanceAs (Decidable (_ ∨ _))

theorem isWithin_self (root : List α) : IsWithin separator root root := Or.inl rfl

theorem IsWithin.trans {first second third : List α} (outer : IsWithin separator first second)
    (inner : IsWithin separator second third) : IsWithin separator first third := by
  rcases outer with rfl | above
  · exact inner
  · rcases inner with rfl | below
    · exact Or.inr above
    · exact Or.inr (above.trans below)

/-- A name below a root is the root continued by a nonempty suffix after a separator. -/
theorem isWithin_iff {root path : List α} :
    IsWithin separator root path ↔ path = root ∨ ∃ rest, path = root ++ separator :: rest := by
  refine or_congr_right ⟨?_, ?_⟩
  · rintro ⟨rest, rfl⟩
    exact ⟨rest, by rw [append_assoc]; rfl⟩
  · rintro ⟨rest, rfl⟩
    exact ⟨rest, by rw [append_assoc]; rfl⟩

/-- A root of a path with one more component is the path or a root of its parent. -/
theorem isWithin_append_iff {root parent last : List α} (component : separator ∉ last) :
    IsWithin separator root (parent ++ separator :: last) ↔ root = parent ++ separator :: last ∨ IsWithin separator root parent := by
  constructor
  · rintro (rfl | above)
    · exact Or.inl rfl
    refine Or.inr ?_
    obtain ⟨rest, split⟩ := above
    rw [append_assoc, singleton_append] at split
    rcases append_eq_append_iff.mp split with ⟨middle, rfl, same⟩ | ⟨middle, rfl, same⟩
    · cases middle with
      | nil =>
        rw [append_nil]
        exact isWithin_self root
      | cons letter middle =>
        obtain ⟨rfl, -⟩ := cons.inj same
        exact isWithin_iff.mpr (Or.inr ⟨middle, rfl⟩)
    · cases middle with
      | nil =>
        rw [append_nil]
        exact isWithin_self parent
      | cons letter middle =>
        obtain ⟨-, rfl⟩ := cons.inj same
        exact absurd (mem_append_right middle mem_cons_self) component
  · rintro (rfl | within)
    · exact isWithin_self _
    · exact within.trans (isWithin_iff.mpr (Or.inr ⟨last, rfl⟩))

theorem isWithin_iff_of_notMem {root path : List α} (single : separator ∉ path) : IsWithin separator root path ↔ root = path := by
  rw [isWithin_iff]
  constructor
  · rintro (rfl | ⟨rest, rfl⟩)
    · rfl
    · exact absurd (mem_append_right root mem_cons_self) single
  · rintro rfl
    exact Or.inl rfl

/-- Two roots of one path are nested. -/
theorem IsWithin.nested {first second path : List α} (left : IsWithin separator first path)
    (right : IsWithin separator second path) : IsWithin separator first second ∨ IsWithin separator second first := by
  rcases left with rfl | above
  · exact Or.inr right
  rcases right with rfl | below
  · exact Or.inl (Or.inr above)
  rcases Nat.lt_trichotomy first.length second.length with shorter | same | longer
  · exact Or.inl (Or.inr (above.of_longer_prefix below.isPrefix shorter))
  · exact Or.inl (Or.inl (prefix_of_prefix_length_le below.isPrefix above.isPrefix same.ge |>.eq_of_length same.symm))
  · exact Or.inr (Or.inr (below.of_longer_prefix above.isPrefix longer))

theorem IsWithin.isPrefix {root path : List α} (within : IsWithin separator root path) : root <+: path := by
  rcases within with rfl | above
  · exact prefix_refl _
  · exact above.isPrefix

/-- Roots of one path differ in their lengths. -/
theorem IsWithin.eq_of_length {first second path : List α} (left : IsWithin separator first path) (right : IsWithin separator second path)
    (same : first.length = second.length) : first = second :=
  (prefix_of_prefix_length_le left.isPrefix right.isPrefix same.le).eq_of_length same

section Replace

/-- The path with the root of its subtree replaced. -/
def replaceRoot (old new path : List α) : List α := new ++ path.drop old.length

@[simp] theorem replaceRoot_self (old new : List α) : replaceRoot old new old = new := by
  rw [replaceRoot, drop_length, append_nil]

@[simp] theorem replaceRoot_append (old new rest : List α) : replaceRoot old new (old ++ rest) = new ++ rest := by
  rw [replaceRoot, drop_left]

variable {old new path other : List α}

theorem IsWithin.replaceRoot (within : IsWithin separator old path) : IsWithin separator new (replaceRoot old new path) := by
  rcases isWithin_iff.mp within with rfl | ⟨rest, rfl⟩
  · rw [replaceRoot_self]
    exact isWithin_self new
  · rw [replaceRoot_append]
    exact isWithin_iff.mpr (Or.inr ⟨rest, rfl⟩)

/-- Replacing a root is undone by replacing it back. -/
theorem IsWithin.replaceRoot_replaceRoot (within : IsWithin separator old path) :
    AncestorFree.replaceRoot new old (AncestorFree.replaceRoot old new path) = path := by
  rcases isWithin_iff.mp within with rfl | ⟨rest, rfl⟩ <;> simp

theorem replaceRoot_injOn (left : IsWithin separator old path) (right : IsWithin separator old other)
    (same : AncestorFree.replaceRoot old new path = AncestorFree.replaceRoot old new other) : path = other := by
  calc
    path = AncestorFree.replaceRoot new old (AncestorFree.replaceRoot old new path) := left.replaceRoot_replaceRoot.symm
    _ = AncestorFree.replaceRoot new old (AncestorFree.replaceRoot old new other) := congrArg _ same
    _ = other := right.replaceRoot_replaceRoot

end Replace

/-- The proper part of a subtree is an interval. -/
theorem isAncestor_iff_range [LinearOrder α] {next : α} (cover : separator ⋖ next) {root path : List α} :
    IsAncestor separator root path ↔ root ++ [separator] ≤ path ∧ path < root ++ [next] :=
  concat_prefix_iff_range cover

end AncestorFree
