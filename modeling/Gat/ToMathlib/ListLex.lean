import Mathlib.Data.List.Lex
import Mathlib.Order.Lattice
import Mathlib.Tactic.Common

/-! # Prefix ranges in the lexicographic order

Mathlib orders lists lexicographically but does not say where the extensions of a list sit in that
order. They form an interval: between a list and one of its extensions every element is again an
extension. Sorted tables of strings search and scan such intervals, so the lemmas here also give the
length of the common prefix and the bound below which no extension by a fixed letter can occur.
-/

/-- Bytes are ordered by value, with the comparisons already present in core. -/
instance UInt8.instLinearOrder : LinearOrder UInt8 where
  le_refl _ := UInt8.le_refl _
  le_trans _ _ _ := UInt8.le_trans
  le_antisymm _ _ := UInt8.le_antisymm
  le_total a b := UInt8.le_total a b
  lt_iff_le_not_ge a b := by
    rw [UInt8.not_le]
    exact ⟨fun less => ⟨UInt8.le_of_lt less, less⟩, fun both => both.2⟩
  toDecidableLE := inferInstance
  toDecidableLT := inferInstance
  toDecidableEq := inferInstance
  min_def _ _ := rfl
  max_def _ _ := rfl
  compare_eq_compareOfLessAndEq _ _ := rfl

-- membership of bytes and of texts is decided all over the development, with these two
instance UInt8.instLawfulBEq : LawfulBEq UInt8 := inferInstance

instance UInt8.instLawfulBEqList : LawfulBEq (List UInt8) := inferInstance

namespace List

variable {α : Type*}

/-- The number of leading positions on which two lists agree. -/
def lcpLength [DecidableEq α] (left right : List α) : ℕ :=
  ((left.zip right).takeWhile (fun pair => pair.1 = pair.2)).length

section Common

variable [DecidableEq α]

@[simp] theorem lcpLength_nil_left (right : List α) : lcpLength [] right = 0 := rfl

@[simp] theorem lcpLength_nil_right (left : List α) : lcpLength left [] = 0 := by
  cases left <;> rfl

theorem lcpLength_cons_cons (a b : α) (left right : List α) :
    lcpLength (a :: left) (b :: right) = if a = b then lcpLength left right + 1 else 0 := by
  unfold lcpLength
  rw [zip_cons_cons, takeWhile_cons]
  by_cases same : a = b <;> simp [same]

/-- A prefix of one list is a prefix of another exactly when it ends within their common part. -/
theorem IsPrefix.prefix_iff_length_le {ancestor left right : List α} (below : ancestor <+: left) :
    ancestor <+: right ↔ ancestor.length ≤ lcpLength left right := by
  induction ancestor generalizing left right with
  | nil => simp
  | cons a ancestor ih =>
    cases left with
    | nil => simp at below
    | cons b left =>
      obtain ⟨rfl, inner⟩ := cons_prefix_cons.mp below
      cases right with
      | nil => simp
      | cons c right =>
        rw [cons_prefix_cons, lcpLength_cons_cons, ih inner]
        by_cases same : a = c <;> simp [same]

end Common

section Order

variable [LinearOrder α]

/-- A list precedes each of its extensions. -/
theorem IsPrefix.le_lex {ancestor path : List α} (below : ancestor <+: path) : ancestor ≤ path := by
  induction ancestor generalizing path with
  | nil => cases path with
    | nil => exact le_rfl
    | cons a path => exact le_of_lt Lex.nil
  | cons a ancestor ih =>
    cases path with
    | nil => simp at below
    | cons b path =>
      obtain ⟨rfl, inner⟩ := cons_prefix_cons.mp below
      exact cons_le_cons a (ih inner)

/-- A proper prefix is strictly smaller. -/
theorem IsPrefix.lt_lex {ancestor path : List α} (below : ancestor <+: path)
    (shorter : ancestor.length < path.length) : ancestor < path := by
  refine lt_of_le_of_ne below.le_lex ?_
  rintro rfl
  exact absurd shorter (lt_irrefl _)

/-- Extensions of one list are contiguous: whatever lies between the list and an extension of it is
itself an extension. -/
theorem IsPrefix.of_between {ancestor middle path : List α} (below : ancestor <+: path)
    (lower : ancestor ≤ middle) (upper : middle ≤ path) : ancestor <+: middle := by
  induction ancestor generalizing middle path with
  | nil => exact nil_prefix
  | cons a ancestor ih =>
    cases path with
    | nil => simp at below
    | cons b path =>
      obtain ⟨rfl, inner⟩ := cons_prefix_cons.mp below
      cases middle with
      | nil => exact absurd lower (not_le_of_gt Lex.nil)
      | cons c middle =>
        rw [le_iff_lt_or_eq, cons_lt_cons_iff, cons.injEq] at lower upper
        have first : a = c := by
          rcases lower with (less | ⟨same, -⟩) | ⟨same, -⟩
          · rcases upper with (more | ⟨same, -⟩) | ⟨same, -⟩
            · exact absurd less (lt_asymm more)
            · exact same.symm
            · exact same.symm
          · exact same
          · exact same
        subst first
        refine cons_prefix_cons.mpr ⟨rfl, ih inner ?_ ?_⟩
        · simpa only [lt_self_iff_false, false_or, true_and, ← le_iff_lt_or_eq] using lower
        · simpa only [lt_self_iff_false, false_or, true_and, ← le_iff_lt_or_eq] using upper

/-- In increasing order, an earlier list is a prefix of a later one exactly when it is a prefix of
the list just before it and ends within their common part. -/
theorem prefix_iff_of_le_of_lt {ancestor previous path : List α} (earlier : ancestor ≤ previous)
    (later : previous < path) :
    ancestor <+: path ↔ ancestor <+: previous ∧ ancestor.length ≤ lcpLength previous path := by
  constructor
  · intro below
    have kept := below.of_between earlier later.le
    exact ⟨kept, (kept.prefix_iff_length_le).mp below⟩
  · rintro ⟨kept, short⟩
    exact (kept.prefix_iff_length_le).mpr short

/-- Lists are compared on their common length first and by length where they agree on it. -/
theorem lt_iff_take_min {left right : List α} :
    left < right ↔
      left.take (min left.length right.length) < right.take (min left.length right.length) ∨
        left.take (min left.length right.length) = right.take (min left.length right.length) ∧
          left.length < right.length := by
  induction left generalizing right with
  | nil =>
    cases right with
    | nil => simp
    | cons b right => exact iff_of_true Lex.nil (Or.inr ⟨by simp, by simp⟩)
  | cons a left ih =>
    cases right with
    | nil => simp
    | cons b right =>
      rw [cons_lt_cons_iff, ih, length_cons, length_cons, Nat.succ_min_succ, take_succ_cons, take_succ_cons,
        cons_lt_cons_iff, cons.injEq, Nat.succ_lt_succ_iff]
      tauto

end Order

end List
