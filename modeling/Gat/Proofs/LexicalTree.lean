import Gat.Model.LexicalTree

/-! # Subtree operations on canonical paths

The prefix operations compute on text what the subtree relation says, and the byte range of a path holds
exactly what is below it.
-/

namespace Gat.GatPath

open AncestorFree

variable {path base other : GatPath}

/-- The path is the base or below it. -/
def Under (base path : GatPath) : Prop := IsWithin Byte.slash base.text path.text

/-- A path with a part relative to a base is the base or below it. -/
theorem under_of_relativePath {rest : Str} (found : relativePath path.text base.text = some rest) : Under base path := by
  rw [Under, isWithin_iff]
  rcases relativePath_eq_some_iff.mp found with ⟨same, -⟩ | split
  · exact Or.inl same
  · exact Or.inr ⟨rest, split⟩

theorem stripPrefix_eq_some_iff {found : GatSubpath} :
    path.stripPrefix base = some found ↔
      match found with
      | .root => path = base
      | .path rel => path.text = base.text ++ Byte.slash :: rel.text := by
  unfold stripPrefix
  split
  · next none =>
    refine iff_of_false nofun ?_
    cases found with
    | root =>
      rintro rfl
      exact nomatch none.symm.trans (relativePath_eq_some_iff.mpr (Or.inl ⟨rfl, rfl⟩))
    | path rel =>
      intro split
      exact nomatch none.symm.trans (relativePath_eq_some_iff.mpr (Or.inr split))
  · next rest some =>
    by_cases nonempty : rest ≠ []
    · rw [dif_pos nonempty]
      have split := (relativePath_eq_some_iff.mp some).resolve_left fun both => nonempty both.2
      cases found with
      | root =>
        refine iff_of_false nofun ?_
        rintro rfl
        have length := congrArg List.length split
        simp at length
      | path rel =>
        rw [Option.some.injEq, GatSubpath.path.injEq, GatPath.ext_iff]
        dsimp only
        constructor
        · rintro rfl
          exact split
        · intro joined
          simpa using split.symm.trans joined
    · rw [dif_neg nonempty]
      obtain rfl : rest = [] := not_not.mp nonempty
      rcases relativePath_eq_some_iff.mp some with ⟨same, -⟩ | split
      · cases found with
        | root => exact iff_of_true rfl (GatPath.ext same)
        | path rel =>
          refine iff_of_false nofun fun split => ?_
          have length := congrArg List.length (same.symm.trans split)
          simp at length
      · -- a canonical path does not end in a separator
        have canonical := LockFormat.isCanonical_join_iff.mp (split ▸ path.isCanonical)
        exact absurd rfl canonical.2.1

theorem isOrUnder_iff : path.isOrUnder base ↔ Under base path := by
  unfold isOrUnder Under
  rw [isWithin_iff, Option.isSome_iff_exists]
  constructor
  · rintro ⟨found, isSome⟩
    have split := stripPrefix_eq_some_iff.mp isSome
    cases found with
    | root => exact Or.inl (congrArg text split)
    | path rel => exact Or.inr ⟨_, split⟩
  · rintro (same | ⟨rest, split⟩)
    · exact ⟨.root, stripPrefix_eq_some_iff.mpr (GatPath.ext same)⟩
    · have found := relativePath_eq_some_iff.mpr (Or.inr split)
      have canonical := LockFormat.isCanonical_join_iff.mp (split ▸ path.isCanonical)
      have valid := relativePath_valid found canonical.2.1
      exact ⟨.path ⟨rest, valid.1, valid.2⟩, stripPrefix_eq_some_iff.mpr split⟩

instance : Decidable (Under base path) := inferInstanceAs (Decidable (IsWithin _ _ _))

theorem text_withReplacedPrefix (under : Under base path) (target : GatPath) :
    (path.withReplacedPrefix base target).text = replaceRoot base.text target.text path.text := by
  unfold withReplacedPrefix
  obtain ⟨found, isSome⟩ := Option.isSome_iff_exists.mp (isOrUnder_iff.mpr under)
  have split := stripPrefix_eq_some_iff.mp isSome
  rw [isSome]
  cases found with
  | root =>
    obtain rfl : path = base := split
    exact (replaceRoot_self _ _).symm
  | path rel =>
    change target.text ++ Byte.slash :: rel.text = _
    rw [split, replaceRoot_append]

/-- A replaced path is under the new base. -/
theorem under_withReplacedPrefix (under : Under base path) (target : GatPath) :
    Under target (path.withReplacedPrefix base target) := by
  rw [Under, text_withReplacedPrefix under]
  exact under.replaceRoot

theorem withReplacedPrefix_injOn (left : Under base path) (right : Under base other) {target : GatPath}
    (same : path.withReplacedPrefix base target = other.withReplacedPrefix base target) : path = other := by
  have texts := congrArg text same
  rw [text_withReplacedPrefix left, text_withReplacedPrefix right] at texts
  exact GatPath.ext (replaceRoot_injOn left right texts)

/-- The descendant range holds exactly what is below the path. -/
theorem isAncestor_iff_descendantRange :
    IsAncestor Byte.slash base.text path.text ↔ base.descendantRange.1 ≤ path.text ∧ path.text < base.descendantRange.2 := by
  have cover : Byte.slash ⋖ (0x30 : UInt8) := by
    constructor
    · decide
    · intro between above below
      rw [UInt8.lt_iff_toNat_lt] at above below
      change 0x2F < _ at above
      change _ < 0x30 at below
      omega
  exact isAncestor_iff_range cover

theorem under_iff_range :
    Under base path ↔ path = base ∨ base.descendantRange.1 ≤ path.text ∧ path.text < base.descendantRange.2 := by
  rw [Under, IsWithin, isAncestor_iff_descendantRange, GatPath.ext_iff]

end Gat.GatPath
