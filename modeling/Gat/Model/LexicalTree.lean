import Gat.Proofs.LexicalPath
import Gat.ToMathlib.Subtree

/-! # Subtrees of canonical paths

A path is the root of everything below it. Prefix operations work on components, so `data` does not include
`data.bin`, and what they return is canonical because a canonical path splits into canonical parts at every
separator.
-/

namespace Gat

open LockFormat

/-- A joined path is canonical exactly when both parts are. -/
theorem LockFormat.isCanonical_join_iff {first second : Str} :
    IsCanonical (first ++ Byte.slash :: second) ↔ IsCanonical first ∧ IsCanonical second := by
  have nonempty {path : Str} (components : ∀ component ∈ path.splitOn Byte.slash, component ≠ []) : path ≠ [] := by
    rintro rfl
    exact components [] (by simp) rfl
  unfold IsCanonical
  rw [List.splitOn_append_cons_self]
  simp only [List.forall_mem_append]
  constructor
  · rintro ⟨-, left, right⟩
    exact ⟨⟨nonempty fun component member => (left component member).1, left⟩,
      nonempty fun component member => (right component member).1, right⟩
  · rintro ⟨⟨-, left⟩, -, right⟩
    exact ⟨by simp, left, right⟩

/-- The root of a tree or a path below it. -/
inductive GatSubpath where
  | root
  | path (path : GatPath)
deriving DecidableEq

/-- Component-aware stripping. -/
def relativePath (candidate base : Str) : Option Str := do
  let rest ← candidate.stripPrefix base
  if rest = [] then some rest else rest.stripPrefix [Byte.slash]

theorem relativePath_eq_some_iff {candidate base rest : Str} :
    relativePath candidate base = some rest ↔
      candidate = base ∧ rest = [] ∨ candidate = base ++ Byte.slash :: rest := by
  unfold relativePath Str.stripPrefix
  by_cases below : base <+: candidate
  · obtain ⟨suffix, rfl⟩ := below
    rw [if_pos (List.prefix_append base suffix), List.drop_left, Option.bind_eq_bind, Option.bind_some]
    by_cases empty : suffix = []
    · simp [empty, eq_comm]
    · rw [if_neg empty]
      cases suffix with
      | nil => exact absurd rfl empty
      | cons head tail =>
        by_cases separator : head = Byte.slash
        · subst separator
          rw [if_pos (by simp)]
          simp
        · rw [if_neg (by simpa using separator ∘ Eq.symm)]
          simp [separator]
  · rw [if_neg below, Option.bind_eq_bind, Option.bind_none]
    refine iff_of_false nofun ?_
    rintro (⟨rfl, -⟩ | rfl)
    · exact below (List.prefix_refl _)
    · exact below (List.prefix_append _ _)

namespace GatPath

/-- What is below a base is a canonical path of its own. -/
theorem relativePath_valid {path base : GatPath} {rest : Str} (found : relativePath path.text base.text = some rest)
    (nonempty : rest ≠ []) : Utf8.Valid rest ∧ validateCanonicalStr rest = .ok () := by
  rcases relativePath_eq_some_iff.mp found with ⟨-, empty⟩ | split
  · exact absurd empty nonempty
  · have utf8 := split ▸ path.utf8
    have canonical := split ▸ path.isCanonical
    exact ⟨(Utf8.Valid.split_ascii (by decide) utf8).2, validateCanonicalStr_eq_ok_iff.mpr (isCanonical_join_iff.mp canonical).2⟩

/-- The component-relative suffix of a path under a base, the root for an exact match. -/
def stripPrefix (path base : GatPath) : Option GatSubpath :=
  match found : relativePath path.text base.text with
  | none => none
  | some rest =>
    if nonempty : rest ≠ [] then
      some (.path ⟨rest, (relativePath_valid found nonempty).1, (relativePath_valid found nonempty).2⟩)
    else some .root

/-- Whether a path is the base or below it. -/
def isOrUnder (path base : GatPath) : Bool := (path.stripPrefix base).isSome

/-- Join a path with a relative one. -/
def joinRel (path rel : GatPath) : GatPath where
  text := path.text ++ Byte.slash :: rel.text
  utf8 := path.utf8.append (Utf8.Valid.cons_ascii (by decide) rel.utf8)
  canonical := validateCanonicalStr_eq_ok_iff.mpr (isCanonical_join_iff.mpr ⟨path.isCanonical, rel.isCanonical⟩)

/-- Rewrite the leading base of a path under it. -/
def withReplacedPrefix (path oldBase newBase : GatPath) : GatPath :=
  match path.stripPrefix oldBase with
  | some .root => newBase
  | some (.path rel) => newBase.joinRel rel
  | none => path

/-- The half-open byte range of everything below a path; `0` is the byte after the separator. -/
def descendantRange (path : GatPath) : Str × Str := (path.text ++ ascii "/", path.text ++ ascii "0")

end GatPath

end Gat
