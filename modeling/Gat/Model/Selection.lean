import Gat.Model.LexicalTree
import Gat.Model.Sync

/-! # Path selections

A selection pairs a subtree with include and exclude globs that are matched relative to it. The glob engine is
outside: a pattern is its normalized text with a compiled matcher, and the fixed text before the first
metacharacter bounds what the matcher accepts.
-/

namespace Gat

/-- The candidates a glob can match: any text, text with a fixed beginning, or one text. -/
inductive GlobBound where
  | any
  | prefixOf (pattern : Str)
  | exact (path : Str)
deriving DecidableEq

/-- Whether a text lies within a bound. -/
def GlobBound.Admits : GlobBound → Str → Prop
  | .any, _ => True
  | .prefixOf pattern, path => pattern <+: path
  | .exact only, path => path = only

def firstMetaIndex (pattern : Str) : Option ℕ := pattern.findIdx? fun byte => byte ∈ ascii "*?["

/-- The bound that the text of a pattern gives. -/
def globBound (normalized : Str) : GlobBound :=
  match firstMetaIndex normalized with
  | none => .exact normalized
  | some 0 => .any
  | some index => .prefixOf (normalized.take index)

/-- A compiled pattern; its matcher keeps to the bound of its text. -/
structure GatGlobPattern where
  normalized : Str
  utf8 : Utf8.Valid normalized
  compiled : Str → Bool
  bounded : ∀ path, compiled path = true → (globBound normalized).Admits path

def GatGlobPattern.bound (pattern : GatGlobPattern) : GlobBound := globBound pattern.normalized

structure GlobFilter where
  includes : List GatGlobPattern
  excludes : List GatGlobPattern

namespace GlobFilter

def anyMatch (patterns : List GatGlobPattern) (relPath : Str) : Bool := patterns.any fun pattern => pattern.compiled relPath

/-- Everything matches an empty include list, and an exclude always wins. -/
def matchesPath (filter : GlobFilter) (relPath : Str) : Bool :=
  if !filter.includes.isEmpty && !anyMatch filter.includes relPath then false else !anyMatch filter.excludes relPath

def isUnrestricted (filter : GlobFilter) : Bool := filter.includes.isEmpty && filter.excludes.isEmpty

end GlobFilter

inductive PathScope where
  | root
  | path (scope : GatPath)
deriving DecidableEq

/-- A resolved selection of tracked paths. -/
structure ScopedSelection where
  scope : PathScope
  filter : GlobFilter

namespace ScopedSelection

variable (selection : ScopedSelection)

def scopePath : Option GatPath :=
  match selection.scope with
  | .root => none
  | .path scope => some scope

def isUnrestricted : Bool :=
  match selection.scope with
  | .root => selection.filter.isUnrestricted
  | .path _ => false

/-- The part of a path below the scope; the scope itself has the empty part. -/
def relative (candidate : Str) : Option Str :=
  match selection.scope with
  | .root => some candidate
  | .path scope => relativePath candidate scope.text

def matchesStr (candidate : Str) : Bool :=
  match selection.relative candidate with
  | some rel => selection.filter.matchesPath rel
  | none => false

theorem matchesStr_of_isUnrestricted (unrestricted : selection.isUnrestricted) (candidate : Str) : selection.matchesStr candidate := by
  obtain ⟨scope, filter⟩ := selection
  cases scope with
  | path scope => cases unrestricted
  | root =>
    obtain ⟨includes, excludes⟩ := filter
    obtain ⟨noInclude, noExclude⟩ := Bool.and_eq_true_iff.mp unrestricted
    obtain rfl := List.isEmpty_iff.mp noInclude
    obtain rfl := List.isEmpty_iff.mp noExclude
    rfl

/-- The selection as the predicate that it stands for. -/
def toSelection : Selection :=
  ⟨selection.isUnrestricted, fun path => selection.matchesStr path.text, fun unrestricted path =>
    selection.matchesStr_of_isUnrestricted unrestricted path.text⟩

end ScopedSelection

end Gat
