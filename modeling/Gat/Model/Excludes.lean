import Gat.Proofs.DesiredQuery
import Gat.Proofs.StateStore

/-! # Excluded subtrees of the desired paths

Ignore patterns that spell one literal directory are kept as byte ranges. Ranges that nest or repeat are coalesced, a
path is looked up by the last range that starts before it, and desired paths are read from the gaps between the
ranges. Every other pattern is left to the ignore engine, which is outside.
-/

namespace Gat

/-- The range of everything below a directory. -/
def LexicalRange.below (path : GatPath) : LexicalRange := ⟨path.descendantRange.1, (path.descendantRange.2 : Str)⟩

theorem LexicalRange.below_proper (path : GatPath) : ((below path).lower : WithTop Str) < (below path).upper :=
  WithTop.coe_lt_coe.mpr (List.append_left_lt (by decide))

/-- Descendant ranges to omit from an enumeration of desired paths. The directory itself can still be a file. -/
structure DesiredPathExclusions where
  ranges : List LexicalRange
  ascending : HalfOpen.Ascending ranges
  apart : HalfOpen.Apart ranges
  proper : ∀ range ∈ ranges, (range.lower : WithTop Str) < range.upper

namespace DesiredPathExclusions

def new (directories : List GatPath) : DesiredPathExclusions where
  ranges := coalesceRanges (directories.map LexicalRange.below)
  ascending := ascending_coalesceRanges _
  apart := apart_coalesceRanges _
  proper := proper_coalesceRanges fun _ member => by
    obtain ⟨path, -, rfl⟩ := List.mem_map.mp member
    exact LexicalRange.below_proper path

variable (exclusions : DesiredPathExclusions)

/-- Probe the last range that starts at or before a path. -/
def contains (path : GatPath) : Bool :=
  match partitionPoint exclusions.ranges fun range => range.lower ≤ path.text with
  | 0 => false
  | index + 1 => exclusions.ranges[index]?.any fun range => (path.text : WithTop Str) < range.upper

end DesiredPathExclusions

namespace StateTable

variable (table : StateTable)

def desiredPaths : List GatPath := table.desiredRows.map Entry.path

/-- The desired paths of one interval in path order. -/
def desiredPathsIn (range : LexicalRange) : List GatPath := table.desiredPaths.filter fun path => path.text ∈ range

section Visit

variable {ε σ : Type} (visit : σ → GatPath → Except ε σ)

/-- Visit the interval before each range, then the one after the last; a range without an upper bound ends the visit. -/
def visitIntervals : Str → List LexicalRange → σ → Except ε σ
  | lower, [], state => (table.desiredPathsIn ⟨lower, ⊤⟩).foldlM visit state
  | lower, range :: ranges, state => do
    let state ← (table.desiredPathsIn ⟨lower, range.lower⟩).foldlM visit state
    match range.upper with
    | ⊤ => pure state
    | (upper : Str) => visitIntervals upper ranges state

/-- Visit desired paths in path order, seeking past the excluded subtrees. -/
def visitDesiredPathsExcluding (excluded : DesiredPathExclusions) (state : σ) : Except ε σ :=
  if excluded.ranges = [] then table.desiredPaths.foldlM visit state else table.visitIntervals visit [] excluded.ranges state

end Visit

end StateTable

/-! ## Ignore patterns -/

/-- `char::is_whitespace`. -/
def charIsWhitespace (char : Char) : Bool :=
  (0x09 ≤ char.toNat && char.toNat ≤ 0x0D) || (0x2000 ≤ char.toNat && char.toNat ≤ 0x200A) ||
    char.toNat ∈ [0x20, 0x85, 0xA0, 0x1680, 0x2028, 0x2029, 0x202F, 0x205F, 0x3000]

/-- `char::is_control`. -/
def charIsControl (char : Char) : Bool := char.toNat ≤ 0x1F || (0x7F ≤ char.toNat && char.toNat ≤ 0x9F)

/-- One line without negation. -/
structure GitIgnorePattern where
  text : Str
  utf8 : Utf8.Valid text
  singleLine : Byte.carriageReturn ∉ text ∧ Byte.lineFeed ∉ text
  notNegated : text.head? ≠ some 0x21

/-- A character that means more than itself in an ignore pattern or in its line. -/
def isPatternSyntax (char : Char) : Bool :=
  charIsWhitespace char || charIsControl char || char ∈ ['*', '?', '[', ']', '\\']

/-- The directory that an anchored pattern spells letter by letter. -/
def literalDirectory (pattern : GitIgnorePattern) : Option GatPath := do
  let rest ← pattern.text.stripPrefix (ascii "/")
  let directory ← rest.stripSuffix (ascii "/")
  if (Utf8.chars directory).any isPatternSyntax then none else (GatPath.parseCanonical directory).toOption

/-- Literal coverage and the matcher of every other pattern. -/
structure IgnoreCoveragePlan where
  excluded : DesiredPathExclusions
  residual : Option (Str → Bool)

namespace IgnoreCoveragePlan

/-- `matcher` is the ignore engine. -/
def new (matcher : List GitIgnorePattern → Str → Bool) (patterns : List GitIgnorePattern) : IgnoreCoveragePlan :=
  let residual := patterns.filter fun pattern => (literalDirectory pattern).isNone
  ⟨DesiredPathExclusions.new (patterns.filterMap literalDirectory), if residual = [] then none else some (matcher residual)⟩

def residualMatches (plan : IgnoreCoveragePlan) (path : GatPath) : Bool := plan.residual.any fun search => search path.text

def covers (plan : IgnoreCoveragePlan) (path : GatPath) : Bool := plan.excluded.contains path || plan.residualMatches path

end IgnoreCoveragePlan

end Gat
