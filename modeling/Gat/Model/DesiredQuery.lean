import Gat.Model.Selection
import Gat.Model.StateStore
import Gat.ToMathlib.HalfOpenRanges
import Mathlib

/-! # Queries over desired rows

A query says which rows to retrieve, as a scope or as a union of byte ranges and exact paths, and which selection
decides about each retrieved row. The include globs of a selection narrow what is retrieved: fixed text before a
metacharacter becomes the byte range of everything that begins with it.
-/

namespace Gat

inductive CandidateBound where
  | any
  | scope (scope : Str)
  | prefixOf (pattern : Str)
  | exact (path : Str)
deriving DecidableEq

/-- Paths of a byte range; without an upper bound the range ends at the top. -/
abbrev LexicalRange := HalfOpen Str

structure UnionPlan where
  ranges : List LexicalRange
  exact : List Str
deriving DecidableEq

/-- Which rows a query retrieves. -/
inductive DesiredSpan where
  | all
  | empty
  | scope (scope : GatPath)
  | exact (paths : List GatPath)
  | union (plan : UnionPlan)
deriving DecidableEq

structure DesiredQuery where
  span : DesiredSpan
  shardId : Option LockShardId := none
  residual : Option ScopedSelection := none

/-! ## Ranges of prefixes -/

/-- The next Unicode scalar, past the surrogates. -/
def nextScalar (char : Char) : Option Char :=
  if char.toNat = 0xD7FF then some (Char.ofNat 0xE000)
  else if valid : (char.toNat + 1).isValidChar then some (Char.ofNatAux (char.toNat + 1) valid) else none

/-- The upper bound for text given by its characters from the last to the first. -/
def prefixUpperRev : List Char → WithTop Str
  | [] => ⊤
  | last :: front =>
    match nextScalar last with
    | some next => ↑(front.reverse.flatMap String.utf8EncodeChar ++ String.utf8EncodeChar next)
    | none => prefixUpperRev front

/-- Exclusive upper bound for a prefix; characters without a successor are passed over. -/
def lexicalPrefixUpper (pattern : Str) : WithTop Str := prefixUpperRev (Utf8.chars pattern).reverse

def LexicalRange.forPrefix (pattern : Str) : LexicalRange := ⟨pattern, lexicalPrefixUpper pattern⟩

def coalesceRanges (ranges : List LexicalRange) : List LexicalRange :=
  HalfOpen.fuse (ranges.mergeSort fun first second => toLex (first.lower, first.upper) ≤ toLex (second.lower, second.upper))

/-- Drop the points that a range covers. -/
def retainUncoveredExacts (exact : List Str) (ranges : List LexicalRange) : List Str := HalfOpen.uncovered ranges exact

/-! ## Spans -/

/-- Add one bound; nothing is left to narrow when it admits any path. -/
def pushBound (plan : UnionPlan) : CandidateBound → Option UnionPlan
  | .any => none
  | .scope scope =>
    let scope := if scope.getLast? = some Byte.slash then scope.dropLast else scope
    some ⟨plan.ranges ++ [LexicalRange.forPrefix (scope ++ ascii "/")], plan.exact ++ [scope]⟩
  | .prefixOf pattern =>
    if pattern = [] then none else some { plan with ranges := plan.ranges ++ [LexicalRange.forPrefix pattern] }
  | .exact path => some { plan with exact := plan.exact ++ [path] }

def spanFromBounds (bounds : List CandidateBound) : DesiredSpan :=
  match bounds.foldlM pushBound ⟨[], []⟩ with
  | none => .all
  | some plan =>
    if plan.ranges = [] ∧ plan.exact = [] then .empty
    else
      let ranges := coalesceRanges plan.ranges
      .union ⟨ranges, retainUncoveredExacts (plan.exact.toFinset.sort (· ≤ ·)) ranges⟩

def joinScope (scope rel : Str) : Str := if rel = [] then scope else scope ++ Byte.slash :: rel

/-- What one include glob admits below a scope. -/
def includeBound (scope : Option GatPath) (pattern : GatGlobPattern) : Option CandidateBound :=
  let join (rel : Str) := scope.elim rel fun scope => joinScope scope.text rel
  match pattern.bound with
  | .any => none
  | .exact path => some (.exact (join path))
  | .prefixOf pattern => some (.prefixOf (join pattern))

namespace DesiredQuery

def inScope (scope : Option GatPath) : DesiredQuery := ⟨scope.elim .all .scope, none, none⟩

def exact (paths : List GatPath) : DesiredQuery := ⟨.exact paths, none, none⟩

def fromCandidateBounds (bounds : List CandidateBound) : DesiredQuery := ⟨spanFromBounds bounds, none, none⟩

def queryForSelection (selection : ScopedSelection) : DesiredQuery :=
  let scope := selection.scopePath
  if selection.filter.includes.isEmpty then inScope scope
  else
    match selection.filter.includes.mapM (includeBound scope) with
    | none => inScope scope
    | some bounds => fromCandidateBounds bounds

/-- The query a selection-aware command runs. -/
def forSelection (selection : ScopedSelection) : DesiredQuery :=
  let query := queryForSelection selection
  if selection.isUnrestricted then query else { query with residual := some selection }

end DesiredQuery

end Gat
