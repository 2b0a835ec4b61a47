import Gat.Model.Text
import Gat.ToMathlib.AncestorFree

/-! # Canonical relative paths

A tracked path is canonical text relative to the repository root. Strict validation accepts exactly
the canonical spelling. Lenient normalization also treats backslashes as separators and drops empty
and `.` components; the lock reader uses it to name what is wrong with a rejected row.
-/

namespace Gat

inductive LexicalPathError where
  | emptyPath (input : Str)
  | notRelative (input : Str)
  | parentTraversal (input : Str)
deriving DecidableEq, Repr

def validateComponent (raw component : Str) : Outcome LexicalPathError Unit :=
  if component = [] then Outcome.fail (.notRelative raw)
  else if component = ascii "." then Outcome.fail (.notRelative raw)
  else if component = ascii ".." then Outcome.fail (.parentTraversal raw)
  else if Byte.backslash ∈ component then Outcome.fail (.notRelative raw)
  else .ok ()

/-- Check that text already is in canonical form. -/
def validateCanonicalStr (raw : Str) : Outcome LexicalPathError Unit :=
  if raw = [] then Outcome.fail (.emptyPath raw)
  else if raw.head? = some Byte.slash then Outcome.fail (.notRelative raw)
  else (raw.splitOn Byte.slash).forM (validateComponent raw)

def pushComponent (raw normalized component : Str) : Outcome LexicalPathError Str :=
  if component = [] ∨ component = ascii "." then .ok normalized
  else if component = ascii ".." then Outcome.fail (.parentTraversal raw)
  else if normalized = [] then .ok component
  else .ok (normalized ++ Byte.slash :: component)

/-- Normalize separators and redundant components without consulting the filesystem. -/
def normalizeLexical (raw : Str) : Outcome LexicalPathError Str :=
  if raw.head? = some Byte.slash ∨ raw.head? = some Byte.backslash then
    Outcome.fail (.notRelative raw)
  else
    (raw.splitOnP fun byte => byte = Byte.slash ∨ byte = Byte.backslash).foldlM (pushComponent raw) []

/-- The normalized path text, rejecting the repository root itself. -/
def normalize (raw : Str) : Outcome LexicalPathError Str := do
  let pattern ← normalizeLexical raw
  if pattern = [] then Outcome.fail (.emptyPath raw) else pure pattern

/-- A validated canonical path. -/
structure GatPath where
  text : Str
  utf8 : Utf8.Valid text
  canonical : validateCanonicalStr text = .ok ()
deriving DecidableEq

namespace GatPath

@[ext] theorem ext {left right : GatPath} (same : left.text = right.text) : left = right := by
  cases left
  cases right
  cases same
  rfl

theorem text_injective : Function.Injective text := fun _ _ => ext

/-- Paths are ordered by their bytes. -/
instance : LinearOrder GatPath :=
  LinearOrder.lift' text text_injective

theorem lt_iff {left right : GatPath} : left < right ↔ left.text < right.text := Iff.rfl

theorem le_iff {left right : GatPath} : left ≤ right ↔ left.text ≤ right.text := Iff.rfl

/-- `GatPathRef::from_validated` on text that its caller has certified; breaking that contract is a
fault of the caller. -/
def fromValidated {ε : Type} (raw : Str) : Outcome ε GatPath :=
  if certified : Utf8.Valid raw ∧ validateCanonicalStr raw = .ok () then
    .ok ⟨raw, certified.1, certified.2⟩
  else Outcome.panic

/-- Strict parse of text that is claimed to be canonical. -/
def parseCanonical (raw : Str) : Outcome LexicalPathError GatPath := do
  validateCanonicalStr raw
  fromValidated raw

/-! Short paths for the examples, the last one with a control character. -/

def a : GatPath := ⟨ascii "a", by decide, by decide⟩

def b : GatPath := ⟨ascii "b", by decide, by decide⟩

def c : GatPath := ⟨ascii "c", by decide, by decide⟩

def d : GatPath := ⟨ascii "d", by decide, by decide⟩

def ac : GatPath := ⟨ascii "a/c", by decide, by decide⟩

def control : GatPath := ⟨ascii "b\x01c", by decide, by decide⟩

end GatPath

end Gat
