import Gat.Model.LexicalScan
import Gat.Model.LockStore
import Gat.Model.Selection
import Gat.ToMathlib.Glob

/-! # Compiled glob patterns

A pattern is normalized, then compiled by the glob engine, which is outside; what the engine documents about its grammar
and its matcher is stated as an assumption. A directory walk asks whether a descendant of a directory could match: the
text before each separator of the pattern is compiled as a pattern of its own, and what does not compile is dropped.
-/

namespace Gat

/-- Options of the engine's matcher. -/
structure MatchOptions where
  caseSensitive : Bool
  requireLiteralSeparator : Bool
  requireLiteralLeadingDot : Bool
deriving DecidableEq

/-- Case-sensitive and component-aware. -/
def matchOptions : MatchOptions where
  caseSensitive := true
  requireLiteralSeparator := true
  requireLiteralLeadingDot := false

/-- The glob engine: it compiles text and matches texts. -/
structure GlobEngine (Pattern PatternError : Type) where
  new : Str → Except PatternError Pattern
  matchesWith : Pattern → Str → MatchOptions → Bool

/-- What the engine documents: it accepts the patterns of the grammar, and under component-aware, case-sensitive options a
compiled pattern matches the texts that its tokens stand for. -/
structure GlobEngine.Documented {Pattern PatternError : Type} (engine : GlobEngine Pattern PatternError)
    (inClass : List Char → Char → Bool) : Prop where
  accepts : ∀ text, Utf8.Valid text → ((∃ pattern, engine.new text = .ok pattern) ↔ ∃ tokens, Glob.Parses true (Utf8.chars text) tokens)
  matching : ∀ text pattern path options, Utf8.Valid text → Utf8.Valid path → engine.new text = .ok pattern →
    options.caseSensitive = true → options.requireLiteralSeparator = true → options.requireLiteralLeadingDot = false →
    (engine.matchesWith pattern path options = true ↔
      ∃ tokens, Glob.Parses true (Utf8.chars text) tokens ∧ Glob.Matches inClass tokens (Utf8.chars path))

inductive GlobError (PatternError : Type) where
  | invalidLexicalSyntax (pattern : Str) (source : LexicalPathError)
  | invalidGlobSyntax (pattern : Str) (source : PatternError)
deriving DecidableEq

/-- A normalized pattern, the offset of its first metacharacter and its matcher. -/
structure GatGlobPatternInner (Pattern : Type) where
  normalized : Str
  firstMeta : Option ℕ
  compiled : Pattern

namespace GatGlobPatternInner

variable {Pattern PatternError : Type} (engine : GlobEngine Pattern PatternError)

def fromNormalized (normalized : Str) (firstMeta : Option ℕ) : Outcome (GlobError PatternError) (GatGlobPatternInner Pattern) :=
  match engine.new normalized with
  | .ok compiled => .ok ⟨normalized, firstMeta, compiled⟩
  | .error source => Outcome.fail (.invalidGlobSyntax normalized source)

/-- Normalize and compile one user-supplied pattern. -/
def parse (pattern : Str) : Outcome (GlobError PatternError) (GatGlobPatternInner Pattern) := do
  let normalized ← (normalizeGlobPatternWithMeta pattern).mapErr (.invalidLexicalSyntax pattern)
  fromNormalized engine normalized.pattern normalized.firstMeta

/-- A canonical path read as a pattern. -/
def fromPath (path : GatPath) : Outcome (GlobError PatternError) (GatGlobPatternInner Pattern) :=
  fromNormalized engine path.text (firstMetaIndex path.text)

variable (glob : GatGlobPatternInner Pattern)

/-- `matches`. -/
def isMatch (path : Str) : Bool := engine.matchesWith glob.compiled path matchOptions

/-- The matchers of the texts before the separators. A separator inside a class leaves a text that does not compile. -/
def directoryPrefixes : List Pattern :=
  (glob.normalized.findIdxs (· = Byte.slash)).filterMap fun index => (engine.new (glob.normalized.take index)).toOption

/-- Whether a descendant of the directory could match. -/
def canMatchDescendant (directory : Str) : Bool :=
  if directory = [] then true
  else (glob.directoryPrefixes engine).any (engine.matchesWith · directory matchOptions) ||
    ((glob.normalized.splitOn Byte.slash).getLast? = some (ascii "**") && glob.isMatch engine directory)

def bound : GlobBound :=
  match glob.firstMeta with
  | none => .exact glob.normalized
  | some 0 => .any
  | some index => .prefixOf (glob.normalized.take index)

end GatGlobPatternInner

end Gat
