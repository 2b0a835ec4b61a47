import Gat.Model.LexicalPath

/-! # The normalizing scan

One pass over the raw text cuts it at both separators, drops empty and `.` components and copies the others. For glob
patterns it also keeps where the first metacharacter lands in the normalized text: its offset within its component is
found while the component is scanned, and the component is copied unchanged.
-/

namespace Gat

/-- A character that starts a glob construct. -/
def isGlobMeta (byte : UInt8) : Bool := byte ∈ ascii "*?["

def isSeparator (byte : UInt8) : Bool := byte = Byte.slash || byte = Byte.backslash

structure NormalizedGlobPattern where
  pattern : Str
  firstMeta : Option ℕ
deriving DecidableEq

namespace LexicalScan

/-- Copy one component; the first pending metacharacter moves with it. -/
def pushComponent (component display : Str) (pendingMeta : Option ℕ) (normalized : NormalizedGlobPattern) :
    Outcome LexicalPathError NormalizedGlobPattern :=
  if component = [] ∨ component = ascii "." then .ok normalized
  else if component = ascii ".." then Outcome.fail (.parentTraversal display)
  else
    let separated := if normalized.pattern = [] then [] else normalized.pattern ++ [Byte.slash]
    .ok ⟨separated ++ component, normalized.firstMeta <|> pendingMeta.map (separated.length + ·)⟩

/-- The loop over the rest of the text, whose first byte has the index `idx`. -/
def scan (raw display : Str) (trackGlobMeta : Bool) (componentStart : ℕ) (pendingMeta : Option ℕ) (normalized : NormalizedGlobPattern) :
    List UInt8 → ℕ → Outcome LexicalPathError NormalizedGlobPattern
  | [], _ => do
    let component ← Str.sliceFrom raw componentStart
    pushComponent component display pendingMeta normalized
  | byte :: rest, idx =>
    if isSeparator byte then do
      let component ← Str.slice raw componentStart idx
      let normalized ← pushComponent component display pendingMeta normalized
      scan raw display trackGlobMeta (idx + 1) none normalized rest (idx + 1)
    else if isGlobMeta byte ∧ trackGlobMeta ∧ normalized.firstMeta = none ∧ pendingMeta = none then
      scan raw display trackGlobMeta componentStart (some (idx - componentStart)) normalized rest (idx + 1)
    else scan raw display trackGlobMeta componentStart pendingMeta normalized rest (idx + 1)

def normalizeLexical (raw display : Str) (trackGlobMeta : Bool) : Outcome LexicalPathError NormalizedGlobPattern :=
  if raw.head?.any isSeparator then Outcome.fail (.notRelative display)
  else scan raw display trackGlobMeta 0 none ⟨[], none⟩ raw 0

end LexicalScan

def normalizeGlobPatternWithMeta (pattern : Str) : Outcome LexicalPathError NormalizedGlobPattern :=
  LexicalScan.normalizeLexical pattern pattern true

/-- The result of normalizing a relative path; without components it is the root itself. -/
inductive LexicalPath where
  | empty
  | path (text : Str)
deriving DecidableEq

def normalizeRelativeStr (raw display : Str) : Outcome LexicalPathError LexicalPath := do
  let normalized ← LexicalScan.normalizeLexical raw display false
  pure (if normalized.pattern = [] then .empty else .path normalized.pattern)

/-- The text of `GatPath::normalize`. -/
def GatPath.normalize (path : Str) : Outcome LexicalPathError Str := do
  match ← normalizeRelativeStr path path with
  | .path text => pure text
  | .empty => Outcome.fail (.emptyPath path)

end Gat
