import Gat.Model.Excludes
import Gat.Model.LockMerge
import Mathlib.Data.List.DropRight
import Mathlib.Data.Nat.Digits.Defs

/-! # The body of the managed exclusions

The block holds the configured patterns and one anchored rule for every tracked path that no pattern covers. The same body
is rendered from a loaded lock, from the rows of the state store and from the lock that a mutation session retains. The
ignore engine and the table of printable characters are outside.
-/

namespace Gat

/-- A compiled search of the ignore engine: given patterns, a path and whether it is a directory, it tells whether the
pattern that decides is negative. -/
abbrev IgnoreSearch := List Str → Str → Bool → Option Bool

/-- Every directory above a path is asked before the path, and the last answer stands. -/
def GitIgnoreMatcher.isIgnored (search : IgnoreSearch) (patterns : List Str) (rel : Str) : Bool :=
  let above := (List.range rel.length).foldl (fun ignored index =>
    if rel[index]? = some Byte.slash then ((search patterns (rel.take index) true).map not).getD ignored else ignored) false
  ((search patterns rel false).map not).getD above

def BEGIN : Str := ascii "# >>> gat >>>"

def END : Str := ascii "# <<< gat <<<"

/-! ## Rules and comments -/

/-- One character of `{:?}`; `printable` is the table of the standard library without grapheme extensions. -/
def escapeDebug (printable : Char → Bool) (char : Char) : Str :=
  if char = '\x00' then ascii "\\0"
  else if char = '\t' then ascii "\\t"
  else if char = '\r' then ascii "\\r"
  else if char = '\n' then ascii "\\n"
  else if char = '\\' then ascii "\\\\"
  else if char = '"' then ascii "\\\""
  else if printable char then String.utf8EncodeChar char
  else ascii "\\u\x7b" ++ (Nat.digits 16 char.toNat).reverse.map (fun digit => hexDigit (UInt8.ofNat digit)) ++ ascii "\x7d"

def debugStr (printable : Char → Bool) (text : Str) : Str := ascii "\"" ++ (Utf8.chars text).flatMap (escapeDebug printable) ++ ascii "\""

/-- `trim_end_matches` for one ASCII character. -/
def trimEndMatches (byte : UInt8) (text : Str) : Str := text.rdropWhile (· = byte)

def escapeExact (char : Char) : Str :=
  if char = '\r' then ascii "[\r]"
  else (if char ∈ ['\\', '*', '?', '[', ']'] then [Byte.backslash] else []) ++ String.utf8EncodeChar char

def appendExactExcludePattern (escaped path : Str) : Str :=
  let head := trimEndMatches 0x20 path
  let trailingSpaces := path.length - head.length
  escaped ++ [Byte.slash] ++ (Utf8.chars head).flatMap escapeExact ++ (List.replicate trailingSpaces (ascii "\\ ")).flatten

/-- Rendered bytes with the number of rules. -/
structure ExcludeBody where
  body : Str
  count : ℕ
deriving DecidableEq

namespace ExcludeBody

/-- A configured comment must not become a marker of the block. -/
def new (patterns : List GitIgnorePattern) : ExcludeBody :=
  patterns.foldl (fun result pattern =>
    ⟨result.body ++ (if pattern.text = BEGIN ∨ pattern.text = END then ascii "# " else []) ++ pattern.text ++ [Byte.lineFeed], result.count + 1⟩) ⟨[], 0⟩

variable (printable : Char → Bool)

def pushPath (result : ExcludeBody) (path : Str) : ExcludeBody :=
  if Byte.lineFeed ∈ path then
    ⟨result.body ++ ascii "# No exact Git exclusion for LF path: " ++ debugStr printable path ++ [Byte.lineFeed], result.count⟩
  else ⟨appendExactExcludePattern result.body path ++ [Byte.lineFeed], result.count + 1⟩

end ExcludeBody

/-! ## Three sources of paths -/

section Sources

variable (search : IgnoreSearch) (printable : Char → Bool) (patterns : List GitIgnorePattern)

def IgnoreCoveragePlan.ofPatterns : IgnoreCoveragePlan :=
  IgnoreCoveragePlan.new (fun residual => GitIgnoreMatcher.isIgnored search (residual.map GitIgnorePattern.text)) patterns

/-- Sort and deduplicate the paths that need a rule of their own and render them. -/
def renderExact (exact : List Str) : ExcludeBody :=
  let exact := if exact.Pairwise (· ≤ ·) then exact else exact.mergeSort
  (exact.destutter (· ≠ ·)).foldl (ExcludeBody.pushPath printable) (ExcludeBody.new patterns)

/-- The body that `sync_from_lock_with_config` writes. -/
def bodyFromLock (lock : Lock) : ExcludeBody :=
  let plan := IgnoreCoveragePlan.ofPatterns search patterns
  renderExact printable patterns ((lock.entries.filter fun entry => !plan.covers entry.path).map fun entry => entry.path.text)

variable {ε : Type}

/-- The source supplies sorted, unique paths and leaves out excluded ones. -/
def bodyFromPaths
    (visitPaths : DesiredPathExclusions → (ExcludeBody → GatPath → Except ε ExcludeBody) → ExcludeBody → Except ε ExcludeBody) :
    Except ε ExcludeBody :=
  let plan := IgnoreCoveragePlan.ofPatterns search patterns
  visitPaths plan.excluded (fun body path => .ok (if plan.residualMatches path then body else body.pushPath printable path.text))
    (ExcludeBody.new patterns)

def bodyFromStore (store : StateTable) : Except ε ExcludeBody :=
  bodyFromPaths search printable patterns fun excluded visit => store.visitDesiredPathsExcluding visit excluded

/-- What a mutation reads desired paths from: the lock that it retains for a complete rewrite, or the store. -/
structure DesiredMutationSession where
  fullLock : Option Lock
  store : StateTable

def DesiredMutationSession.visitDesiredPaths {σ : Type} (session : DesiredMutationSession) (excluded : DesiredPathExclusions)
    (visit : σ → GatPath → Except ε σ) (state : σ) : Except ε σ :=
  match session.fullLock with
  | some lock =>
    let paths := (lock.entries.map Entry.path).filter fun path => !excluded.contains path
    (paths.mergeSort.destutter (· ≠ ·)).foldlM visit state
  | none => session.store.visitDesiredPathsExcluding visit excluded state

/-- The body that `sync_from_mutation` writes. -/
def bodyFromMutation (session : DesiredMutationSession) : Except ε ExcludeBody :=
  bodyFromPaths search printable patterns session.visitDesiredPaths

end Sources

end Gat
