import Gat.Model.LockReader
import Mathlib.Data.Finset.Sort

/-! # Locks and their text

A lock is a list of entries in any order. Writing sorts them by path and escapes control characters;
parsing certifies the text first and then copies its rows. Validation checks uniqueness and the
file/directory rule over the ordered paths, keeping the earlier paths that are prefixes of the current
one.
-/

namespace Gat

structure Entry where
  path : GatPath
  oid : Oid
deriving DecidableEq

structure Lock where
  entries : List Entry
deriving DecidableEq

/-- `{:02x}` of a byte. -/
def lowerHex (byte : UInt8) : Str := List.leftpad 2 0x30 ((Nat.toDigits 16 byte.toNat).map fun digit => digit.val.toUInt8)

/-- Write the rest of an escaped path. `start` is the end of the last escaped byte and `i` the index of
the next byte. -/
def writeEscaped {ε : Type} (path out : Str) (start : ℕ) : List UInt8 → ℕ → Outcome ε Str
  | [], _ => do
    let span ← Str.sliceFrom path start
    pure (out ++ span)
  | byte :: rest, i =>
    if byte < 32 then do
      let span ← Str.slice path start i
      writeEscaped path (out ++ span ++ Byte.backslash :: 0x78 :: lowerHex byte) (i + 1) rest (i + 1)
    else writeEscaped path out start rest (i + 1)

/-- Canonical control-only escaping of a path. -/
def escapedPath {ε : Type} (path : GatPath) : Outcome ε Str := writeEscaped path.text [] 0 path.text 0

/-- Whether the path is the ancestor followed by `/` and at least one more byte. -/
def isDirectoryPrefix (ancestor path : Str) : Bool :=
  ancestor.length < path.length && path[ancestor.length]? = some Byte.slash && ancestor.isPrefixOf path

/-- Scan ordered paths with the stack of earlier prefixes; `false` means the paths are not ordered. -/
def validatePathsFrom (previous : Str) (candidates : List Str) :
    List Str → Outcome LockDomainError Bool
  | [] => .ok true
  | path :: rest =>
    match Str.cmp previous path with
    | .eq => Outcome.fail (.duplicatePath path none)
    | .gt => .ok false
    | .lt =>
      let kept := candidates.dropWhile fun candidate =>
        path.length ≤ candidate.length || !candidate.isPrefixOf path
      let kept := if previous.length < path.length ∧ previous <+: path then previous :: kept else kept
      match kept with
      | [] => validatePathsFrom path kept rest
      | ancestor :: _ =>
        if path[ancestor.length]? = some Byte.slash then
          Outcome.fail (.directoryPrefixConflict ancestor path)
        else validatePathsFrom path kept rest

def validatePathsIfOrdered : List Str → Outcome LockDomainError Bool
  | [] => .ok true
  | path :: rest => validatePathsFrom path [] rest

/-- Fails if a path of the set is a directory prefix of another one. -/
def validateNoPathDirectoryConflicts (paths : Finset Str) : Outcome LockDomainError Unit := do
  let _ ← validatePathsIfOrdered paths.sort
  pure ()

namespace Lock

/-- The paths of the entries in list order. -/
def paths (lock : Lock) : List Str := lock.entries.map fun entry => entry.path.text

/-- Entries ordered by path. -/
def sortedEntries (entries : List Entry) : List Entry :=
  entries.mergeSort fun left right => left.path ≤ right.path

/-- Validate uniqueness and file/directory consistency, sorting only unordered entries. -/
def validate (lock : Lock) : Outcome LockDomainError Unit := do
  let ordered ← validatePathsIfOrdered lock.paths
  if ordered then pure ()
  else do
    let _ ← validatePathsIfOrdered ((sortedEntries lock.entries).map fun entry => entry.path.text)
    pure ()

/-- Certify a complete file and copy its rows. -/
def parse (kernel : Kernel) (text : Str) : Outcome LockDomainError Lock := do
  let view ← ValidatedLockFile.parse kernel text
  let rows ← view.semanticRows
  pure ⟨rows.map fun row => ⟨row.1, row.2⟩⟩

/-- The line of one entry. -/
def entryLine {ε : Type} (entry : Entry) : Outcome ε Str := do
  let escaped ← escapedPath entry.path
  pure (entry.oid.encodeHex ++ Byte.tab :: (escaped ++ [Byte.lineFeed]))

/-- The text of a lock: the version line and one line per entry in path order. -/
def toText {ε : Type} (lock : Lock) : Outcome ε Str := do
  let lines ← (sortedEntries lock.entries).mapM entryLine
  pure (VERSION ++ [Byte.lineFeed] ++ lines.flatten)

end Lock

end Gat
