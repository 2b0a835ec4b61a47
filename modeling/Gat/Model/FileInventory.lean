import Gat.Model.CacheSweep
import Gat.Model.WorktreeMutation

/-! # The inventory of a file remote

A file remote keeps an object at `blake3/xx/yy/oid` below its root. The inventory lists the objects in batches: it walks the
canonical directories depth first, keeps the open ones between two calls, and every call visits at most a bounded number of
entries. Any call of the file system may fail, in one batch and not in the next.
-/

namespace Gat

def OBJECT_HASH_NAMESPACE : Str := ascii "blake3"

/-! ## Keys of objects -/

/-- `copy_within`, or another write of bytes at an offset. -/
def writeAt (buffer : Str) (offset : ℕ) (bytes : Str) : Str := buffer.take offset ++ bytes ++ buffer.drop (offset + bytes.length)

/-- `ObjectKey::new`: the digits are written at the end, then the first four of them are copied to the two directories. -/
def objectKeyOid (oid : Oid) : Str :=
  let width := OBJECT_HASH_NAMESPACE.length
  let start := width + 7
  let blank := writeAt (List.replicate (width + 7 + 64) Byte.slash) 0 OBJECT_HASH_NAMESPACE
  let bytes := writeAt blank start (oid.bytes.flatMap fun byte : UInt8 => [hexDigit (byte >>> 4), hexDigit (byte &&& 0xF)])
  let bytes := writeAt bytes (width + 1) ((bytes.drop start).take 2)
  writeAt bytes (width + 4) ((bytes.drop (start + 2)).take 2)

def ObjectFanout.fromSegments (first second : Str) : Option ObjectFanout := do
  let first ← parseFanoutSegment first
  let second ← parseFanoutSegment second
  some (ObjectFanout.new first second)

def parseObjectKey (key : Str) : Option Oid := do
  let rest ← Str.stripPrefix key OBJECT_HASH_NAMESPACE
  let rest ← Str.stripPrefix rest [Byte.slash]
  match rest.splitOn Byte.slash with
  | [l1, l2, hex] => do
    let fanout ← ObjectFanout.fromSegments l1 l2
    fanout.parseLeaf hex
  | _ => none

/-! ## Scanning -/

/-- The names that reading a directory yields, in the order of the file system. -/
structure DirectoryStreams (tree : WorktreeTree) where
  names : TreePath → List FileName
  nodup : ∀ path, (names path).Nodup
  mem_iff : ∀ path name, name ∈ names path ↔ (tree.node (path ++ [name])).isSome

inductive ScanCall where
  | inspectNamespace
  | openNamespace
  | nextEntry (directory : TreePath)
  | fileType (path : TreePath)
  | openDirectory (path : TreePath)
deriving DecidableEq

inductive InventoryError where
  | notDirectory
  | io (call : ScanCall)
deriving DecidableEq

inductive ScanLevel where
  | objectNamespace
  | first (byte : UInt8)
  | objects (fanout : ObjectFanout)
deriving DecidableEq

/-- An open directory with the entries that have not been read. -/
structure OpenDirectory where
  path : TreePath
  remaining : List FileName
  level : ScanLevel
deriving DecidableEq

/-- An empty stack is exhausted and never reopens the namespace. The directory that is read is the first one. -/
inductive ScanState where
  | pending
  | active (stack : List OpenDirectory)
deriving DecidableEq

/-- What becomes of an entry. -/
inductive ScanVisit where
  | skip
  | descend (level : ScanLevel)
  | object (oid : Oid)
deriving DecidableEq

def ScanLevel.visit (level : ScanLevel) (kind : FileTree.Node WorktreeLeaf) (name : Str) : ScanVisit :=
  match level, kind with
  | .objectNamespace, .directory =>
    match parseFanoutSegment name with
    | some byte => .descend (.first byte)
    | none => .skip
  | .first byte, .directory =>
    match parseFanoutSegment name with
    | some second => .descend (.objects (ObjectFanout.new byte second))
    | none => .skip
  | .objects fanout, .leaf (.file _) =>
    match fanout.parseLeaf name with
    | some oid => .object oid
    | none => .skip
  | _, _ => .skip

/-- How a call ends: the stack and the number of entries that it visited are left whatever the result is. -/
structure ScanOutcome where
  stack : List OpenDirectory
  visited : ℕ
  result : Except InventoryError (Option (List Oid))

section

variable {tree : WorktreeTree} (streams : DirectoryStreams tree)

/-- The loop of a call. It ends when the budget is used up, when nothing is open, or at an error. -/
def scanLoop (bound : ℕ) (faults : ScanCall → Bool) (stack : List OpenDirectory) (objects : List Oid) (visited : ℕ) (within : visited ≤ bound) :
    ScanOutcome :=
  match stack with
  | [] => ⟨[], visited, .ok (if visited ≠ 0 then some objects else none)⟩
  | directory :: below =>
    if full : visited = bound then ⟨directory :: below, visited, .ok (some objects)⟩
    else if faults (.nextEntry directory.path) then ⟨directory :: below, visited, .error (.io (.nextEntry directory.path))⟩
    else
      match directory.remaining with
      | [] => scanLoop bound faults below objects visited within
      | name :: remaining =>
        let path := directory.path ++ [name]
        let stack := ⟨directory.path, remaining, directory.level⟩ :: below
        match name.toStr with
        | none => scanLoop bound faults stack objects (visited + 1) (by omega)
        | some text =>
          if faults (.fileType path) then ⟨stack, visited + 1, .error (.io (.fileType path))⟩
          else
            match tree.node path with
            | none => scanLoop bound faults stack objects (visited + 1) (by omega)
            | some kind =>
              match directory.level.visit kind text with
              | .skip => scanLoop bound faults stack objects (visited + 1) (by omega)
              | .object oid => scanLoop bound faults stack (objects ++ [oid]) (visited + 1) (by omega)
              | .descend level =>
                if faults (.openDirectory path) then ⟨stack, visited + 1, .error (.io (.openDirectory path))⟩
                else scanLoop bound faults (⟨path, streams.names path, level⟩ :: stack) objects (visited + 1) (by omega)
termination_by 2 * (bound - visited) + stack.length
decreasing_by all_goals simp only [List.length_cons]; omega

/-- `read_directory_if_present` on the namespace. -/
def readNamespace (faults : ScanCall → Bool) : Except InventoryError (List OpenDirectory) :=
  if faults .inspectNamespace then .error (.io .inspectNamespace)
  else
    match tree.node [OBJECT_HASH_NAMESPACE] with
    | none => .ok []
    | some (.leaf _) => .error .notDirectory
    | some .directory =>
      if faults .openNamespace then .error (.io .openNamespace)
      else .ok [⟨[OBJECT_HASH_NAMESPACE], streams.names [OBJECT_HASH_NAMESPACE], .objectNamespace⟩]

/-- Opening the namespace counts only when it succeeds. -/
def activate (faults : ScanCall → Bool) : ScanState → Except InventoryError (List OpenDirectory)
  | .pending => readNamespace streams faults
  | .active stack => .ok stack

/-- One call. -/
def nextBatch (bound : ℕ) (faults : ScanCall → Bool) (scan : ScanState) : (ScanState × ℕ) × Except InventoryError (Option (List Oid)) :=
  match activate streams faults scan with
  | .error error => ((scan, 0), .error error)
  | .ok stack =>
    let scanned := scanLoop streams bound faults stack [] 0 (Nat.zero_le bound)
    ((.active scanned.stack, scanned.visited), scanned.result)

end

end Gat
