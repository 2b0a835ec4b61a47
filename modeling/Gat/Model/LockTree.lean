import Gat.Model.LockStore

/-! # Lock trees

What is at the path of a lock: nothing, the flat file, or a directory of shard files. Its shape is read off one
file, whichever the directory lists first. A save writes every bucket of rows and removes what it did not write.
-/

namespace Gat

inductive PersistenceError where
  | lock (error : LockError)
  | io (action : Str)
  | rowSource
  | invalidShardId (shard : LockShardId)
  | nothingToReshape
  | stagedShapeMismatch (actual : Option LockShardLevels) (expected : LockShardLevels)
  | stagedLockInvalid (source : PersistenceError)
  | stagedOidMapMismatch
  | unsupportedOnDiskKind
  | txnRecordInvalid
  | reshapeInterruptedLiveMissing
  | reshapeInterruptedAfterBackup
  | liveAlreadyValid
  | candidateShapeMismatch (actual : Option LockShardLevels) (expected : LockShardLevels)
  | candidateInvalid (source : PersistenceError)
  | displacedLiveAlreadyExists
deriving DecidableEq

/-- The files of a shard directory. No file inside it is the flat one. -/
structure ShardTree where
  files : ShardFiles
  nested : ∀ entry ∈ files.entries, entry.1.isFlat = false
deriving DecidableEq

namespace ShardTree

def empty : ShardTree := ⟨.empty, by simp [SortedMap.empty]⟩

/-- Replace one shard file. -/
def write (tree : ShardTree) (shard : LockShardId) (nested : shard.isFlat = false) (text : Str) : ShardTree where
  files := tree.files.insert shard text
  nested entry member := by
    have found := SortedMap.get?_of_mem member
    rw [SortedMap.get?_insert] at found
    split_ifs at found with here
    · exact here ▸ nested
    · exact tree.nested _ (SortedMap.get?_eq_some_iff.mp found)

/-- Remove one shard file, when it is there. -/
def remove (tree : ShardTree) (shard : LockShardId) : ShardTree where
  files := tree.files.erase shard
  nested entry member := by
    have found := SortedMap.get?_of_mem member
    rw [SortedMap.get?_erase] at found
    split_ifs at found
    exact tree.nested _ (SortedMap.get?_eq_some_iff.mp found)

/-- Remove every shard file that was not kept. -/
def removeStale (tree : ShardTree) (kept : List LockShardId) : ShardTree where
  files := tree.files.filter fun entry => entry.1 ∈ kept
  nested entry member := tree.nested entry (List.mem_of_mem_filter member)

end ShardTree

/-- What is at the path of a lock. -/
inductive LockTree where
  | missing
  | file (text : Str)
  | directory (tree : ShardTree)
deriving DecidableEq

/-- The shape of a lock on disk, as its depth: a single file is flat, a shard tree is deeper. -/
abbrev OnDiskShape := LockShardLevels

/-- Finds one arbitrary file under a directory, in whatever order the directory is read. -/
structure FirstFile where
  find : ShardFiles → Option LockShardId
  find_mem : ∀ files shard, find files = some shard → ∃ text, files.get? shard = some text
  find_none : ∀ files, find files = none → files = .empty

/-- The directory lists its files in order. -/
def FirstFile.inOrder : FirstFile where
  find files := files.entries.head?.map Prod.fst
  find_mem files shard found := by
    obtain ⟨entry, isHead, rfl⟩ := Option.map_eq_some_iff.mp found
    exact ⟨entry.2, SortedMap.get?_of_mem (List.mem_of_head? isHead)⟩
  find_none files none := by
    refine SortedMap.ext_entries ?_
    rw [Option.map_eq_none_iff, List.head?_eq_none_iff] at none
    exact none

namespace LockTree

/-- The shard files of a lock. -/
def shardFiles : LockTree → ShardFiles
  | missing => .empty
  | file text => SortedMap.empty.insert LockShardId.flat text
  | directory tree => tree.files

/-- The shape of a lock, nothing for an empty directory. -/
def onDiskShapeAt (first : FirstFile) : LockTree → Option OnDiskShape
  | missing => none
  | file _ => some LockShardLevels.FLAT
  | directory tree => (first.find tree.files).map LockShardId.levels

/-! ## Loading -/

variable (kernel : Kernel) (blake3 : ContentHash)

/-- An arbitrary lock-format file, empty when it does not exist. -/
def loadFile : LockTree → Outcome PersistenceError Lock
  | missing => .ok ⟨[]⟩
  | file text => do
    let text ← (readToString (LockShardId.flat, text)).mapErr PersistenceError.lock
    (Lock.parse kernel text).mapErr fun error => .lock (.corruptShard LockShardId.flat error)
  | directory _ => Outcome.fail (.io (ascii "reading"))

/-- Every shard file of a directory. -/
def loadDirectory : LockTree → Outcome PersistenceError Lock
  | directory tree => (loadSharded kernel blake3 tree.files).mapErr PersistenceError.lock
  | _ => Outcome.fail (.io (ascii "reading"))

/-- A lock of a known shape. -/
def loadShapeAt (shape : OnDiskShape) (tree : LockTree) : Outcome PersistenceError Lock :=
  if shape.isFlat then tree.loadFile kernel else tree.loadDirectory kernel blake3

/-- A lock in the shape that is there. -/
def loadTree (tree : LockTree) : Outcome PersistenceError Lock :=
  match tree with
  | directory _ => tree.loadDirectory kernel blake3
  | _ => tree.loadFile kernel

end LockTree

/-! ## Saving -/

/-- Rows in the given order under the version line. -/
def renderOrderedEntries {ε : Type} (entries : List Entry) : Outcome ε Str := do
  let lines ← entries.mapM Lock.entryLine
  pure (VERSION ++ [Byte.lineFeed] ++ lines.flatten)

/-- Whether entries are in path order already. -/
def entriesOrdered (entries : List Entry) : Bool := entries.Pairwise fun left right => left.path ≤ right.path

/-- Rows in path order; ordered input is not sorted again. -/
def renderEntries {ε : Type} (entries : List Entry) : Outcome ε Str :=
  if entriesOrdered entries then renderOrderedEntries entries else renderOrderedEntries (Lock.sortedEntries entries)

/-- Replace a flat file; a directory in its place cannot be replaced. -/
def saveFileAtomic (lock : Lock) (tree : LockTree) : Outcome PersistenceError LockTree := do
  let rendered ← renderEntries lock.entries
  match tree with
  | .directory _ => Outcome.fail (.io (ascii "publishing"))
  | _ => pure (.file rendered)

/-- `buckets.entry(shard).or_default().push(entry)`. -/
def pushRow (buckets : SortedMap LockShardId (List Entry)) (row : LockShardId × Entry) : SortedMap LockShardId (List Entry) :=
  buckets.alter row.1 fun held => some (held.getD [] ++ [row.2])

/-- Fan entries out into the shards that their paths hash to, each bucket in path order. -/
def prepareShardedBuckets (blake3 : ContentHash) (lock : Lock) (levels : LockShardLevels) : SortedMap LockShardId (List Entry) :=
  let buckets := (lock.entries.map fun entry => (LockShardId.forPath blake3 entry.path levels, entry)).foldl pushRow .empty
  if entriesOrdered lock.entries then buckets else buckets.mapValues fun _ entries => Lock.sortedEntries entries

/-- Write one bucket. The flat identity has no file inside the directory. -/
def writeBucket (tree : ShardTree) (bucket : LockShardId × List Entry) : Outcome PersistenceError ShardTree :=
  if nested : bucket.1.isFlat = false then do
    let rendered ← renderOrderedEntries bucket.2
    pure (tree.write bucket.1 nested rendered)
  else Outcome.panic

/-- The directory that a sharded save writes into; a flat file in the way is removed first. -/
def LockTree.createDirectory : LockTree → ShardTree
  | .directory tree => tree
  | _ => .empty

/-- Write entries into a shard directory, then remove the files that are not part of the save. -/
def saveSharded (blake3 : ContentHash) (lock : Lock) (tree : LockTree) (levels : LockShardLevels) :
    Outcome PersistenceError LockTree := do
  let buckets := prepareShardedBuckets blake3 lock levels
  let written ← buckets.entries.foldlM writeBucket tree.createDirectory
  pure (.directory (written.removeStale (buckets.entries.map Prod.fst)))

/-- Keep the shape that is on disk. -/
def saveForShape (blake3 : ContentHash) (lock : Lock) (tree : LockTree) (shape : OnDiskShape) : Outcome PersistenceError LockTree :=
  if shape.isFlat then saveFileAtomic lock tree else saveSharded blake3 lock tree shape

/-- Write the shape that the depth asks for, replacing a directory by a file where needed. -/
def save (blake3 : ContentHash) (lock : Lock) (tree : LockTree) (levels : LockShardLevels) : Outcome PersistenceError LockTree :=
  if levels.isFlat then
    match tree with
    | .directory _ => saveFileAtomic lock .missing
    | _ => saveFileAtomic lock tree
  else saveSharded blake3 lock tree levels

end Gat
