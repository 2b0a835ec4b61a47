import Gat.Model.LockCodec
import Gat.Model.LockShard
import Gat.ToMathlib.MergeHeads
import Gat.ToMathlib.SortedMap

/-! # Shard files and their certification

A lock on disk is a set of shard files, the flat file being the only shard of depth zero. A complete load
checks that all files have one depth, certifies each file, and then merges their rows to check what no
single file can: a path in two shards, a row outside its shard, and a file above another across shards.
-/

namespace Gat

inductive LockError where
  | domain (error : LockDomainError)
  | corruptShard (shard : LockShardId) (source : LockDomainError)
  | mixedShardTopology (firstLevels secondLevels : ℕ)
  | notUtf8 (shard : LockShardId)
deriving DecidableEq

namespace Outcome

variable {ε ε' α : Type}

/-- `map_err`, which a panic passes through. -/
def mapErr (wrap : ε → ε') : Outcome ε α → Outcome ε' α
  | .ok value => .ok value
  | .error (.error value) => fail (wrap value)
  | .error .panic => panic

end Outcome

/-- The shard files of a lock with their contents. -/
abbrev ShardFiles := SortedMap LockShardId Str

/-- Every file must have the depth of the first. -/
def shardTopologyFrom (first : LockShardLevels) : List LockShardId → Outcome LockError LockShardLevels
  | [] => .ok first
  | id :: ids =>
    if first = id.levels then shardTopologyFrom first ids
    else Outcome.fail (.mixedShardTopology first.depth id.levels.depth)

/-- The one depth of a set of shard files; no files are flat. -/
def shardTopology : List LockShardId → Outcome LockError LockShardLevels
  | [] => .ok LockShardLevels.FLAT
  | id :: ids => shardTopologyFrom id.levels ids

/-- The rows of a shard with the first placement failure, kept until the cross-shard checks. -/
structure ResidentShard where
  view : ValidatedLockFile
  placementError : Option LockDomainError
deriving DecidableEq

/-- A row belongs to the shard that its path hashes to at the shard's depth. -/
def checkShardPlacement (blake3 : ContentHash) (shard : LockShardId) (levels : LockShardLevels) (path : Str) :
    Option LockDomainError :=
  let expected := LockShardId.forValidatedPath blake3 path levels
  if expected ≠ shard then some (.misplacedShardRow path shard.toCanonicalString expected.toCanonicalString)
  else none

/-- `read_to_string`, which rejects bytes that are not text. -/
def readToString (file : LockShardId × Str) : Outcome LockError Str :=
  if Utf8.Valid file.2 then .ok file.2 else Outcome.fail (.notUtf8 file.1)

def decodeResidentShard (kernel : Kernel) (blake3 : ContentHash) (file : LockShardId × Str) :
    Outcome LockError ResidentShard := do
  let text ← readToString file
  let view ← (ValidatedLockFile.decode kernel text).mapErr (.corruptShard file.1)
  let rows ← view.semanticRows
  let placementError :=
    if file.1.isFlat then none
    else rows.findSome? fun row => checkShardPlacement blake3 file.1 file.1.levels row.1.text
  pure ⟨view, placementError⟩

/-- The rows of all shards in path order, each with the index of its shard. -/
def residentRows (shards : List ResidentShard) : Outcome LockError (List ((GatPath × Oid) × ℕ)) := do
  let cursors ← shards.mapM fun shard => shard.view.semanticRows
  pure (List.mergeHeads Prod.fst cursors)

/-- The variables of the certification loop: the previous path, the stack of earlier paths, top first, and
the first ancestor pair. -/
structure Certifier where
  previous : Option Str
  stack : List Str
  prefixError : Option LockDomainError
deriving DecidableEq

/-- The loop body of the cross-shard certification. -/
def certifyRow (state : Certifier) (path : Str) : Outcome LockError Certifier :=
  match state.previous with
  | none => .ok ⟨some path, path :: state.stack, state.prefixError⟩
  | some previous =>
    if previous = path then Outcome.fail (.domain (.pathInMultipleShards path))
    else
      let lcp := List.lcpLength previous path
      let stack := state.stack.dropWhile fun earlier => lcp < earlier.length
      let prefixError :=
        match stack with
        | [] => state.prefixError
        | ancestor :: _ =>
          if path[ancestor.length]? = some Byte.slash ∧ state.prefixError = none then
            some (.directoryPrefixConflict ancestor path)
          else state.prefixError
      .ok ⟨some path, path :: stack, prefixError⟩

/-- Duplicates are reported at once, then the first misplaced row, then the first ancestor pair. -/
def certifyResidentShards (shards : List ResidentShard) : Outcome LockError Unit :=
  match shards with
  | [shard] =>
    match shard.placementError with
    | some error => Outcome.fail (.domain error)
    | none => .ok ()
  | shards => do
    let rows ← residentRows shards
    let state ← (rows.map fun row => row.1.1.text).foldlM certifyRow ⟨none, [], none⟩
    match shards.findSome? ResidentShard.placementError with
    | some error => Outcome.fail (.domain error)
    | none =>
      match state.prefixError with
      | some error => Outcome.fail (.domain error)
      | none => .ok ()

/-- Load every shard file, certify the whole and concatenate the rows in shard order. -/
def loadSharded (kernel : Kernel) (blake3 : ContentHash) (files : ShardFiles) : Outcome LockError Lock := do
  let _ ← shardTopology (files.entries.map Prod.fst)
  let shards ← files.entries.mapM (decodeResidentShard kernel blake3)
  certifyResidentShards shards
  let rows ← shards.mapM fun shard => shard.view.semanticRows
  pure ⟨rows.flatten.map fun row => ⟨row.1, row.2⟩⟩

/-! ## Visiting rows -/

/-- A binary search of the certified rows. -/
def ValidatedLockFile.find {ε : Type} (file : ValidatedLockFile) (path : Str) : Outcome ε (Option (GatPath × Oid)) := do
  let rows ← file.semanticRows
  return rows.find? fun row => row.1.text = path

/-- The row of the first shard that has the path. -/
def findResident (exact : GatPath) : List ResidentShard → Outcome LockError (Option (GatPath × Oid))
  | [] => .ok none
  | shard :: shards => do
    match ← shard.view.find exact.text with
    | some row => pure (some row)
    | none => findResident exact shards

/-- Certify the whole lock, then visit the kept rows; an exact path that is a row is visited alone. -/
def visitLockRowsValidated (kernel : Kernel) (blake3 : ContentHash) (files : ShardFiles) (exactPath : Option GatPath) (keep : Str → Bool) :
    Outcome LockError (List Entry) := do
  let _ ← shardTopology (files.entries.map Prod.fst)
  let shards ← files.entries.mapM (decodeResidentShard kernel blake3)
  certifyResidentShards shards
  let found ← match exactPath with
    | some exact => findResident exact shards
    | none => pure none
  match found with
  | some row => pure (if keep row.1.text then [⟨row.1, row.2⟩] else [])
  | none => do
    let rows ← residentRows shards
    pure ((rows.filter fun row => keep row.1.1.text).map fun row => ⟨row.1.1, row.1.2⟩)

end Gat
