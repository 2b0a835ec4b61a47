import Gat.Model.Reshape
import Gat.Model.ShardCatalog

/-! # Refreshing the desired mirror

The live lock is observed shard by shard against the catalog. Only shards with new content are parsed; their rows
are checked against each other and against the rows of the shards that stay, and then one transaction replaces the
rows of changed shards, clears those of removed shards and updates the catalog.
-/

namespace Gat

/-- The desired mirror: the state table with the shard catalog. -/
structure DesiredStore where
  table : StateTable
  catalog : ShardCatalog
deriving DecidableEq

structure DesiredRefresh where
  identity : CanonicalDesiredIdentity
  shardLevels : LockShardLevels
deriving DecidableEq

/-! ## Observing the live shards -/

/-- Stat evidence of shard files: whether a recorded proof still agrees with the file, and the proof that a coherent
read establishes. -/
structure ShardStats where
  agrees : LockShardId → StatProof → Bool
  observed : LockShardId → StatProof

inductive ShardIdentityResolution where
  | statOnly (identity : ShardContentIdentity) (proof : StatProof)
  | coherent (identity : ShardContentIdentity) (proof : StatProof) (bytes : Str)
deriving DecidableEq

inductive ShardObservationChange where
  | unchanged
  | statOnly (proof : StatProof)
  | content (priorIdentity : Option ShardContentIdentity) (identity : ShardContentIdentity) (proof : StatProof)
      (entries : List Entry)
deriving DecidableEq

structure ShardObservation where
  shardId : LockShardId
  change : ShardObservationChange
deriving DecidableEq

/-- The files at the path of the lock, nothing when it is missing. -/
def LockTree.listShardFilesAt : LockTree → Outcome PersistenceError (Option (List (LockShardId × Str)))
  | missing => .ok none
  | file text => .ok (some [(LockShardId.flat, text)])
  | directory tree => do
    let _ ← (shardTopology (tree.files.entries.map Prod.fst)).mapErr PersistenceError.lock
    pure (some tree.files.entries)

/-- The files of the live lock; a missing one has none unless a reshape was interrupted. -/
def LockRoot.listShardFiles (root : LockRoot) : Outcome PersistenceError (List (LockShardId × Str)) := do
  match ← root.live.listShardFilesAt with
  | some files => pure files
  | none => do
    root.failIfPendingReshape
    let files ← root.live.listShardFilesAt
    pure (files.getD [])

variable (kernel : Kernel) (blake3 : ContentHash) (stats : ShardStats)

/-- The identity of a shard file: the recorded one while its proof agrees, otherwise the digest of its bytes. -/
def resolveShardIdentity (file : LockShardId × Str) (prior : Option StoredShard) : ShardIdentityResolution :=
  match prior with
  | some ⟨identity, some proof⟩ =>
    if stats.agrees file.1 proof then .statOnly identity proof
    else .coherent (blake3 file.2) (stats.observed file.1) file.2
  | _ => .coherent (blake3 file.2) (stats.observed file.1) file.2

def parseShardBytes (file : LockShardId × Str) : Outcome PersistenceError (List Entry) := do
  let text ← (readToString file).mapErr PersistenceError.lock
  let lock ← (Lock.parse kernel text).mapErr fun error => PersistenceError.lock (.corruptShard file.1 error)
  pure lock.entries

/-- What a shard file is against its catalog row. -/
def observeShard (priors : SortedMap LockShardId StoredShard) (file : LockShardId × Str) :
    Outcome PersistenceError ShardObservation := do
  let prior := priors.get? file.1
  let change ←
    match resolveShardIdentity blake3 stats file prior with
    | .statOnly identity proof =>
      if prior.map StoredShard.identity = some identity then pure ShardObservationChange.unchanged
      else pure (.statOnly proof)
    | .coherent identity proof _ =>
      if prior.map StoredShard.identity = some identity then pure (.statOnly proof)
      else do
        let entries ← parseShardBytes kernel file
        pure (.content (prior.map StoredShard.identity) identity proof entries)
  pure ⟨file.1, change⟩

def observeShards (root : LockRoot) (priors : SortedMap LockShardId StoredShard) : Outcome PersistenceError (List ShardObservation) := do
  let files ← root.listShardFiles
  files.mapM (observeShard kernel blake3 stats priors)

/-- A shard with new content and its rows. -/
structure ChangedShard extends ChangedShardMeta where
  entries : List Entry
deriving DecidableEq

namespace ShardObservation

variable (observation : ShardObservation)

def changed? : Option ChangedShard :=
  match observation.change with
  | .content priorIdentity identity proof entries => some ⟨⟨observation.shardId, priorIdentity, identity, some proof⟩, entries⟩
  | _ => none

def statOnly? : Option (LockShardId × Option StatProof) :=
  match observation.change with
  | .statOnly proof => some (observation.shardId, some proof)
  | _ => none

end ShardObservation

/-! ## Rows that stay -/

namespace StateTable

variable (table : StateTable)

/-- The desired paths with their shards in path order. -/
def desiredOwners : List (GatPath × LockShardId) :=
  table.entries.filterMap fun entry => entry.2.desired.map fun held => (entry.1, held.2)

/-- Paths that a shard outside the excluded ones owns, looked up a chunk at a time. -/
def findConflictingShardOwners (paths : List GatPath) (exclude : Finset LockShardId) : List (GatPath × LockShardId) :=
  (chunks lookupChunkSize paths).flatMap fun chunk =>
    table.desiredOwners.filter fun row => row.1 ∈ chunk ∧ row.2 ∉ exclude

end StateTable

/-- `path >= ancestor + "0"`, compared byte by byte. -/
def exceedsDirectoryUpperBound : Str → Str → Bool
  | [], _ => false
  | byte :: _, [] => 0x30 ≤ byte
  | byte :: path, other :: ancestor =>
    if byte < other then false
    else if other < byte then true
    else exceedsDirectoryUpperBound path ancestor

/-- The proper ancestors of a path, from the root on. -/
def pathAncestors (path : Str) : List Str :=
  (List.range path.length).filterMap fun i => if path[i]? = some Byte.slash then some (path.take i) else none

/-- Paths in order that later ones may be below, each marked when it is a changed one. -/
abbrev OpenPaths := List (GatPath × Bool)

/-- Close the paths that were passed, report an ancestor from the other side, and open the path. -/
def mergeWalkCheckAndOpen (opened : OpenPaths) (path : GatPath) (isChanged : Bool) : Except (GatPath × GatPath) OpenPaths :=
  let opened := opened.filter fun other => !exceedsDirectoryUpperBound path.text other.1.text
  match opened.find? fun other => other.2 ≠ isChanged ∧ isDirectoryPrefix other.1.text path.text with
  | some other => .error (other.1, path)
  | none => .ok (opened ++ [(path, isChanged)])

/-- The existing paths before a changed one. -/
def walkExisting (path : GatPath) : OpenPaths → List GatPath → Except (GatPath × GatPath) (OpenPaths × List GatPath)
  | opened, [] => .ok (opened, [])
  | opened, existing :: pending =>
    if existing.text < path.text then do
      let opened ← mergeWalkCheckAndOpen opened existing false
      walkExisting path opened pending
    else .ok (opened, existing :: pending)

/-- Every changed path after the existing ones before it. -/
def walkChanged : OpenPaths → List GatPath → List GatPath → Except (GatPath × GatPath) (OpenPaths × List GatPath)
  | opened, pending, [] => .ok (opened, pending)
  | opened, pending, path :: paths => do
    let (opened, pending) ← walkExisting path opened pending
    let opened ← mergeWalkCheckAndOpen opened path true
    walkChanged opened pending paths

/-- The existing paths that are still in the range of an open changed path. -/
def drainExisting : OpenPaths → List GatPath → Except (GatPath × GatPath) Unit
  | _, [] => .ok ()
  | opened, existing :: pending =>
    if opened.any fun other => other.2 && !exceedsDirectoryUpperBound existing.text other.1.text then do
      let opened ← mergeWalkCheckAndOpen opened existing false
      drainExisting opened pending
    else .ok ()

/-- Up to this many changed paths are looked up one by one. -/
def SPARSE_DIRECTORY_CONFLICT_PATHS : ℕ := 500

namespace StateTable

variable (table : StateTable)

/-- For every changed path, an existing path in its range; then an existing path among the ancestors of all. -/
def findDirectoryConflictSparse (sortedPaths : List GatPath) (exclude : Finset LockShardId) : Option (GatPath × GatPath) :=
  let descendant := sortedPaths.findSome? fun path =>
    (table.desiredOwners.find? fun row =>
      path.descendantRange.1 ≤ row.1.text ∧ row.1.text < path.descendantRange.2 ∧ row.2 ∉ exclude).map fun row => (path, row.1)
  match descendant with
  | some conflict => some conflict
  | none =>
    let ancestorToDescendant := (sortedPaths.flatMap fun path => (pathAncestors path.text).map fun ancestor => (ancestor, path)).foldl
      (fun (found : SortedMap Str GatPath) pair => found.alter pair.1 fun held => some (held.getD pair.2)) .empty
    (chunks lookupChunkSize (ancestorToDescendant.entries.map Prod.fst)).findSome? fun chunk =>
      table.desiredOwners.findSome? fun row =>
        if row.1.text ∈ chunk ∧ row.2 ∉ exclude then (ancestorToDescendant.get? row.1.text).map fun path => (row.1, path)
        else none

/-- One ordered walk over the existing and the changed paths. -/
def findDirectoryConflictBulk (sortedPaths : List GatPath) (exclude : Finset LockShardId) : Option (GatPath × GatPath) :=
  let existing := (table.desiredOwners.filter fun row => row.2 ∉ exclude).map Prod.fst
  let walk := do
    let (opened, pending) ← walkChanged [] existing sortedPaths
    drainExisting opened pending
  match walk with
  | .ok () => none
  | .error conflict => some conflict

/-- An ancestor pair between changed paths and the existing ones outside the excluded shards. -/
def findDirectoryConflict (paths : List GatPath) (exclude : Finset LockShardId) : Option (GatPath × GatPath) :=
  if paths = [] then none
  else
    let sortedPaths := paths.toFinset.sort
    if sortedPaths.length ≤ SPARSE_DIRECTORY_CONFLICT_PATHS then table.findDirectoryConflictSparse sortedPaths exclude
    else table.findDirectoryConflictBulk sortedPaths exclude

/-! ## Rows that are replaced -/

/-- The desired paths of one shard. -/
def desiredShardPaths (shard : LockShardId) : List GatPath := (table.shardRows shard).map Entry.path

/-- Clear every desired row of a shard. -/
def clearShardDesired (shard : LockShardId) : StateTable := table.clearDesiredExact (table.desiredShardPaths shard)

/-- Replace the desired rows of a shard: paths that are not in it any more are cleared, the others upserted. -/
def applyShardEntries (shard : LockShardId) (entries : List Entry) : StateTable :=
  let stale := (table.desiredShardPaths shard).filter fun path => path ∉ entries.map Entry.path
  entries.foldl (fun (table : StateTable) entry => table.alter entry.path fun row =>
    some ⟨some (entry.oid, shard), row.bind StateRow.materialized⟩) (table.clearDesiredExact stale)

end StateTable

/-! ## The refresh -/

/-- Every row of a changed shard lies in the shard that its path hashes to. -/
def checkPlacement (changedOrNew : List ChangedShard) : Outcome LockError Unit :=
  changedOrNew.forM fun shard => shard.entries.forM fun entry =>
    match checkShardPlacement blake3 shard.shardId shard.shardId.levels entry.path.text with
    | some error => Outcome.fail (.domain error)
    | none => .ok ()

/-- Record the shard of one changed row; a path has one shard. -/
def claimPath (owner : SortedMap GatPath LockShardId) (row : LockShardId × Entry) :
    Outcome LockError (SortedMap GatPath LockShardId) :=
  if (owner.get? row.2.path).any fun other => other ≠ row.1 then Outcome.fail (.domain (.pathInMultipleShards row.2.path.text))
  else .ok (owner.insert row.2.path row.1)

namespace DesiredStore

variable (store : DesiredStore)

/-- The changed paths must fit beside the rows outside the shards that are replaced. -/
def checkRemaining (allPaths : List GatPath) (exclude : Finset LockShardId) : Outcome LockError Unit :=
  if store.table.desiredOwners = [] then .ok ()
  else
    match store.table.findConflictingShardOwners allPaths exclude with
    | conflict :: _ => Outcome.fail (.domain (.pathInMultipleShards conflict.1.text))
    | [] =>
      match store.table.findDirectoryConflict allPaths exclude with
      | some conflict => Outcome.fail (.domain (.directoryPrefixConflict conflict.1.text conflict.2.text))
      | none => .ok ()

/-- The rows of changed shards must be placed, owned once and free of ancestor pairs, also with the rows that stay. -/
def checkShardedLockInvariants (changedOrNew : List ChangedShard) (removedIds : List RemovedShard) : Outcome LockError Unit :=
  if changedOrNew = [] then .ok ()
  else do
    checkPlacement blake3 changedOrNew
    let _ ← (changedOrNew.flatMap fun shard => shard.entries.map fun entry => (shard.shardId, entry)).foldlM claimPath .empty
    let allPaths := changedOrNew.flatMap fun shard => shard.entries.map Entry.path
    let _ ← (validatePathsIfOrdered (allPaths.toFinset.sort.map GatPath.text)).mapErr LockError.domain
    store.checkRemaining allPaths
      ((changedOrNew.map fun shard => shard.shardId).toFinset ∪ (removedIds.map RemovedShard.shardId).toFinset)

variable (component : ShardComponent)

/-- Replace the rows of changed shards, clear those of removed ones, and update the catalog. -/
def applyShardRefresh (changedOrNew : List ChangedShard) (statOnlyUpdates : List (LockShardId × Option StatProof))
    (removedShards : List RemovedShard) : DesiredStore :=
  let table := removedShards.foldl (fun (table : StateTable) removed => table.clearShardDesired removed.shardId) store.table
  let table := changedOrNew.foldl (fun (table : StateTable) shard => table.applyShardEntries shard.shardId shard.entries) table
  ⟨table, store.catalog.applyShardCatalog component (changedOrNew.map ChangedShard.toChangedShardMeta) statOnlyUpdates removedShards⟩

/-- Observe the live lock and bring the mirror up to it; nothing is written when the lock is not valid. -/
def refreshDesiredState (root : LockRoot) : Outcome PersistenceError (DesiredStore × DesiredRefresh) := do
  let observations ← observeShards kernel blake3 stats root store.catalog.shards
  let currentIds := observations.map ShardObservation.shardId
  let shardLevels ← (shardTopology currentIds).mapErr PersistenceError.lock
  let changedOrNew := observations.filterMap ShardObservation.changed?
  let statOnlyUpdates := observations.filterMap ShardObservation.statOnly?
  let removedIds := store.catalog.removedShards currentIds
  (store.checkShardedLockInvariants blake3 changedOrNew removedIds).mapErr PersistenceError.lock
  let refreshed :=
    if changedOrNew = [] ∧ statOnlyUpdates = [] ∧ removedIds = [] then store
    else store.applyShardRefresh component changedOrNew statOnlyUpdates removedIds
  pure (refreshed, ⟨refreshed.catalog.desiredFingerprint, shardLevels⟩)

/-- Bring the mirror up to a complete publication, shard by shard from its receipts and rows. -/
def applyFullLockEvidence (evidence : List (ShardEvidence × List Entry)) : DesiredStore :=
  let changedOrNew := evidence.map fun shard =>
    ⟨⟨shard.1.shardId, (store.catalog.shards.get? shard.1.shardId).map StoredShard.identity, shard.1.identity, some shard.1.proof⟩,
      shard.2⟩
  store.applyShardRefresh component changedOrNew [] (store.catalog.removedShards (evidence.map fun shard => shard.1.shardId))

end DesiredStore

end Gat
