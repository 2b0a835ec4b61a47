import Gat.Model.DesiredRefresh
import Gat.Model.Movement

/-! # Sparse publication

A mutation changes desired rows in a transaction and collects the shards whose rows may have changed, before and
after the change. Only those shards are rendered again from the rows after the mutation; a shard without rows
loses its file. A file that stat evidence or one read shows to be up to date is left as it is. A flat lock is one
shard, written whole. The catalog records what was published.
-/

namespace Gat

/-- The desired state: the mirror and the lock files. -/
structure DesiredState extends DesiredStore where
  tree : LockTree
deriving DecidableEq

/-- Stat evidence while shard files are published: also the proof that a write establishes. -/
structure PublishStats extends ShardStats where
  written : LockShardId → Str → StatProof

/-! ## Publishing one shard -/

section PublishShard

variable (stats : PublishStats) (tree : ShardTree) (shard : LockShardId) (nested : shard.isFlat = false) (rendered : Str)

/-- Replace a shard file, with the proof of the new one. -/
def writeAtomicWithProof : ShardTree × StatProof := (tree.write shard nested rendered, stats.written shard rendered)

/-- Replace a shard file unless one read shows that it has these bytes; a file of another size is not read. -/
def publishIfChanged : Outcome PersistenceError (ShardTree × StatProof) :=
  match tree.files.get? shard with
  | some text =>
    if text.length = rendered.length then
      if Utf8.Valid text then
        if text = rendered then .ok (tree, stats.observed shard)
        else .ok (writeAtomicWithProof stats tree shard nested rendered)
      else Outcome.fail (.io (ascii "reading"))
    else .ok (writeAtomicWithProof stats tree shard nested rendered)
  | none => .ok (writeAtomicWithProof stats tree shard nested rendered)

/-- Publish one shard. While the prior proof agrees with the file, its recorded identity decides; otherwise the file does. -/
def publishRenderedShard (identity : ShardContentIdentity) (prior : Option (ShardContentIdentity × StatProof)) :
    Outcome PersistenceError (ShardTree × ShardEvidence) :=
  match prior.filter fun prior => (tree.files.get? shard).isSome && stats.agrees shard prior.2 with
  | some (priorIdentity, priorProof) =>
    if priorIdentity = identity then .ok (tree, ⟨shard, identity, priorProof⟩)
    else
      let published := writeAtomicWithProof stats tree shard nested rendered
      .ok (published.1, ⟨shard, identity, published.2⟩)
  | none => do
    let published ← publishIfChanged stats tree shard nested rendered
    pure (published.1, ⟨shard, identity, published.2⟩)

end PublishShard

/-! ## Publishing touched shards -/

/-- The receipts of the published shards and the shards that were removed. -/
abbrev SparseShardPublish := List ShardEvidence × List LockShardId

/-- What a sparse save does to one shard file. -/
inductive ShardStep where
  | remove (shard : LockShardId)
  | publish (shard : LockShardId) (nested : shard.isFlat = false) (rendered : Str)
deriving DecidableEq

namespace ShardStep

def shard : ShardStep → LockShardId
  | remove shard => shard
  | publish shard _ _ => shard

def isRemove : ShardStep → Bool
  | remove _ => true
  | publish _ _ _ => false

variable (blake3 : ContentHash) (stats : PublishStats) (priors : LockShardId → Option (ShardContentIdentity × StatProof))

def run (state : ShardTree × SparseShardPublish) : ShardStep → Outcome PersistenceError (ShardTree × SparseShardPublish)
  | remove shard => .ok (state.1.remove shard, state.2.1, state.2.2 ++ [shard])
  | publish shard nested rendered => do
    let (tree, evidence) ← publishRenderedShard stats state.1 shard nested rendered (blake3 rendered) (priors shard)
    pure (tree, state.2.1 ++ [evidence], state.2.2)

end ShardStep

/-- The step of one touched shard; the flat identity has no file inside the directory. -/
def sparseStep (rows : SortedMap LockShardId (List Entry)) (shard : LockShardId) : Outcome PersistenceError ShardStep :=
  if nested : shard.isFlat = false then
    match rows.get? shard with
    | none => .ok (.remove shard)
    | some [] => .ok (.remove shard)
    | some entries => do
      let rendered ← renderEntries entries
      pure (.publish shard nested rendered)
  else Outcome.fail (.invalidShardId shard)

/-- The steps of a sparse save in order: removals while the shards are sorted out, then the publications. -/
def sparseSteps (touched : Finset LockShardId) (rows : SortedMap LockShardId (List Entry)) :
    Outcome PersistenceError (List ShardStep) := do
  let steps ← touched.sort.mapM (sparseStep rows)
  pure (steps.filter ShardStep.isRemove ++ steps.filter fun step => !step.isRemove)

section PublishTouched

variable (blake3 : ContentHash) (stats : PublishStats)

/-- Rewrite only the touched shard files of a sharded lock. -/
def saveSparseShards (tree : LockTree) (touched : Finset LockShardId) (rows : SortedMap LockShardId (List Entry))
    (priors : LockShardId → Option (ShardContentIdentity × StatProof)) : Outcome PersistenceError (LockTree × SparseShardPublish) :=
  match tree with
  | .file _ => Outcome.fail (.io (ascii "creating"))
  | tree => do
    let steps ← sparseSteps touched rows
    let saved ← steps.foldlM (ShardStep.run blake3 stats priors) (tree.createDirectory, [], [])
    pure (.directory saved.1, saved.2)

/-- Write the complete rows of a flat lock, whatever the file has; without rows there is no file. -/
def publishFlatShardStreaming (rows : List Entry) : Outcome PersistenceError (LockTree × SparseShardPublish) :=
  match rows with
  | [] => .ok (.missing, [], [LockShardId.flat])
  | rows => do
    let rendered ← renderOrderedEntries rows
    pure (.file rendered, [⟨LockShardId.flat, blake3 rendered, stats.written LockShardId.flat rendered⟩], [])

/-- The catalog rows that can spare a publication: those with a proof. -/
def sparsePublishPriors (priors : SortedMap LockShardId StoredShard) (shard : LockShardId) :
    Option (ShardContentIdentity × StatProof) := do
  let stored ← priors.get? shard
  let proof ← stored.proof
  pure (stored.identity, proof)

namespace DesiredState

variable (component : ShardComponent) (levels : LockShardLevels) (state : DesiredState)

/-- Keep the files of a publication and record its receipts against the catalog rows read before it. -/
def recordPublished (saved : LockTree × SparseShardPublish) (priors : SortedMap LockShardId StoredShard) : DesiredState :=
  ⟨⟨state.table, state.catalog.recordPublishedShards component saved.2.1 saved.2.2 priors⟩, saved.1⟩

/-- Publish all rows as the one flat shard. -/
def publishFlatStreaming : Outcome PersistenceError DesiredState := do
  let priors := state.catalog.shardIdentities {LockShardId.flat}
  let saved ← publishFlatShardStreaming blake3 stats state.table.desiredRows
  pure (state.recordPublished component saved priors)

/-- Publish the rows of the touched shards after a mutation. -/
def publishTouched (touched : Finset LockShardId) : Outcome PersistenceError DesiredState :=
  if touched = ∅ then .ok state
  else if levels.isFlat then state.publishFlatStreaming blake3 stats component
  else do
    let priors := state.catalog.shardIdentities touched
    let saved ← saveSparseShards blake3 stats state.tree touched (state.table.desiredRowsByShardIds touched) (sparsePublishPriors priors)
    pure (state.recordPublished component saved priors)

/-- Publish the touched shards in groups of at most a window, which must not be zero. -/
def publishTouchedWindows (touched : Finset LockShardId) (window : ℕ) : Outcome PersistenceError DesiredState :=
  if positive : 0 < window then
    (chunks ⟨window, positive⟩ touched.sort).foldlM
      (fun state group => state.publishTouched blake3 stats component levels group.toFinset) state
  else Outcome.panic

end DesiredState

end PublishTouched

/-! ## Mutations -/

/-- One removal: exact paths, or a path with everything below it. -/
inductive DesiredRemoval where
  | exact (paths : List GatPath)
  | subtree (path : GatPath)
deriving DecidableEq

/-- An entry prepared by an add, marked when its row is known to be unchanged. -/
structure PreparedMaterialization where
  entry : Entry
  unchangedDesired : Bool
deriving DecidableEq

variable (blake3 : ContentHash) (levels : LockShardLevels)

/-- Upsert entries and collect the shards of their paths before and after. -/
def upsertCollectShards (state : StateTable × Finset LockShardId) (entries : List Entry) : StateTable × Finset LockShardId :=
  (state.1.upsertEntries blake3 levels entries,
    state.2 ∪ state.1.desiredShardIdsForPaths (entries.map Entry.path) ∪
      (entries.map fun entry => LockShardId.forPath blake3 entry.path levels).toFinset)

/-- Apply one removal and collect the shards that held any of its rows. -/
def removeCollectShards (state : StateTable × Finset LockShardId) : DesiredRemoval → StateTable × Finset LockShardId
  | .exact paths => (state.1.clearDesiredExact paths, state.2 ∪ state.1.desiredShardIdsForPaths paths)
  | .subtree path => (state.1.clearDesiredPrefix path, state.2 ∪ state.1.desiredShardIdsForScope path)

/-- Upsert the entries of one window that differ from what is desired. -/
def prepareAddWindow (state : StateTable × Finset LockShardId) (window : List PreparedMaterialization) :
    StateTable × Finset LockShardId :=
  let batch := (window.filter fun prepared => !prepared.unchangedDesired).map PreparedMaterialization.entry
  let changed := batch.filter fun entry => (state.1.desiredAt entry.path).map Prod.fst ≠ some entry.oid
  if changed = [] then state else upsertCollectShards blake3 levels state changed

/-- Upsert one window of entries; a flat lock has only its one shard to collect. -/
def upsertWindow (state : StateTable × Finset LockShardId) (batch : List Entry) : StateTable × Finset LockShardId :=
  if batch = [] then state
  else if levels.isFlat then (state.1.upsertEntries blake3 levels batch, state.2 ∪ {LockShardId.flat})
  else upsertCollectShards blake3 levels state batch

/-- How many prepared materializations an add collects at a time. -/
def preparedWindow : ℕ+ := 4096

namespace DesiredState

variable (stats : PublishStats) (component : ShardComponent) (state : DesiredState)

/-- Commit the rows of a mutation and publish what it touched. -/
def publish (mutated : StateTable × Finset LockShardId) : Outcome PersistenceError DesiredState :=
  { state with table := mutated.1 }.publishTouched blake3 stats component levels mutated.2

/-- As `publish`, a window of shards at a time. -/
def publishWindows (mutated : StateTable × Finset LockShardId) (window : ℕ) : Outcome PersistenceError DesiredState :=
  { state with table := mutated.1 }.publishTouchedWindows blake3 stats component levels mutated.2 window

def upsertAndPublish (entries : List Entry) : Outcome PersistenceError DesiredState :=
  if entries = [] then .ok state
  else state.publish blake3 levels stats component (upsertCollectShards blake3 levels (state.table, ∅) entries)

def removeAndPublish (removals : List DesiredRemoval) : Outcome PersistenceError DesiredState :=
  state.publish blake3 levels stats component (removals.foldl removeCollectShards (state.table, ∅))

def publishPreparedAdd (prepared : List PreparedMaterialization) : Outcome PersistenceError DesiredState :=
  state.publish blake3 levels stats component ((chunks preparedWindow prepared).foldl (prepareAddWindow blake3 levels) (state.table, ∅))

/-- Remove a subtree and publish its shards a window at a time. -/
def publishDesiredPrefixRemoval (target : GatPath) (window : ℕ) : Outcome PersistenceError DesiredState :=
  state.publishWindows blake3 levels stats component
    (state.table.clearDesiredPrefix target, state.table.desiredShardIdsForScope target) window

/-- Apply windows of entries, then publish their shards in groups no larger than the largest window. -/
def publishDesiredUpsertWindows (windows : List (List Entry)) : Outcome PersistenceError DesiredState :=
  if (windows.map List.length).sum = 0 then .ok state
  else
    state.publishWindows blake3 levels stats component (windows.foldl (upsertWindow blake3 levels) (state.table, ∅))
      ((windows.map List.length).foldl max 0)

/-- Move the rows of a subtree and publish every shard that the move touched. -/
def publishMove (src dst : GatPath) : Outcome PersistenceError DesiredState :=
  state.publish blake3 levels stats component (moveRepositoryRows state.table blake3 src dst levels)

end DesiredState

/-- The mutations that publish sparsely. -/
inductive SparseMutation where
  | upsert (entries : List Entry)
  | remove (removals : List DesiredRemoval)
  | add (prepared : List PreparedMaterialization)
  | removeSubtree (target : GatPath) (window : ℕ+)
  | upsertWindows (windows : List (List Entry))
  | move (src dst : GatPath)

namespace DesiredState

variable (component : ShardComponent) (state : DesiredState)

/-- Run one mutation with the stat evidence that it finds and leaves. -/
def mutate (stats : PublishStats) : SparseMutation → Outcome PersistenceError DesiredState
  | .upsert entries => state.upsertAndPublish blake3 levels stats component entries
  | .remove removals => state.removeAndPublish blake3 levels stats component removals
  | .add prepared => state.publishPreparedAdd blake3 levels stats component prepared
  | .removeSubtree target window => state.publishDesiredPrefixRemoval blake3 levels stats component target window
  | .upsertWindows windows => state.publishDesiredUpsertWindows blake3 levels stats component windows
  | .move src dst => state.publishMove blake3 levels stats component src dst

/-- Run mutations one after another under one write guard. -/
def mutateAll (mutations : List (SparseMutation × PublishStats)) : Outcome PersistenceError DesiredState :=
  mutations.foldlM (fun state mutation => state.mutate blake3 levels component mutation.2 mutation.1) state

end DesiredState

end Gat
