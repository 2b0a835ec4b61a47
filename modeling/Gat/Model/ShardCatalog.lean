import Gat.Model.StateStore
import Gat.ToMathlib.KeyedFold

/-! # The shard catalog

Beside the desired rows the state store keeps the content identity of every shard file, a proof by which it can be
trusted without reading the file, and one identity of the whole lock. The whole identity is a XOR of one component
for each shard, so that a change of a few shards toggles only their components. The component is a parameter.
-/

namespace Gat

/-- The BLAKE3 digest of the bytes of a shard file. -/
abbrev ShardContentIdentity := List.Vector UInt8 32

/-- The contribution of a shard to the identity of the whole lock. -/
abbrev ShardComponent := LockShardId → ShardContentIdentity → List.Vector UInt8 32

/-- A component for the examples: the identity itself. -/
def ShardComponent.sample : ShardComponent := fun _ identity => identity

structure CanonicalDesiredIdentity where
  bytes : List.Vector UInt8 32
deriving DecidableEq

namespace CanonicalDesiredIdentity

/-- The identity of no shards. -/
def empty : CanonicalDesiredIdentity := ⟨List.Vector.replicate 32 0⟩

def xor (left right : CanonicalDesiredIdentity) : CanonicalDesiredIdentity :=
  ⟨List.Vector.map₂ (· ^^^ ·) left.bytes right.bytes⟩

/-- Put the contribution of a shard in, or take it out again. -/
def toggleShard (component : ShardComponent) (total : CanonicalDesiredIdentity) (shard : LockShardId)
    (identity : ShardContentIdentity) : CanonicalDesiredIdentity :=
  total.xor ⟨component shard identity⟩

/-- Take the contribution of the row before out, if there was one. -/
def togglePrior (component : ShardComponent) (total : CanonicalDesiredIdentity) (shard : LockShardId) :
    Option ShardContentIdentity → CanonicalDesiredIdentity
  | some prior => total.toggleShard component shard prior
  | none => total

end CanonicalDesiredIdentity

/-- A row of `lock_shards`. -/
structure StoredShard where
  identity : ShardContentIdentity
  proof : Option StatProof
deriving DecidableEq

/-- The rows of `lock_shards` with the fingerprint kept beside them. -/
structure ShardCatalog where
  shards : SortedMap LockShardId StoredShard
  desiredFingerprint : CanonicalDesiredIdentity
deriving DecidableEq

/-- A shard whose content is new, with its identity before. -/
structure ChangedShardMeta where
  shardId : LockShardId
  priorIdentity : Option ShardContentIdentity
  identity : ShardContentIdentity
  proof : Option StatProof
deriving DecidableEq

/-- A shard that is gone, with its identity before. -/
structure RemovedShard where
  shardId : LockShardId
  priorIdentity : ShardContentIdentity
deriving DecidableEq

/-- The receipt of one published shard file. -/
structure ShardEvidence where
  shardId : LockShardId
  identity : ShardContentIdentity
  proof : StatProof
deriving DecidableEq

/-- The identity of some shards from scratch, in whatever order they are visited. -/
def desiredIdentityFromShards (component : ShardComponent) (shards : SortedMap LockShardId StoredShard) : CanonicalDesiredIdentity :=
  shards.entries.foldl (fun total stored => total.toggleShard component stored.1 stored.2.identity) .empty

namespace ShardCatalog

variable (component : ShardComponent) (catalog : ShardCatalog)

/-- The catalog of a new store. -/
def fresh : ShardCatalog := ⟨.empty, .empty⟩

/-- The catalog rows of some shards. -/
def shardIdentities (ids : Finset LockShardId) : SortedMap LockShardId StoredShard :=
  catalog.shards.filter fun stored => stored.1 ∈ ids

/-! ## Changes -/

/-- Delete the row of a shard that is gone. -/
def removeShard (state : SortedMap LockShardId StoredShard × Option CanonicalDesiredIdentity) (removed : RemovedShard) :
    SortedMap LockShardId StoredShard × Option CanonicalDesiredIdentity :=
  (state.1.erase removed.shardId, state.2.map fun total => total.toggleShard component removed.shardId removed.priorIdentity)

/-- Upsert the row of a changed shard, exchanging its contribution. -/
def upsertShardIdentity (state : SortedMap LockShardId StoredShard × Option CanonicalDesiredIdentity) (shard : ChangedShardMeta) :
    SortedMap LockShardId StoredShard × Option CanonicalDesiredIdentity :=
  (state.1.insert shard.shardId ⟨shard.identity, shard.proof⟩, state.2.map fun total =>
    (total.togglePrior component shard.shardId shard.priorIdentity).toggleShard component shard.shardId shard.identity)

/-- Replace the proof of a shard whose content is the same. -/
def refreshStat (shards : SortedMap LockShardId StoredShard) (update : LockShardId × Option StatProof) :
    SortedMap LockShardId StoredShard :=
  shards.alter update.1 fun stored => stored.map fun stored => { stored with proof := update.2 }

/-- Apply one refresh or publication; the fingerprint is only read when a shard changes or goes. -/
def applyShardCatalog (changedOrNew : List ChangedShardMeta) (statOnlyUpdates : List (LockShardId × Option StatProof))
    (removedShards : List RemovedShard) : ShardCatalog :=
  let touchesIdentity := !changedOrNew.isEmpty || !removedShards.isEmpty
  let start := (catalog.shards, if touchesIdentity then some catalog.desiredFingerprint else none)
  let (shards, identity) := changedOrNew.foldl (upsertShardIdentity component) (removedShards.foldl (removeShard component) start)
  ⟨statOnlyUpdates.foldl refreshStat shards, identity.getD catalog.desiredFingerprint⟩

/-- Record the receipts of a sparse publication against the rows read before it. -/
def recordPublishedShards (changedOrNew : List ShardEvidence) (removedShardIds : List LockShardId)
    (priorCatalog : SortedMap LockShardId StoredShard) : ShardCatalog :=
  let changed := changedOrNew.map fun shard =>
    ⟨shard.shardId, (priorCatalog.get? shard.shardId).map StoredShard.identity, shard.identity, some shard.proof⟩
  let removed := removedShardIds.filterMap fun shard =>
    (priorCatalog.get? shard).map fun stored => ⟨shard, stored.identity⟩
  catalog.applyShardCatalog component changed [] removed

/-- The rows of the catalog that are not among some shards. -/
def removedShards (current : List LockShardId) : List RemovedShard :=
  (catalog.shards.entries.filter fun stored => stored.1 ∉ current).map fun stored => ⟨stored.1, stored.2.identity⟩

end ShardCatalog

end Gat
