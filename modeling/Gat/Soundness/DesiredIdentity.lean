import Gat.Proofs.DesiredRefresh
import Mathlib.Logic.Relation

/-! # The incrementally kept identity is the one from scratch

Every operation names each shard at most once and passes the identity that the catalog had for it, so that exactly
the contributions of replaced and removed rows are toggled out.
-/

namespace Gat

variable {component : ShardComponent} {store next : DesiredStore}

/-- One operation on the store. A refresh observes any live lock, and a failed one writes nothing. A publication
may have changed rows in any way before its receipts are recorded; a sparse one has read the catalog rows of the
shards it names. -/
inductive CatalogStep (component : ShardComponent) : DesiredStore → DesiredStore → Prop
  | refresh {store next : DesiredStore} (kernel : Kernel) (blake3 : ContentHash) (stats : ShardStats) (root : LockRoot)
      (report : DesiredRefresh) (done : store.refreshDesiredState kernel blake3 stats component root = .ok (next, report)) :
      CatalogStep component store next
  | sparse {store : DesiredStore} (table : StateTable) (touched : Finset LockShardId) (published : List ShardEvidence)
      (removed : List LockShardId) (once : (published.map ShardEvidence.shardId ++ removed).Nodup)
      (named : ∀ shard ∈ published.map ShardEvidence.shardId ++ removed, shard ∈ touched) :
      CatalogStep component store
        ⟨table, store.catalog.recordPublishedShards component published removed (store.catalog.shardIdentities touched)⟩
  | full {store : DesiredStore} (table : StateTable) (evidence : List (ShardEvidence × List Entry))
      (once : (evidence.map fun shard => shard.1.shardId).Nodup) :
      CatalogStep component store (DesiredStore.applyFullLockEvidence ⟨table, store.catalog⟩ component evidence)

/-- Changes that name each shard once with its catalog row keep the identity. -/
theorem applyShardRefresh_consistent (consistent : store.catalog.Consistent component) {changed : List ChangedShard}
    {removed : List RemovedShard} (updates : List (LockShardId × Option StatProof))
    (distinct : ((changed.map fun shard => shard.shardId) ++ removed.map RemovedShard.shardId).Nodup)
    (changedPriors : ∀ shard ∈ changed, (store.catalog.shards.get? shard.shardId).map StoredShard.identity = shard.priorIdentity)
    (removedPriors : ∀ gone ∈ removed, (store.catalog.shards.get? gone.shardId).map StoredShard.identity = some gone.priorIdentity) :
    (store.applyShardRefresh component changed updates removed).catalog.Consistent component := by
  refine ShardCatalog.applyShardCatalog_consistent consistent updates ?_ ?_ removedPriors
  · rw [List.map_map]
    exact distinct
  · intro shard member
    obtain ⟨change, isChange, rfl⟩ := List.mem_map.mp member
    exact changedPriors change isChange

/-- Shards that are current and shards that are gone are apart. -/
private theorem current_append_removed_nodup {current : List LockShardId} (distinct : current.Nodup) {changed : List LockShardId}
    (included : changed.Sublist current) (catalog : ShardCatalog) :
    (changed ++ (catalog.removedShards current).map RemovedShard.shardId).Nodup := by
  refine List.nodup_append.mpr ⟨distinct.sublist included, ShardCatalog.nodup_removedShards current, fun shard isChange other isGone same => ?_⟩
  obtain ⟨removed, isRemoved, rfl⟩ := List.mem_map.mp isGone
  exact (ShardCatalog.mem_removedShards.mp isRemoved).2 (same ▸ included.subset isChange)

/-- Only shards with a catalog row are recorded as removed. -/
private theorem removed_sublist (shards : List LockShardId) (priors : SortedMap LockShardId StoredShard) :
    ((shards.filterMap fun shard => (priors.get? shard).map fun stored => (⟨shard, stored.identity⟩ : RemovedShard)).map
      RemovedShard.shardId).Sublist shards := by
  induction shards with
  | nil => exact List.Sublist.refl _
  | cons shard shards ih =>
    rw [List.filterMap_cons]
    cases priors.get? shard with
    | none => exact ih.cons _
    | some stored => exact ih.cons_cons _

/-- One operation keeps the identity. -/
theorem CatalogStep.consistent (step : CatalogStep component store next) (consistent : store.catalog.Consistent component) :
    next.catalog.Consistent component := by
  cases step with
  | refresh kernel blake3 stats root report done =>
    obtain ⟨found, updates, rfl⟩ := refreshDesiredState_eq_ok done
    have files : (root.live.shardFiles.entries.map Prod.fst).Nodup :=
      List.pairwise_map.mpr (root.live.shardFiles.sorted.imp fun below => below.ne)
    refine applyShardRefresh_consistent consistent updates ?_ (fun shard member => ?_) fun gone member =>
      (ShardCatalog.mem_removedShards.mp member).1
    · refine current_append_removed_nodup files ?_ store.catalog
      rw [liveChanges, List.map_map]
      exact List.filter_sublist.map _
    · obtain ⟨file, -, -, rfl⟩ := mem_liveChanges.mp member
      rfl
  | sparse table touched published removed once named =>
    have prior {shard : LockShardId} (member : shard ∈ published.map ShardEvidence.shardId ++ removed) :
        (store.catalog.shardIdentities touched).get? shard = store.catalog.shards.get? shard :=
      ShardCatalog.get?_shardIdentities store.catalog (named shard member)
    unfold ShardCatalog.recordPublishedShards
    dsimp only
    refine ShardCatalog.applyShardCatalog_consistent consistent [] ?_ (fun shard member => ?_) fun gone member => ?_
    · rw [List.map_map]
      exact once.sublist ((List.Sublist.refl _).append (removed_sublist ..))
    · obtain ⟨evidence, isPublished, rfl⟩ := List.mem_map.mp member
      rw [prior (List.mem_append_left _ (List.mem_map_of_mem isPublished))]
    · obtain ⟨shard, isRemoved, found⟩ := List.mem_filterMap.mp member
      obtain ⟨stored, isStored, rfl⟩ := Option.map_eq_some_iff.mp found
      rw [← prior (List.mem_append_right _ isRemoved), isStored]
      rfl
  | full table evidence once =>
    unfold DesiredStore.applyFullLockEvidence
    dsimp only
    have same : (⟨table, store.catalog⟩ : DesiredStore).catalog.Consistent component := consistent
    refine applyShardRefresh_consistent same [] ?_ (fun shard member => ?_) fun gone member =>
      (ShardCatalog.mem_removedShards.mp member).1
    · rw [List.map_map]
      exact current_append_removed_nodup once (List.Sublist.refl _) store.catalog
    · obtain ⟨receipt, -, rfl⟩ := List.mem_map.mp member
      rfl

/-- In every state that operations reach from the empty catalog with the zero identity, the stored fingerprint is the
XOR of the components of exactly the cataloged shards, and a stat-only update leaves it as it is. -/
theorem desired_fingerprint_is_from_scratch (component : ShardComponent) {table : StateTable}
    (run : Relation.ReflTransGen (CatalogStep component) ⟨table, .fresh⟩ store) :
    store.catalog.desiredFingerprint = desiredIdentityFromShards component store.catalog.shards ∧
      ∀ updates, (store.catalog.applyShardCatalog component [] updates []).desiredFingerprint = store.catalog.desiredFingerprint := by
  refine ⟨?_, ShardCatalog.applyShardCatalog_statOnly⟩
  have kept : store.catalog.Consistent component := by
    induction run with
    | refl => exact ShardCatalog.consistent_fresh
    | tail _ step ih => exact step.consistent ih
  exact kept

/-! ## Two publications -/

namespace PublishedTwice

def shardA : LockShardId := .forPath .sample .a .oneLevel

def shardB : LockShardId := .forPath .sample .b .oneLevel

/-- A receipt of some content. -/
def receipt (shard : LockShardId) (content : UInt8) : ShardEvidence := ⟨shard, List.Vector.replicate 32 content, ⟨0, 0, 0⟩⟩

/-- The catalog after the publication of two shards. -/
def first : ShardCatalog :=
  ShardCatalog.fresh.recordPublishedShards .sample [receipt shardA 1, receipt shardB 2] [] (ShardCatalog.fresh.shardIdentities {shardA, shardB})

/-- One of them is removed and the other replaced. -/
def second : ShardCatalog :=
  first.recordPublishedShards .sample [receipt shardB 3] [shardA] (first.shardIdentities {shardA, shardB})

end PublishedTwice

open PublishedTwice in
/-- The contributions of the removed shard and of the replaced content are gone from the fingerprint. -/
theorem desired_fingerprint_is_from_scratch_twice :
    second.desiredFingerprint = desiredIdentityFromShards .sample second.shards ∧
      first.desiredFingerprint = ⟨List.Vector.replicate 32 (1 ^^^ 2)⟩ ∧ second.desiredFingerprint = ⟨List.Vector.replicate 32 3⟩ := by
  have published : CatalogStep .sample ⟨.empty, .fresh⟩ ⟨.empty, first⟩ :=
    .sparse .empty {shardA, shardB} [receipt shardA 1, receipt shardB 2] [] (by decide) (by decide)
  have replaced : CatalogStep .sample ⟨.empty, first⟩ ⟨.empty, second⟩ :=
    .sparse .empty {shardA, shardB} [receipt shardB 3] [shardA] (by decide) (by decide)
  have run := (Relation.ReflTransGen.single published).tail replaced
  exact ⟨(desired_fingerprint_is_from_scratch .sample run).1, by decide +kernel, by decide +kernel⟩

end Gat
