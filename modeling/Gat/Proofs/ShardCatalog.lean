import Gat.Model.ShardCatalog

/-! # The incrementally kept identity

XOR is commutative and associative and undoes itself, so that toggling the contribution of a catalog row out and
that of its replacement in keeps the identity of the whole catalog.
-/

namespace Gat

namespace CanonicalDesiredIdentity

theorem ext_get {left right : CanonicalDesiredIdentity} (same : ∀ i, left.bytes.get i = right.bytes.get i) : left = right := by
  cases left
  cases right
  exact congrArg mk (List.Vector.ext same)

theorem get_xor (left right : CanonicalDesiredIdentity) (i : Fin 32) :
    (left.xor right).bytes.get i = left.bytes.get i ^^^ right.bytes.get i := by
  rw [xor, List.Vector.get_map₂]

instance : Std.Commutative xor :=
  ⟨fun left right => ext_get fun i => by rw [get_xor, get_xor, UInt8.xor_comm]⟩

instance : Std.Associative xor :=
  ⟨fun left middle right => ext_get fun i => by simp only [get_xor, UInt8.xor_assoc]⟩

/-- Toggling twice changes nothing. -/
theorem toggleShard_toggleShard (component : ShardComponent) (total : CanonicalDesiredIdentity) (shard : LockShardId)
    (identity : ShardContentIdentity) :
    (total.toggleShard component shard identity).toggleShard component shard identity = total := by
  refine ext_get fun i => ?_
  rw [toggleShard, toggleShard, get_xor, get_xor, UInt8.xor_assoc, UInt8.xor_self, UInt8.xor_zero]

end CanonicalDesiredIdentity

variable {component : ShardComponent} {shards : SortedMap LockShardId StoredShard} {catalog : ShardCatalog}

/-! ## The identity from scratch -/

theorem desiredIdentityFromShards_eq_total (component : ShardComponent) (shards : SortedMap LockShardId StoredShard) :
    desiredIdentityFromShards component shards =
      shards.total CanonicalDesiredIdentity.xor (fun shard stored => ⟨component shard stored.identity⟩) .empty := rfl

/-- A catalog row contributes its component. -/
theorem desiredIdentityFromShards_of_get? {shard : LockShardId} {stored : StoredShard} (found : shards.get? shard = some stored) :
    desiredIdentityFromShards component shards =
      (desiredIdentityFromShards component (shards.erase shard)).toggleShard component shard stored.identity := by
  simp only [desiredIdentityFromShards_eq_total]
  exact SortedMap.total_of_get? _ _ _ found

variable (component) in
theorem desiredIdentityFromShards_insert (shards : SortedMap LockShardId StoredShard) (shard : LockShardId) (stored : StoredShard) :
    desiredIdentityFromShards component (shards.insert shard stored) =
      (desiredIdentityFromShards component (shards.erase shard)).toggleShard component shard stored.identity := by
  simp only [desiredIdentityFromShards_eq_total]
  exact SortedMap.total_insert ..

variable (component) in
/-- Taking the contribution of a row out leaves the other rows. -/
theorem togglePrior_eq {shard : LockShardId} {prior : Option ShardContentIdentity}
    (isPrior : (shards.get? shard).map StoredShard.identity = prior) :
    (desiredIdentityFromShards component shards).togglePrior component shard prior =
      desiredIdentityFromShards component (shards.erase shard) := by
  subst isPrior
  cases found : shards.get? shard with
  | none => rw [SortedMap.erase_of_get?_eq_none found]; rfl
  | some stored =>
    rw [Option.map_some, desiredIdentityFromShards_of_get? found]
    exact CanonicalDesiredIdentity.toggleShard_toggleShard ..

/-! ## Catalog changes -/

namespace ShardCatalog

/-- The fingerprint is the identity of the catalog from scratch. -/
def Consistent (component : ShardComponent) (catalog : ShardCatalog) : Prop :=
  catalog.desiredFingerprint = desiredIdentityFromShards component catalog.shards

theorem consistent_fresh : Consistent component fresh := rfl

variable (component) in
/-- Removals keep the identity when each names a row once with its identity. -/
theorem foldl_removeShard {removed : List RemovedShard} (distinct : (removed.map RemovedShard.shardId).Nodup)
    (priors : ∀ gone ∈ removed, (shards.get? gone.shardId).map StoredShard.identity = some gone.priorIdentity) :
    ∃ rest, removed.foldl (removeShard component) (shards, some (desiredIdentityFromShards component shards)) =
        (rest, some (desiredIdentityFromShards component rest)) ∧
      ∀ shard, rest.get? shard = if shard ∈ removed.map RemovedShard.shardId then none else shards.get? shard := by
  induction removed generalizing shards with
  | nil => exact ⟨shards, rfl, fun shard => by rw [List.map_nil, if_neg List.not_mem_nil]⟩
  | cons gone removed ih =>
    rw [List.map_cons, List.nodup_cons] at distinct
    have out := togglePrior_eq component (priors gone List.mem_cons_self)
    have later : ∀ other ∈ removed,
        ((shards.erase gone.shardId).get? other.shardId).map StoredShard.identity = some other.priorIdentity := by
      intro other member
      rw [SortedMap.get?_erase, if_neg fun same => distinct.1 (List.mem_map.mpr ⟨other, member, same.symm⟩)]
      exact priors other (List.mem_cons_of_mem _ member)
    obtain ⟨rest, folded, found⟩ := ih distinct.2 later
    refine ⟨rest, ?_, fun shard => ?_⟩
    · rw [List.foldl_cons, removeShard, Option.map_some]
      exact (congrArg (fun total => removed.foldl _ (_, some total)) out).trans folded
    · rw [found, SortedMap.get?_erase, List.map_cons]
      by_cases here : gone.shardId = shard
      · simp [here]
      · simp [here, Ne.symm here]

variable (component) in
/-- Upserts keep the identity when each names a shard once with its row before, if it had one. -/
theorem foldl_upsertShardIdentity {changed : List ChangedShardMeta} (distinct : (changed.map ChangedShardMeta.shardId).Nodup)
    (priors : ∀ shard ∈ changed, (shards.get? shard.shardId).map StoredShard.identity = shard.priorIdentity) :
    ∃ next, changed.foldl (upsertShardIdentity component) (shards, some (desiredIdentityFromShards component shards)) =
        (next, some (desiredIdentityFromShards component next)) ∧
      (∀ shard ∉ changed.map ChangedShardMeta.shardId, next.get? shard = shards.get? shard) ∧
      ∀ shard ∈ changed, next.get? shard.shardId = some ⟨shard.identity, shard.proof⟩ := by
  induction changed generalizing shards with
  | nil => exact ⟨shards, rfl, fun _ _ => rfl, fun _ member => absurd member List.not_mem_nil⟩
  | cons first changed ih =>
    rw [List.map_cons, List.nodup_cons] at distinct
    have out := togglePrior_eq component (priors first List.mem_cons_self)
    have rest : ∀ other ∈ changed, ((shards.insert first.shardId ⟨first.identity, first.proof⟩).get? other.shardId).map
        StoredShard.identity = other.priorIdentity := by
      intro other member
      rw [SortedMap.get?_insert, if_neg fun same => distinct.1 (List.mem_map.mpr ⟨other, member, same.symm⟩)]
      exact priors other (List.mem_cons_of_mem _ member)
    obtain ⟨next, folded, others, own⟩ := ih distinct.2 rest
    refine ⟨next, ?_, fun shard outside => ?_, fun shard member => ?_⟩
    · rw [List.foldl_cons, upsertShardIdentity, Option.map_some, out]
      have inserted := desiredIdentityFromShards_insert component shards first.shardId ⟨first.identity, first.proof⟩
      exact (congrArg (fun total => changed.foldl _ (_, some total)) inserted.symm).trans folded
    · rw [List.map_cons, List.mem_cons, not_or] at outside
      rw [others shard outside.2, SortedMap.get?_insert, if_neg (Ne.symm outside.1)]
    · rcases List.mem_cons.mp member with rfl | later
      · rw [others _ distinct.1, SortedMap.get?_insert, if_pos rfl]
      · exact own shard later

/-- Proofs do not contribute. -/
theorem desiredIdentityFromShards_foldl_refreshStat (updates : List (LockShardId × Option StatProof))
    (shards : SortedMap LockShardId StoredShard) :
    desiredIdentityFromShards component (updates.foldl refreshStat shards) = desiredIdentityFromShards component shards := by
  induction updates generalizing shards with
  | nil => rfl
  | cons update updates ih =>
    rw [List.foldl_cons, ih]
    simp only [desiredIdentityFromShards_eq_total, refreshStat]
    exact SortedMap.total_alter_map _ _ _ fun _ => rfl

/-- A change that names each shard once, with its row before, keeps the fingerprint the identity of the catalog. -/
theorem applyShardCatalog_consistent (consistent : catalog.Consistent component) {changed : List ChangedShardMeta}
    {removed : List RemovedShard} (updates : List (LockShardId × Option StatProof))
    (distinct : (changed.map ChangedShardMeta.shardId ++ removed.map RemovedShard.shardId).Nodup)
    (changedPriors : ∀ shard ∈ changed, (catalog.shards.get? shard.shardId).map StoredShard.identity = shard.priorIdentity)
    (removedPriors : ∀ gone ∈ removed, (catalog.shards.get? gone.shardId).map StoredShard.identity = some gone.priorIdentity) :
    (catalog.applyShardCatalog component changed updates removed).Consistent component := by
  obtain ⟨changedOnce, removedOnce, apart⟩ := List.nodup_append.mp distinct
  unfold Consistent applyShardCatalog
  by_cases touches : (!changed.isEmpty || !removed.isEmpty) = true
  · dsimp only
    rw [if_pos touches, consistent]
    obtain ⟨rest, gone, found⟩ := foldl_removeShard component removedOnce removedPriors
    have restPriors : ∀ shard ∈ changed, (rest.get? shard.shardId).map StoredShard.identity = shard.priorIdentity := by
      intro shard member
      rw [found, if_neg fun both => apart _ (List.mem_map_of_mem member) _ both rfl]
      exact changedPriors shard member
    obtain ⟨next, folded, -, -⟩ := foldl_upsertShardIdentity component changedOnce restPriors
    rw [gone, folded]
    exact (desiredIdentityFromShards_foldl_refreshStat updates next).symm
  · obtain ⟨rfl, rfl⟩ : changed = [] ∧ removed = [] := by simpa using touches
    exact consistent.trans (desiredIdentityFromShards_foldl_refreshStat updates catalog.shards).symm

/-- A stat-only update leaves the fingerprint alone. -/
theorem applyShardCatalog_statOnly (updates : List (LockShardId × Option StatProof)) :
    (catalog.applyShardCatalog component [] updates []).desiredFingerprint = catalog.desiredFingerprint := rfl

theorem mem_removedShards {current : List LockShardId} {removed : RemovedShard} :
    removed ∈ catalog.removedShards current ↔
      (catalog.shards.get? removed.shardId).map StoredShard.identity = some removed.priorIdentity ∧ removed.shardId ∉ current := by
  rw [removedShards, List.mem_map, Option.map_eq_some_iff]
  constructor
  · rintro ⟨stored, kept, rfl⟩
    obtain ⟨member, gone⟩ := List.mem_filter.mp kept
    exact ⟨⟨stored.2, SortedMap.get?_of_mem member, rfl⟩, of_decide_eq_true gone⟩
  · rintro ⟨⟨stored, found, same⟩, gone⟩
    refine ⟨(removed.shardId, stored), List.mem_filter.mpr ⟨SortedMap.get?_eq_some_iff.mp found, decide_eq_true gone⟩, ?_⟩
    rw [same]

theorem nodup_removedShards (current : List LockShardId) : ((catalog.removedShards current).map RemovedShard.shardId).Nodup := by
  rw [removedShards, List.map_map]
  exact (List.pairwise_map.mpr (catalog.shards.sorted.imp fun below => below.ne)).sublist (List.filter_sublist.map _)

/-- The rows of the catalog after a change. -/
theorem shards_applyShardCatalog (changed : List ChangedShardMeta) (updates : List (LockShardId × Option StatProof))
    (removed : List RemovedShard) :
    (catalog.applyShardCatalog component changed updates removed).shards =
      updates.foldl refreshStat (changed.foldl (fun shards shard => shards.insert shard.shardId ⟨shard.identity, shard.proof⟩)
        (removed.foldl (fun shards gone => shards.erase gone.shardId) catalog.shards)) := by
  have first (start : SortedMap LockShardId StoredShard × Option CanonicalDesiredIdentity) :
      (removed.foldl (removeShard component) start).1 = removed.foldl (fun shards gone => shards.erase gone.shardId) start.1 :=
    (List.foldl_hom Prod.fst fun _ _ => rfl).symm
  have second (start : SortedMap LockShardId StoredShard × Option CanonicalDesiredIdentity) :
      (changed.foldl (upsertShardIdentity component) start).1 =
        changed.foldl (fun shards shard => shards.insert shard.shardId ⟨shard.identity, shard.proof⟩) start.1 :=
    (List.foldl_hom Prod.fst fun _ _ => rfl).symm
  unfold applyShardCatalog
  dsimp only
  rw [second, first]

theorem identity_foldl_refreshStat (updates : List (LockShardId × Option StatProof)) (shards : SortedMap LockShardId StoredShard)
    (shard : LockShardId) :
    ((updates.foldl refreshStat shards).get? shard).map StoredShard.identity = (shards.get? shard).map StoredShard.identity := by
  induction updates generalizing shards with
  | nil => rfl
  | cons update updates ih =>
    rw [List.foldl_cons, ih, refreshStat, SortedMap.get?_alter]
    split_ifs with here
    · rw [← here]
      cases shards.get? update.1 <;> rfl
    · rfl

/-- A changed shard is recorded with its new identity and proof. -/
theorem get?_applyShardCatalog_of_mem {changed : List ChangedShardMeta} (distinct : (changed.map ChangedShardMeta.shardId).Nodup)
    {shard : ChangedShardMeta} (member : shard ∈ changed) (removed : List RemovedShard) :
    (catalog.applyShardCatalog component changed [] removed).shards.get? shard.shardId = some ⟨shard.identity, shard.proof⟩ := by
  rw [shards_applyShardCatalog]
  exact SortedMap.get?_foldl_alter_of_mem ChangedShardMeta.shardId distinct _ member

/-- Every other shard keeps its row unless it is removed. -/
theorem get?_applyShardCatalog_of_not_mem {changed : List ChangedShardMeta} {shard : LockShardId}
    (outside : shard ∉ changed.map ChangedShardMeta.shardId) (removed : List RemovedShard) :
    (catalog.applyShardCatalog component changed [] removed).shards.get? shard =
      if shard ∈ removed.map RemovedShard.shardId then none else catalog.shards.get? shard := by
  rw [shards_applyShardCatalog]
  have kept (base : SortedMap LockShardId StoredShard) :
      (changed.foldl (fun (shards : SortedMap LockShardId StoredShard) shard =>
        shards.insert shard.shardId ⟨shard.identity, shard.proof⟩) base).get? shard = base.get? shard :=
    SortedMap.get?_foldl_alter_of_forall_ne ChangedShardMeta.shardId base fun other member same =>
      outside (List.mem_map.mpr ⟨other, member, same⟩)
  rw [List.foldl_nil, kept]
  generalize catalog.shards = shards
  induction removed generalizing shards with
  | nil => rfl
  | cons gone removed ih =>
    rw [List.foldl_cons, ih, SortedMap.get?_erase, List.map_cons]
    by_cases here : gone.shardId = shard
    · simp [here]
    · simp [here, Ne.symm here]

variable (component catalog) in
/-- Stat-only updates change no identity. -/
theorem identity_applyShardCatalog (changed : List ChangedShardMeta) (updates : List (LockShardId × Option StatProof))
    (removed : List RemovedShard) (shard : LockShardId) :
    ((catalog.applyShardCatalog component changed updates removed).shards.get? shard).map StoredShard.identity =
      ((catalog.applyShardCatalog component changed [] removed).shards.get? shard).map StoredShard.identity := by
  rw [shards_applyShardCatalog, shards_applyShardCatalog, identity_foldl_refreshStat, List.foldl_nil]

theorem identity_applyShardCatalog_of_mem {changed : List ChangedShardMeta} (distinct : (changed.map ChangedShardMeta.shardId).Nodup)
    {shard : ChangedShardMeta} (member : shard ∈ changed) (updates : List (LockShardId × Option StatProof)) (removed : List RemovedShard) :
    ((catalog.applyShardCatalog component changed updates removed).shards.get? shard.shardId).map StoredShard.identity =
      some shard.identity := by
  rw [identity_applyShardCatalog, get?_applyShardCatalog_of_mem distinct member]
  rfl

theorem identity_applyShardCatalog_of_not_mem {changed : List ChangedShardMeta} {shard : LockShardId}
    (outside : shard ∉ changed.map ChangedShardMeta.shardId) (updates : List (LockShardId × Option StatProof))
    (removed : List RemovedShard) :
    ((catalog.applyShardCatalog component changed updates removed).shards.get? shard).map StoredShard.identity =
      if shard ∈ removed.map RemovedShard.shardId then none else (catalog.shards.get? shard).map StoredShard.identity := by
  rw [identity_applyShardCatalog, get?_applyShardCatalog_of_not_mem outside]
  split_ifs <;> rfl

/-! ## Recording a sparse publication -/

section Recorded

variable {published : List ShardEvidence} {removed : List LockShardId} {touched : Finset LockShardId}

variable (catalog) in
theorem get?_shardIdentities {shard : LockShardId} (member : shard ∈ touched) :
    (catalog.shardIdentities touched).get? shard = catalog.shards.get? shard := by
  rw [shardIdentities, SortedMap.get?_filter]
  cases catalog.shards.get? shard with
  | none => rfl
  | some stored => simp [Option.filter, member]

variable (component catalog) in
/-- A published shard is recorded as its receipt says. -/
theorem get?_recordPublishedShards_of_mem (distinct : (published.map ShardEvidence.shardId).Nodup) {evidence : ShardEvidence}
    (member : evidence ∈ published) (removed : List LockShardId) (priors : SortedMap LockShardId StoredShard) :
    (catalog.recordPublishedShards component published removed priors).shards.get? evidence.shardId =
      some ⟨evidence.identity, some evidence.proof⟩ := by
  unfold recordPublishedShards
  dsimp only
  have changed := List.mem_map_of_mem (f := fun shard : ShardEvidence =>
    (⟨shard.shardId, (priors.get? shard.shardId).map StoredShard.identity, shard.identity, some shard.proof⟩ : ChangedShardMeta)) member
  refine get?_applyShardCatalog_of_mem ?_ changed _
  rw [List.map_map]
  exact distinct

variable (component catalog) in
/-- A shard that was not published has no row when it was removed, and otherwise the row it had. -/
theorem get?_recordPublishedShards_of_not_mem {shard : LockShardId} (outside : shard ∉ published.map ShardEvidence.shardId)
    (named : ∀ shard ∈ removed, shard ∈ touched) :
    (catalog.recordPublishedShards component published removed (catalog.shardIdentities touched)).shards.get? shard =
      if shard ∈ removed then none else catalog.shards.get? shard := by
  unfold recordPublishedShards
  dsimp only
  rw [get?_applyShardCatalog_of_not_mem (by rwa [List.map_map])]
  by_cases gone : shard ∈ removed
  · rw [if_pos gone]
    cases stored : catalog.shards.get? shard with
    | none => exact ite_self _
    | some row =>
      rw [if_pos]
      refine List.mem_map.mpr ⟨⟨shard, row.identity⟩, List.mem_filterMap.mpr ⟨shard, gone, ?_⟩, rfl⟩
      rw [get?_shardIdentities catalog (named shard gone), stored]
      rfl
  · rw [if_neg gone, if_neg]
    intro inside
    obtain ⟨row, isRow, rfl⟩ := List.mem_map.mp inside
    obtain ⟨other, listed, found⟩ := List.mem_filterMap.mp isRow
    obtain ⟨stored, -, rfl⟩ := Option.map_eq_some_iff.mp found
    exact gone listed

end Recorded

end ShardCatalog

end Gat
