import Gat.Proofs.DesiredRefresh
import Gat.Proofs.LockMirror

/-! # A refresh mirrors the live lock

Only changed shards are read again, but together with the recorded rows of the others they are checked as one lock.
A refresh therefore succeeds exactly when the live files are a valid lock, and then leaves its rows.
-/

namespace Gat

open AncestorFree LockFormat

variable {kernel : Kernel} {blake3 : ContentHash} {stats : ShardStats} {component : ShardComponent} {store : DesiredStore}
  {root : LockRoot} {before : ShardFiles} {oldLevels levels : LockShardLevels} {old found : LockShardId → List Entry}

/-- The catalog and the desired rows are those of a valid lock. -/
structure DesiredMirror (blake3 : ContentHash) (store : DesiredStore) (files : ShardFiles) (levels : LockShardLevels)
    (rows : LockShardId → List Entry) : Prop where
  stores : files.Stores blake3 levels rows
  catalog : ∀ shard, (store.catalog.shards.get? shard).map StoredShard.identity = (files.get? shard).map blake3
  rows : ∀ shard, store.table.shardRows shard = rows shard

/-- A shard whose identity is found unchanged has the content it had. -/
def IdentityDecides (blake3 : ContentHash) (stats : ShardStats) (store : DesiredStore) (before after : ShardFiles) : Prop :=
  ∀ shard text, after.get? shard = some text → identityUnchanged blake3 stats store.catalog.shards (shard, text) = true →
    before.get? shard = some text

/-- The rules of a lock as a whole, for files with some rows each. -/
structure LockRules (blake3 : ContentHash) (files : ShardFiles) (rows : LockShardId → List Entry) : Prop where
  uniform : ∀ file ∈ files.entries, ∀ other ∈ files.entries, file.1.levels = other.1.levels
  placed : ∀ file ∈ files.entries, ∀ entry ∈ rows file.1, LockShardId.forPath blake3 entry.path file.1.levels = file.1
  ownedOnce : ∀ file ∈ files.entries, ∀ other ∈ files.entries, ∀ entry ∈ rows file.1, ∀ entry' ∈ rows other.1,
    entry.path = entry'.path → file.1 = other.1
  separated : Separated Byte.slash (files.allPaths rows)

/-- What the store holds after an attempt to refresh: a failed one writes nothing. -/
def DesiredStore.afterRefresh (store : DesiredStore) : Outcome PersistenceError (DesiredStore × DesiredRefresh) → DesiredStore
  | .ok refreshed => refreshed.1
  | .error _ => store

/-! ## What the refresh compares -/

/-- Rows for the live files: the recorded ones where the content is the same, and the parsed ones elsewhere. -/
private structure Reading (blake3 : ContentHash) (stats : ShardStats) (store : DesiredStore) (root : LockRoot)
    (levels : LockShardLevels) (old found : LockShardId → List Entry) : Prop where
  uniform : ∀ file ∈ root.live.shardFiles.entries, file.1.levels = levels
  unchanged : ∀ file ∈ root.live.shardFiles.entries, identityUnchanged blake3 stats store.catalog.shards file = true →
    found file.1 = old file.1
  changed : ∀ file ∈ root.live.shardFiles.entries, identityUnchanged blake3 stats store.catalog.shards file = false →
    FileHolds file.2 (found file.1)
  absent : ∀ shard, root.live.shardFiles.get? shard = none → found shard = []

private theorem mem_changedPaths {path : GatPath} :
    path ∈ changedPaths (liveChanges blake3 stats store root found) ↔ ∃ file ∈ root.live.shardFiles.entries,
      identityUnchanged blake3 stats store.catalog.shards file = false ∧ ∃ entry ∈ found file.1, entry.path = path := by
  unfold changedPaths
  rw [List.mem_flatMap]
  constructor
  · rintro ⟨shard, member, inside⟩
    obtain ⟨file, listed, changed, rfl⟩ := mem_liveChanges.mp member
    exact ⟨file, listed, changed, List.mem_map.mp inside⟩
  · rintro ⟨file, listed, changed, inside⟩
    exact ⟨_, mem_liveChanges.mpr ⟨file, listed, changed, rfl⟩, List.mem_map.mpr inside⟩

section Mirrored

variable (mirror : DesiredMirror blake3 store before oldLevels old)
  (decides : IdentityDecides blake3 stats store before root.live.shardFiles)
  (reading : Reading blake3 stats store root levels old found)

include mirror reading in
/-- The recorded rows outside the replaced shards are the rows of the files with unchanged content. -/
private theorem kept_iff (path : GatPath) (oid : Oid) (shard : LockShardId) :
    (store.table.desiredAt path = some (oid, shard) ∧
        shard ∉ replacedShards (liveChanges blake3 stats store root found) (goneShards store root)) ↔
      ⟨path, oid⟩ ∈ found shard ∧ ∃ text, root.live.shardFiles.get? shard = some text ∧
        identityUnchanged blake3 stats store.catalog.shards (shard, text) = true := by
  have recorded : store.table.desiredAt path = some (oid, shard) ↔ ⟨path, oid⟩ ∈ old shard := by
    rw [← mirror.rows shard, StateTable.mem_shardRows]
  rw [recorded, replacedShards, Finset.mem_union, List.mem_toFinset, List.mem_toFinset, not_or]
  constructor
  · rintro ⟨member, notChanged, notGone⟩
    have inBefore : before.get? shard ≠ none := fun missing => by
      rw [mirror.stores.holds.absent shard missing] at member
      cases member
    obtain ⟨stored, isStored⟩ : ∃ stored, store.catalog.shards.get? shard = some stored := by
      have catalog := mirror.catalog shard
      cases isStored : store.catalog.shards.get? shard with
      | some stored => exact ⟨stored, rfl⟩
      | none =>
        rw [isStored, Option.map_none, eq_comm, Option.map_eq_none_iff] at catalog
        exact absurd catalog inBefore
    have current : shard ∈ root.live.shardFiles.entries.map Prod.fst := by
      by_contra missing
      refine notGone (List.mem_map.mpr ⟨⟨shard, stored.identity⟩, ShardCatalog.mem_removedShards.mpr ⟨?_, missing⟩, rfl⟩)
      rw [isStored]
      rfl
    obtain ⟨file, listed, rfl⟩ := List.mem_map.mp current
    cases unchanged : identityUnchanged blake3 stats store.catalog.shards file with
    | true => exact ⟨(reading.unchanged file listed unchanged).symm ▸ member, file.2, SortedMap.get?_of_mem listed, unchanged⟩
    | false => exact absurd (List.mem_map.mpr ⟨_, mem_liveChanges.mpr ⟨file, listed, unchanged, rfl⟩, rfl⟩) notChanged
  · rintro ⟨member, text, live, unchanged⟩
    have listed := SortedMap.get?_eq_some_iff.mp live
    refine ⟨reading.unchanged _ listed unchanged ▸ member, fun inside => ?_, fun inside => ?_⟩
    · obtain ⟨change, isChange, same⟩ := List.mem_map.mp inside
      obtain ⟨file, other, changed, rfl⟩ := mem_liveChanges.mp isChange
      have text' := SortedMap.get?_of_mem other
      rw [show file.1 = shard from same, live] at text'
      rw [show file = (shard, text) from Prod.ext same (Option.some.inj text').symm, unchanged] at changed
      cases changed
    · obtain ⟨removed, isRemoved, same⟩ := List.mem_map.mp inside
      exact (ShardCatalog.mem_removedShards.mp isRemoved).2 (List.mem_map.mpr ⟨_, listed, same.symm⟩)

include mirror decides reading in
/-- The live files are documents for the rows of the reading. -/
private theorem reading_holds : root.live.shardFiles.Holds levels found := by
  refine ⟨reading.uniform, fun file listed => ?_, reading.absent⟩
  cases unchanged : identityUnchanged blake3 stats store.catalog.shards file with
  | false => exact reading.changed file listed unchanged
  | true =>
    rw [reading.unchanged file listed unchanged]
    have same := decides file.1 file.2 (SortedMap.get?_of_mem listed) unchanged
    exact mirror.stores.holds.document (file.1, file.2) (SortedMap.get?_eq_some_iff.mp same)

include mirror decides reading in
/-- The changes fit beside the recorded rows exactly when the live files are a valid lock. -/
private theorem fits_iff_stores :
    ChangesFit blake3 store (liveChanges blake3 stats store root found) (goneShards store root) ↔
      root.live.shardFiles.Stores blake3 levels found := by
  have remains (path : GatPath) :
      path ∈ store.table.remaining (replacedShards (liveChanges blake3 stats store root found) (goneShards store root)) ↔
        ∃ file ∈ root.live.shardFiles.entries, identityUnchanged blake3 stats store.catalog.shards file = true ∧
          ∃ entry ∈ found file.1, entry.path = path := by
    rw [StateTable.mem_remaining]
    constructor
    · rintro ⟨oid, shard, kept⟩
      obtain ⟨member, text, live, unchanged⟩ := (kept_iff mirror reading _ _ _).mp kept
      exact ⟨(shard, text), SortedMap.get?_eq_some_iff.mp live, unchanged, _, member, rfl⟩
    · rintro ⟨file, listed, unchanged, entry, member, rfl⟩
      exact ⟨entry.oid, file.1, (kept_iff mirror reading _ _ _).mpr ⟨member, file.2, SortedMap.get?_of_mem listed, unchanged⟩⟩
  constructor
  · intro fit
    refine ⟨reading_holds mirror decides reading, fun shard entry member => ?_, ?_⟩
    · cases live : root.live.shardFiles.get? shard with
      | none =>
        rw [reading.absent shard live] at member
        cases member
      | some text =>
        have listed := SortedMap.get?_eq_some_iff.mp live
        have depth := reading.uniform _ listed
        cases unchanged : identityUnchanged blake3 stats store.catalog.shards (shard, text) with
        | true =>
          rw [reading.unchanged _ listed unchanged] at member
          have place := mirror.stores.placed shard entry member
          have same : oldLevels = levels := by rw [← depth, ← place, LockShardId.levels_forPath]
          rwa [← same]
        | false =>
          rw [← depth]
          exact fit.placed _ (mem_liveChanges.mpr ⟨_, listed, unchanged, rfl⟩) entry member
    · rintro _ isFirst _ isSecond ancestry
      obtain ⟨first, inFirst, rfl⟩ := List.mem_map.mp isFirst
      obtain ⟨second, inSecond, rfl⟩ := List.mem_map.mp isSecond
      obtain ⟨file, listed, member⟩ := List.mem_flatMap.mp inFirst
      obtain ⟨other, otherListed, otherMember⟩ := List.mem_flatMap.mp inSecond
      cases unchanged : identityUnchanged blake3 stats store.catalog.shards file with
      | true =>
        have firstRemains := (remains first.path).mpr ⟨file, listed, unchanged, first, member, rfl⟩
        cases otherUnchanged : identityUnchanged blake3 stats store.catalog.shards other with
        | true =>
          rw [reading.unchanged file listed unchanged] at member
          rw [reading.unchanged other otherListed otherUnchanged] at otherMember
          refine mirror.stores.separated _ (List.mem_map_of_mem ?_) _ (List.mem_map_of_mem ?_) ancestry
          · exact mirror.stores.holds.mem_allRows_iff.mpr ⟨_, member⟩
          · exact mirror.stores.holds.mem_allRows_iff.mpr ⟨_, otherMember⟩
        | false =>
          have secondChanged := mem_changedPaths.mpr ⟨other, otherListed, otherUnchanged, second, otherMember, rfl⟩
          exact (fit.unrelated _ secondChanged _ firstRemains).2 ancestry
      | false =>
        have firstChanged := mem_changedPaths.mpr ⟨file, listed, unchanged, first, member, rfl⟩
        cases otherUnchanged : identityUnchanged blake3 stats store.catalog.shards other with
        | true =>
          have secondRemains := (remains second.path).mpr ⟨other, otherListed, otherUnchanged, second, otherMember, rfl⟩
          exact (fit.unrelated _ firstChanged _ secondRemains).1 ancestry
        | false =>
          have secondChanged := mem_changedPaths.mpr ⟨other, otherListed, otherUnchanged, second, otherMember, rfl⟩
          exact fit.separated _ (List.mem_map_of_mem firstChanged) _ (List.mem_map_of_mem secondChanged) ancestry
  · intro stores
    have listedPath {path : GatPath} {file : LockShardId × Str} (listed : file ∈ root.live.shardFiles.entries) {entry : Entry}
        (member : entry ∈ found file.1) (same : entry.path = path) : path.text ∈ root.live.shardFiles.allPaths found :=
      List.mem_map.mpr ⟨entry, List.mem_flatMap.mpr ⟨file, listed, member⟩, by rw [same]⟩
    refine ⟨fun shard member entry inside => ?_, stores.separated.subset fun text inside => ?_, fun path isChanged isRemaining => ?_,
      fun path isChanged other isRemaining => ?_⟩
    · obtain ⟨file, listed, changed, rfl⟩ := mem_liveChanges.mp member
      have place := stores.placed file.1 entry inside
      rwa [← reading.uniform file listed] at place
    · obtain ⟨path, isChanged, rfl⟩ := List.mem_map.mp inside
      obtain ⟨file, listed, -, entry, member, same⟩ := mem_changedPaths.mp isChanged
      exact listedPath listed member same
    · obtain ⟨file, listed, changed, entry, member, same⟩ := mem_changedPaths.mp isChanged
      obtain ⟨other, otherListed, unchanged, entry', member', same'⟩ := (remains path).mp isRemaining
      have first := stores.placed file.1 entry member
      have second := stores.placed other.1 entry' member'
      rw [same] at first
      rw [same', first] at second
      have text := SortedMap.get?_of_mem listed
      rw [second, SortedMap.get?_of_mem otherListed] at text
      rw [show file = other from Prod.ext second (Option.some.inj text).symm, unchanged] at changed
      cases changed
    · obtain ⟨file, listed, -, entry, member, same⟩ := mem_changedPaths.mp isChanged
      obtain ⟨file', listed', -, entry', member', same'⟩ := (remains other).mp isRemaining
      have first := listedPath listed member same
      have second := listedPath listed' member' same'
      exact ⟨stores.separated _ first _ second, stores.separated _ second _ first⟩

/-! ## What the refresh leaves -/

include mirror decides reading in
/-- Applying the changes of a valid live lock leaves its mirror. -/
private theorem mirror_applyShardRefresh (stores : root.live.shardFiles.Stores blake3 levels found)
    (updates : List (LockShardId × Option StatProof)) :
    DesiredMirror blake3 (store.applyShardRefresh component (liveChanges blake3 stats store root found) updates (goneShards store root))
      root.live.shardFiles levels found := by
  have changeOf {shard : ChangedShard} (member : shard ∈ liveChanges blake3 stats store root found) := mem_liveChanges.mp member
  have owned : OwnedOnce (liveChanges blake3 stats store root found) := by
    refine ⟨?_, fun shard member => ?_, fun shard member other otherMember path inside otherInside => ?_⟩
    · exact nodup_liveChanges found
    · obtain ⟨file, -, -, rfl⟩ := changeOf member
      exact (stores.holds.sorted file.1).uniquePaths
    · obtain ⟨file, -, -, rfl⟩ := changeOf member
      obtain ⟨file', -, -, rfl⟩ := changeOf otherMember
      obtain ⟨entry, isEntry, rfl⟩ := List.mem_map.mp inside
      obtain ⟨entry', isEntry', same⟩ := List.mem_map.mp otherInside
      have first := stores.placed file.1 entry isEntry
      have second := stores.placed file'.1 entry' isEntry'
      exact first.symm.trans (same ▸ second)
  refine ⟨stores, fun shard => ?_, fun shard => ?_⟩
  · -- the catalog: changed shards carry their digest, the others the one they had
    have apply : (store.applyShardRefresh component (liveChanges blake3 stats store root found) updates (goneShards store root)).catalog =
        store.catalog.applyShardCatalog component ((liveChanges blake3 stats store root found).map ChangedShard.toChangedShardMeta)
          updates (goneShards store root) := rfl
    have metaIds : ((liveChanges blake3 stats store root found).map ChangedShard.toChangedShardMeta).map ChangedShardMeta.shardId =
        (liveChanges blake3 stats store root found).map fun shard => shard.shardId := by
      rw [List.map_map]
      rfl
    rw [apply]
    by_cases isChange : shard ∈ (liveChanges blake3 stats store root found).map fun shard => shard.shardId
    · obtain ⟨change, member, rfl⟩ := List.mem_map.mp isChange
      obtain ⟨file, listed, -, rfl⟩ := changeOf member
      refine (ShardCatalog.identity_applyShardCatalog_of_mem (metaIds ▸ owned.ids) (List.mem_map_of_mem member) updates _).trans ?_
      change _ = (root.live.shardFiles.get? file.1).map blake3
      rw [SortedMap.get?_of_mem listed]
      rfl
    · rw [ShardCatalog.identity_applyShardCatalog_of_not_mem (metaIds ▸ isChange)]
      cases live : root.live.shardFiles.get? shard with
      | some text =>
        have listed := SortedMap.get?_eq_some_iff.mp live
        have unchanged : identityUnchanged blake3 stats store.catalog.shards (shard, text) = true := by
          by_contra changed
          exact isChange (List.mem_map.mpr ⟨_, mem_liveChanges.mpr ⟨_, listed, Bool.not_eq_true _ ▸ changed, rfl⟩, rfl⟩)
        rw [if_neg, mirror.catalog, decides shard text live unchanged]
        intro isGone
        obtain ⟨removed, isRemoved, same⟩ := List.mem_map.mp isGone
        exact (ShardCatalog.mem_removedShards.mp isRemoved).2 (List.mem_map.mpr ⟨_, listed, same.symm⟩)
      | none =>
        split_ifs with isGone
        · rfl
        cases isStored : store.catalog.shards.get? shard with
        | none => rfl
        | some stored =>
          refine absurd (List.mem_map.mpr ⟨⟨shard, stored.identity⟩, ShardCatalog.mem_removedShards.mpr ⟨?_, fun current => ?_⟩, rfl⟩) isGone
          · rw [isStored]
            rfl
          · obtain ⟨file, listed, rfl⟩ := List.mem_map.mp current
            rw [SortedMap.get?_of_mem listed] at live
            cases live
  · -- the rows: those of changed shards and those that were kept
    refine List.eq_of_key_lt Entry.path (StateTable.strictlySorted_shardRows _ shard) (stores.holds.sorted shard) fun entry => ?_
    rw [StateTable.mem_shardRows, desiredAt_applyShardRefresh store component owned]
    have kept := kept_iff mirror reading entry.path entry.oid shard
    rw [replacedShards, Finset.mem_union, List.mem_toFinset, List.mem_toFinset, not_or] at kept
    constructor
    · rintro (⟨change, member, rfl, inside⟩ | ⟨⟨recorded, notGone⟩, apart⟩)
      · obtain ⟨file, -, -, rfl⟩ := changeOf member
        exact inside
      · refine (kept.mp ⟨recorded, fun isChange => ?_, notGone⟩).1
        obtain ⟨change, member, same⟩ := List.mem_map.mp isChange
        exact (apart change member).1 same.symm
    · intro member
      cases live : root.live.shardFiles.get? shard with
      | none =>
        rw [reading.absent shard live] at member
        cases member
      | some text =>
        have listed := SortedMap.get?_eq_some_iff.mp live
        cases unchanged : identityUnchanged blake3 stats store.catalog.shards (shard, text) with
        | false => exact Or.inl ⟨_, mem_liveChanges.mpr ⟨_, listed, unchanged, rfl⟩, rfl, member⟩
        | true =>
          obtain ⟨recorded, notChanged, notGone⟩ := kept.mpr ⟨member, text, live, unchanged⟩
          refine Or.inr ⟨⟨recorded, notGone⟩, fun change isChange => ?_⟩
          have apart : shard ≠ change.shardId := fun same => notChanged (List.mem_map.mpr ⟨change, isChange, same.symm⟩)
          refine ⟨apart, fun inside => apart ?_⟩
          obtain ⟨file, -, -, rfl⟩ := changeOf isChange
          obtain ⟨entry', isEntry', same⟩ := List.mem_map.mp inside
          have first := stores.placed shard entry member
          have second := stores.placed file.1 entry' isEntry'
          exact first.symm.trans (same ▸ second)

end Mirrored

variable (kernel component) in
/-- A refresh of a mirror succeeds with the mirror of a valid live lock, or fails when it is none. -/
theorem refreshDesiredState_cases (mirror : DesiredMirror blake3 store before oldLevels old)
    (quiet : root.live = .missing → root.failIfPendingReshape = .ok ())
    (decides : IdentityDecides blake3 stats store before root.live.shardFiles) :
    (∃ next report rows, store.refreshDesiredState kernel blake3 stats component root = .ok (next, report) ∧
        DesiredMirror blake3 next root.live.shardFiles report.shardLevels rows ∧
        report.identity = next.catalog.desiredFingerprint ∧
        ∀ path, next.table.materializedAt path = store.table.materializedAt path) ∨
      (∃ error, store.refreshDesiredState kernel blake3 stats component root = Outcome.fail error) ∧
        ∀ levels rows, ¬root.live.shardFiles.Stores blake3 levels rows := by
  unfold DesiredStore.refreshDesiredState
  rcases observeShards_cases kernel blake3 stats store.catalog.shards quiet old with
    ⟨observations, levels, found, observed, named, uniform, isChange, unchanged, changed, absent⟩ | ⟨⟨error, failed⟩, bad⟩
  swap
  · rw [failed]
    refine Or.inr ⟨⟨error, rfl⟩, fun levels rows stores => ?_⟩
    rcases bad with mixed | ⟨file, listed, -, none⟩
    · exact mixed levels stores.holds.depth
    · exact none ⟨_, stores.holds.document file listed⟩
  rw [observed, Outcome.ok_bind]
  dsimp only
  rw [named, isChange]
  rcases shardTopology_cases (root.live.shardFiles.entries.map Prod.fst) with ⟨levels', accepted, uniform'⟩ | ⟨-, mixed⟩
  swap
  · refine absurd (fun id member => ?_) (mixed levels)
    obtain ⟨file, listed, rfl⟩ := List.mem_map.mp member
    exact uniform file listed
  have reading : Reading blake3 stats store root levels' old found :=
    ⟨fun file listed => uniform' file.1 (List.mem_map_of_mem listed), unchanged, changed, absent⟩
  have fits := fits_iff_stores mirror decides reading
  rw [accepted]
  change (∃ _ _ _, ((store.checkShardedLockInvariants blake3 (liveChanges blake3 stats store root found) (goneShards store root)).mapErr _ >>= _) = _ ∧ _) ∨
    (∃ _, ((store.checkShardedLockInvariants blake3 (liveChanges blake3 stats store root found) (goneShards store root)).mapErr _ >>= _) = _) ∧ _
  have depth : ∀ shard ∈ liveChanges blake3 stats store root found, shard.shardId.levels = levels' := by
    intro shard member
    obtain ⟨file, listed, -, rfl⟩ := mem_liveChanges.mp member
    exact reading.uniform file listed
  rcases checkShardedLockInvariants_cases store (goneShards store root) depth with ⟨passed, fit⟩ | ⟨⟨error, failed⟩, unfit⟩
  swap
  · rw [failed]
    refine Or.inr ⟨⟨_, rfl⟩, fun levels rows stores => unfit (fits.mpr ?_)⟩
    have holds := reading_holds mirror decides reading
    obtain rfl := holds.unique stores.holds
    exact ⟨holds, stores.holds.placed_of_holds holds stores.placed, stores.separated⟩
  rw [passed]
  refine Or.inl ⟨_, _, found, congrArg (fun refreshed : DesiredStore =>
    Except.ok (refreshed, (⟨refreshed.catalog.desiredFingerprint, levels'⟩ : DesiredRefresh)))
    (applyShardRefresh_or_store ..), ?_, rfl, ?_⟩
  · exact mirror_applyShardRefresh mirror decides reading (fits.mp fit) _
  · exact materializedAt_applyShardRefresh store component _ _ _

/-! ## The main result -/

variable (blake3) in
/-- Files that list rows are a valid lock exactly when the rules hold. -/
theorem lockRules_iff {files : ShardFiles} {rows : LockShardId → List Entry}
    (lists : ∀ file ∈ files.entries, FileLists file.2 (rows file.1)) :
    LockRules blake3 files rows ↔ ∃ levels valid, files.Stores blake3 levels valid := by
  constructor
  · intro rules
    obtain ⟨levels, uniform⟩ : ∃ levels, ∀ file ∈ files.entries, file.1.levels = levels := by
      cases listed : files.entries with
      | nil => exact ⟨LockShardLevels.FLAT, fun _ member => (nomatch member)⟩
      | cons first rest =>
        have isFirst : first ∈ files.entries := listed ▸ List.mem_cons_self
        exact ⟨first.1.levels, fun file member => rules.uniform file (listed ▸ member) first isFirst⟩
    refine ⟨levels, fun shard => if (files.get? shard).isSome then rows shard else [], ?_⟩
    have here {file : LockShardId × Str} (listed : file ∈ files.entries) : (files.get? file.1).isSome := by
      rw [SortedMap.get?_of_mem listed]
      rfl
    have all : files.allRows (fun shard => if (files.get? shard).isSome then rows shard else []) = files.allRows rows :=
      List.flatMap_congr fun file listed => if_pos (here listed)
    refine ⟨⟨uniform, fun file listed => ?_, fun shard missing => if_neg (by simp [missing])⟩, fun shard entry member => ?_, ?_⟩
    · rw [if_pos (here listed)]
      refine fileHolds_iff.mpr ⟨lists file listed, rules.separated.subset fun path inside => ?_⟩
      obtain ⟨entry, member, rfl⟩ := List.mem_map.mp inside
      exact List.mem_map_of_mem (List.mem_flatMap.mpr ⟨file, listed, member⟩)
    · split_ifs at member with isFile
      · obtain ⟨text, found⟩ := Option.isSome_iff_exists.mp isFile
        have listed := SortedMap.get?_eq_some_iff.mp found
        rw [← uniform _ listed]
        exact rules.placed _ listed entry member
      · cases member
    · rw [ShardFiles.allPaths, all]
      exact rules.separated
  · rintro ⟨levels, valid, stores⟩
    have same : ∀ file ∈ files.entries, rows file.1 = valid file.1 := fun file listed =>
      (lists file listed).unique (fileHolds_iff.mp (stores.holds.document file listed)).1
    have all : files.allRows rows = files.allRows valid := List.flatMap_congr same
    have placed : ∀ file ∈ files.entries, ∀ entry ∈ rows file.1, LockShardId.forPath blake3 entry.path levels = file.1 :=
      fun file listed entry member => stores.placed file.1 entry (same file listed ▸ member)
    refine ⟨fun file listed other otherListed => ?_, fun file listed entry member => ?_,
      fun file listed other otherListed entry member entry' member' path => ?_, ?_⟩
    · rw [stores.holds.depth file listed, stores.holds.depth other otherListed]
    · rw [stores.holds.depth file listed]
      exact placed file listed entry member
    · rw [← placed file listed entry member, path]
      exact placed other otherListed entry' member'
    · rw [ShardFiles.allPaths, all]
      exact stores.separated

/-- A refresh of a mirror of an earlier valid lock never panics. It fails exactly when the live lock breaks one of the
rules, and then nothing is written. Otherwise the desired halves are exactly the rows of the live shards, each with
its shard, the materialized halves stay, and the catalog and the report are those of the live lock. -/
theorem refresh_mirrors_live_lock (kernel : Kernel) (component : ShardComponent) (mirror : DesiredMirror blake3 store before oldLevels old)
    (quiet : root.live = .missing → root.failIfPendingReshape = .ok ())
    (decides : IdentityDecides blake3 stats store before root.live.shardFiles) {rows : LockShardId → List Entry}
    (lists : ∀ file ∈ root.live.shardFiles.entries, FileLists file.2 (rows file.1)) :
    ((∃ error, store.refreshDesiredState kernel blake3 stats component root = Outcome.fail error) ↔
        ¬LockRules blake3 root.live.shardFiles rows) ∧
      (¬LockRules blake3 root.live.shardFiles rows →
        store.afterRefresh (store.refreshDesiredState kernel blake3 stats component root) = store) ∧
      (LockRules blake3 root.live.shardFiles rows → ∃ next report,
        store.refreshDesiredState kernel blake3 stats component root = .ok (next, report) ∧
        (∀ path oid shard, next.table.desiredAt path = some (oid, shard) ↔
          (∃ text, root.live.shardFiles.get? shard = some text) ∧ ⟨path, oid⟩ ∈ rows shard) ∧
        (∀ path, next.table.materializedAt path = store.table.materializedAt path) ∧
        (∀ shard, (next.catalog.shards.get? shard).map StoredShard.identity = (root.live.shardFiles.get? shard).map blake3) ∧
        (∀ file ∈ root.live.shardFiles.entries, file.1.levels = report.shardLevels) ∧
        report.identity = next.catalog.desiredFingerprint) := by
  have rules := lockRules_iff blake3 lists
  rcases refreshDesiredState_cases kernel component mirror quiet decides with
    ⟨next, report, valid, done, mirrored, identity, materialized⟩ | ⟨⟨error, failed⟩, invalid⟩
  · have holds : LockRules blake3 root.live.shardFiles rows := rules.mpr ⟨_, _, mirrored.stores⟩
    refine ⟨iff_of_false ?_ (not_not_intro holds), fun broken => absurd holds broken, fun _ =>
      ⟨next, report, done, fun path oid shard => ?_, materialized, mirrored.catalog, mirrored.stores.holds.depth, identity⟩⟩
    · rintro ⟨error, failed⟩
      rw [done] at failed
      exact Outcome.fail_ne_ok _ _ failed.symm
    · have recorded : next.table.desiredAt path = some (oid, shard) ↔ ⟨path, oid⟩ ∈ valid shard := by
        rw [← mirrored.rows shard, StateTable.mem_shardRows]
      rw [recorded]
      cases live : root.live.shardFiles.get? shard with
      | none => simp [mirrored.stores.holds.absent shard live]
      | some text =>
        have listed := SortedMap.get?_eq_some_iff.mp live
        have same : rows shard = valid shard :=
          (lists _ listed).unique (fileHolds_iff.mp (mirrored.stores.holds.document _ listed)).1
        simp [same]
  · have broken : ¬LockRules blake3 root.live.shardFiles rows := fun holds =>
      let ⟨levels, valid, stores⟩ := rules.mp holds
      invalid levels valid stores
    exact ⟨iff_of_true ⟨error, failed⟩ broken, fun _ => by rw [failed]; rfl, fun holds => absurd holds broken⟩

/-! ## A refresh of three shards -/

namespace RefreshedShards

def earlierRows : List Entry := [⟨.a, .filled 1⟩, ⟨.b, .filled 1⟩, ⟨.control, .filled 1⟩, ⟨.c, .filled 1⟩]

/-- One object was materialized. -/
def materialized : StateTable := SortedMap.empty.insert .c ⟨none, some (.filled 1, none)⟩

def earlier : StateTable := materialized.upsertEntries .sample .oneLevel earlierRows

/-- The second of two paths in a shard is gone, the other has another object, and one shard is new in place of another. -/
def later : StateTable := StateTable.upsertEntries .empty .sample .oneLevel [⟨.a, .filled 1⟩, ⟨.b, .filled 2⟩, ⟨.d, .filled 1⟩]

def proof : StatProof := ⟨0, 0, 0⟩

def mirrored : DesiredStore := ⟨earlier, earlier.canonicalShards .sample proof, .empty⟩

theorem nested : ∀ file ∈ later.canonicalFiles.entries, file.1.isFlat = false := by decide +kernel

/-- The files of the rows after the change. -/
def changedRoot : LockRoot := ⟨.directory ⟨later.canonicalFiles, nested⟩, .empty⟩

/-- The file of the first shard still agrees with its proof. -/
def seen : ShardStats := ⟨fun shard _ => shard = .forPath .sample .a .oneLevel, fun _ => ⟨0, 1, 0⟩⟩

theorem placed_materialized : materialized.PlacedAt .sample .oneLevel := by
  intro path oid shard desired
  rw [StateTable.desiredAt, materialized, SortedMap.get?_insert] at desired
  split_ifs at desired <;> cases desired

theorem mirror : DesiredMirror .sample mirrored earlier.canonicalFiles .oneLevel earlier.shardRows where
  stores := earlier.rendered_canonicalFiles.stores (placed_materialized.upsertEntries earlierRows).placed
    (StateTable.strictlySorted_shardRows earlier) (by decide +kernel)
  catalog shard := by
    rw [mirrored, StateTable.get?_canonicalShards, Option.map_map]
    rfl
  rows _ := rfl

theorem decides : IdentityDecides .sample seen mirrored earlier.canonicalFiles changedRoot.live.shardFiles := by
  have each : ∀ file ∈ later.canonicalFiles.entries, identityUnchanged .sample seen mirrored.catalog.shards file = true →
      earlier.canonicalFiles.get? file.1 = some file.2 := by decide +kernel
  exact fun shard text found => each (shard, text) (SortedMap.get?_eq_some_iff.mp found)

theorem lists : ∀ file ∈ changedRoot.live.shardFiles.entries, FileLists file.2 (later.shardRows file.1) := by
  intro file member
  rw [(later.rendered_canonicalFiles.of_mem member).2]
  exact FileLists.render (StateTable.strictlySorted_shardRows ..)

theorem rules : LockRules .sample changedRoot.live.shardFiles later.shardRows :=
  (lockRules_iff .sample lists).mpr ⟨.oneLevel, later.shardRows, later.rendered_canonicalFiles.stores
    (StateTable.PlacedAt.empty.upsertEntries _).placed (StateTable.strictlySorted_shardRows later) (by decide +kernel)⟩

end RefreshedShards

open RefreshedShards in
/-- One shard is unchanged, one replaced, one new and one gone, and the desired halves become those of the files. -/
theorem refresh_mirrors_live_lock_shards :
    later.canonicalFiles.entries.map (identityUnchanged .sample seen mirrored.catalog.shards) = [true, false, false] ∧
      (mirrored.catalog.removedShards (later.canonicalFiles.entries.map Prod.fst)).map RemovedShard.shardId =
        [.forPath .sample .c .oneLevel] ∧
      ∃ next report, mirrored.refreshDesiredState Kernel.scalar .sample seen .sample changedRoot = .ok (next, report) ∧
        (∀ path, next.table.desiredAt path = later.desiredAt path) ∧
        next.table.materializedAt .c = some (.filled 1, none) ∧ report.shardLevels = .oneLevel := by
  refine ⟨by decide +kernel, by decide +kernel, ?_⟩
  obtain ⟨next, report, done, desired, kept, -, depth, -⟩ := (refresh_mirrors_live_lock Kernel.scalar .sample mirror
    (fun missing => LockTree.noConfusion missing) decides lists).2.2 rules
  refine ⟨next, report, done, fun path => Option.ext fun held => ?_, ?_, ?_⟩
  · obtain ⟨oid, shard⟩ := held
    rw [desired]
    constructor
    · rintro ⟨-, member⟩
      exact StateTable.mem_shardRows.mp member
    · intro isDesired
      have member : (⟨path, oid⟩ : Entry) ∈ later.shardRows shard := StateTable.mem_shardRows.mpr isDesired
      have found := later.rendered_canonicalFiles shard
      rw [if_neg (List.ne_nil_of_mem member)] at found
      exact ⟨⟨_, found⟩, member⟩
  · rw [kept]
    decide +kernel
  · have first : (LockShardId.forPath .sample .a .oneLevel, render [⟨.a, .filled 1⟩]) ∈ later.canonicalFiles.entries := by decide +kernel
    rw [← depth _ first]
    rfl

end Gat
