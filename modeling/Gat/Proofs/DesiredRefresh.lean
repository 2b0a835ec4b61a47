import Gat.Proofs.DirectoryConflict
import Gat.Proofs.LockTree
import Gat.Proofs.ShardCatalog
import Gat.Proofs.StateStore

/-! # Steps of a refresh

Replacing the rows of shards is described at one path, the observation of the live files as one list, and the
invariant check by what it accepts. Each step either succeeds with a described result or fails with an error.
-/

namespace Gat

open AncestorFree LockFormat

/-! ## Replacing the rows of shards -/

namespace StateTable

variable {table : StateTable} {path : GatPath} {oid : Oid} {shard owner : LockShardId} {entries : List Entry}

theorem mem_desiredShardPaths : path ∈ table.desiredShardPaths shard ↔ ∃ oid, table.desiredAt path = some (oid, shard) := by
  rw [desiredShardPaths, List.mem_map]
  constructor
  · rintro ⟨entry, member, rfl⟩
    exact ⟨entry.oid, mem_shardRows.mp member⟩
  · rintro ⟨oid, found⟩
    exact ⟨⟨path, oid⟩, mem_shardRows.mpr found, rfl⟩

/-- Clearing a shard leaves the rows of the others. -/
theorem desiredAt_clearShardDesired :
    (table.clearShardDesired shard).desiredAt path = some (oid, owner) ↔ table.desiredAt path = some (oid, owner) ∧ owner ≠ shard := by
  rw [clearShardDesired, desiredAt_clearDesiredExact]
  split_ifs with cleared
  · obtain ⟨other, found⟩ := mem_desiredShardPaths.mp cleared
    refine iff_of_false nofun fun both => both.2 ?_
    rw [found] at both
    exact (congrArg Prod.snd (Option.some.inj both.1)).symm
  · refine ⟨fun found => ⟨found, ?_⟩, And.left⟩
    rintro rfl
    exact cleared (mem_desiredShardPaths.mpr ⟨oid, found⟩)

/-- Replacing a shard leaves its new rows and those rows of the others that it does not take over. -/
theorem desiredAt_applyShardEntries (distinct : (entries.map Entry.path).Nodup) :
    (table.applyShardEntries shard entries).desiredAt path = some (oid, owner) ↔
      ⟨path, oid⟩ ∈ entries ∧ owner = shard ∨
        path ∉ entries.map Entry.path ∧ table.desiredAt path = some (oid, owner) ∧ owner ≠ shard := by
  unfold applyShardEntries
  dsimp only
  by_cases inside : path ∈ entries.map Entry.path
  · obtain ⟨entry, member, rfl⟩ := List.mem_map.mp inside
    rw [desiredAt, SortedMap.get?_foldl_alter_of_mem Entry.path distinct _ member]
    have unique : ⟨entry.path, oid⟩ ∈ entries ↔ entry.oid = oid := by
      constructor
      · intro other
        exact (congrArg Entry.oid (List.inj_on_of_nodup_map distinct other member rfl)).symm
      · rintro rfl
        exact member
    simp [inside, unique, eq_comm]
  · rw [desiredAt, SortedMap.get?_foldl_alter_of_forall_ne Entry.path _ fun entry member same =>
      inside (List.mem_map.mpr ⟨entry, member, same⟩)]
    change (table.clearDesiredExact _).desiredAt path = _ ↔ _
    have absent : (⟨path, oid⟩ : Entry) ∉ entries := fun member => inside (List.mem_map_of_mem member)
    rw [desiredAt_clearDesiredExact]
    split_ifs with stale
    · obtain ⟨other, found⟩ := mem_desiredShardPaths.mp (List.mem_of_mem_filter stale)
      refine iff_of_false (by rintro ⟨⟩) ?_
      rintro (⟨member, -⟩ | ⟨-, kept, different⟩)
      · exact absent member
      · rw [found] at kept
        exact different (congrArg Prod.snd (Option.some.inj kept)).symm
    · refine ⟨fun found => Or.inr ⟨inside, found, ?_⟩, fun either => (either.resolve_left fun both => absent both.1).2.1⟩
      rintro rfl
      exact stale (List.mem_filter.mpr ⟨mem_desiredShardPaths.mpr ⟨oid, found⟩, decide_eq_true inside⟩)

theorem materializedAt_clearDesiredExact (table : StateTable) (paths : List GatPath) (path : GatPath) :
    (table.clearDesiredExact paths).materializedAt path = table.materializedAt path := by
  induction paths generalizing table with
  | nil => rfl
  | cons first paths ih =>
    refine (ih _).trans ?_
    rw [materializedAt, SortedMap.get?_alter, materializedAt]
    split_ifs with here
    · rw [← here]
      cases table.get? first with
      | none => rfl
      | some row => cases kept : row.materialized <;> simp [kept]
    · rfl

theorem materializedAt_applyShardEntries (table : StateTable) (shard : LockShardId) (entries : List Entry) (path : GatPath) :
    (table.applyShardEntries shard entries).materializedAt path = table.materializedAt path := by
  unfold applyShardEntries
  dsimp only
  rw [← materializedAt_clearDesiredExact table
    ((table.desiredShardPaths shard).filter fun path => path ∉ entries.map Entry.path) path]
  generalize table.clearDesiredExact _ = table
  induction entries generalizing table with
  | nil => rfl
  | cons entry entries ih =>
    refine (ih _).trans ?_
    rw [materializedAt, SortedMap.get?_alter, materializedAt]
    split_ifs with here
    · rw [← here]
      rfl
    · rfl

end StateTable

/-- Changed shards own each of their paths once. -/
structure OwnedOnce (changed : List ChangedShard) : Prop where
  ids : (changed.map fun shard => shard.shardId).Nodup
  rows : ∀ shard ∈ changed, (shard.entries.map Entry.path).Nodup
  apart : ∀ shard ∈ changed, ∀ other ∈ changed, ∀ path, path ∈ shard.entries.map Entry.path →
    path ∈ other.entries.map Entry.path → shard.shardId = other.shardId

theorem OwnedOnce.tail {first : ChangedShard} {changed : List ChangedShard} (owned : OwnedOnce (first :: changed)) : OwnedOnce changed where
  ids := (List.nodup_cons.mp owned.ids).2
  rows := fun shard member => owned.rows shard (List.mem_cons_of_mem _ member)
  apart := fun shard member other later =>
    owned.apart shard (List.mem_cons_of_mem _ member) other (List.mem_cons_of_mem _ later)

section Apply

variable {table : StateTable} {path : GatPath} {oid : Oid} {owner : LockShardId}

theorem desiredAt_foldl_clearShardDesired (removed : List RemovedShard) (table : StateTable) :
    (removed.foldl (fun (table : StateTable) gone => table.clearShardDesired gone.shardId) table).desiredAt path = some (oid, owner) ↔
      table.desiredAt path = some (oid, owner) ∧ owner ∉ removed.map RemovedShard.shardId := by
  induction removed generalizing table with
  | nil => simp
  | cons gone removed ih => simp only [List.foldl_cons, ih, StateTable.desiredAt_clearShardDesired, List.map_cons, List.mem_cons,
      not_or, and_assoc]

/-- After all changed shards are replaced, their new rows stand beside the untouched rows of the others. -/
theorem desiredAt_foldl_applyShardEntries {changed : List ChangedShard} (owned : OwnedOnce changed) (table : StateTable) :
    (changed.foldl (fun (table : StateTable) shard => table.applyShardEntries shard.shardId shard.entries) table).desiredAt path =
        some (oid, owner) ↔
      (∃ shard ∈ changed, owner = shard.shardId ∧ ⟨path, oid⟩ ∈ shard.entries) ∨
        table.desiredAt path = some (oid, owner) ∧ ∀ shard ∈ changed, owner ≠ shard.shardId ∧ path ∉ shard.entries.map Entry.path := by
  induction changed generalizing table with
  | nil => simp
  | cons first changed ih =>
    rw [List.foldl_cons, ih owned.tail, StateTable.desiredAt_applyShardEntries (owned.rows first List.mem_cons_self)]
    have fresh := (List.nodup_cons.mp owned.ids).1
    have other (shard : ChangedShard) (member : shard ∈ changed) (inside : ⟨path, oid⟩ ∈ first.entries) :
        first.shardId ≠ shard.shardId ∧ path ∉ shard.entries.map Entry.path := by
      have different : first.shardId ≠ shard.shardId := fun same => fresh (List.mem_map.mpr ⟨shard, member, same.symm⟩)
      exact ⟨different, fun both => different (owned.apart first List.mem_cons_self shard (List.mem_cons_of_mem _ member) path
        (List.mem_map_of_mem (f := Entry.path) inside) both)⟩
    simp only [List.exists_mem_cons_iff, List.forall_mem_cons]
    constructor
    · rintro (later | ⟨⟨inside, rfl⟩ | ⟨outside, found, different⟩, apart⟩)
      · exact Or.inl (Or.inr later)
      · exact Or.inl (Or.inl ⟨rfl, inside⟩)
      · exact Or.inr ⟨found, ⟨different, outside⟩, apart⟩
    · rintro ((⟨rfl, inside⟩ | later) | ⟨found, ⟨different, outside⟩, apart⟩)
      · exact Or.inr ⟨Or.inl ⟨inside, rfl⟩, fun shard member => other shard member inside⟩
      · exact Or.inl later
      · exact Or.inr ⟨Or.inr ⟨outside, found, different⟩, apart⟩

theorem materializedAt_applyShardRefresh (store : DesiredStore) (component : ShardComponent) (changed : List ChangedShard)
    (updates : List (LockShardId × Option StatProof)) (removed : List RemovedShard) (path : GatPath) :
    (store.applyShardRefresh component changed updates removed).table.materializedAt path = store.table.materializedAt path := by
  have clears (table : StateTable) :
      (removed.foldl (fun (table : StateTable) gone => table.clearShardDesired gone.shardId) table).materializedAt path =
        table.materializedAt path := by
    induction removed generalizing table with
    | nil => rfl
    | cons gone removed ih => exact (ih _).trans (StateTable.materializedAt_clearDesiredExact ..)
  refine Eq.trans ?_ (clears store.table)
  unfold DesiredStore.applyShardRefresh
  dsimp only
  generalize removed.foldl _ store.table = table
  induction changed generalizing table with
  | nil => rfl
  | cons shard changed ih => exact (ih _).trans (StateTable.materializedAt_applyShardEntries ..)

/-- What a refresh leaves at a path. -/
theorem desiredAt_applyShardRefresh (store : DesiredStore) (component : ShardComponent) {changed : List ChangedShard}
    (owned : OwnedOnce changed) (updates : List (LockShardId × Option StatProof)) (removed : List RemovedShard) :
    (store.applyShardRefresh component changed updates removed).table.desiredAt path = some (oid, owner) ↔
      (∃ shard ∈ changed, owner = shard.shardId ∧ ⟨path, oid⟩ ∈ shard.entries) ∨
        (store.table.desiredAt path = some (oid, owner) ∧ owner ∉ removed.map RemovedShard.shardId) ∧
          ∀ shard ∈ changed, owner ≠ shard.shardId ∧ path ∉ shard.entries.map Entry.path := by
  unfold DesiredStore.applyShardRefresh
  dsimp only
  rw [desiredAt_foldl_applyShardEntries owned, desiredAt_foldl_clearShardDesired]

end Apply

/-! ## Observing the live files -/

section Observe

variable {kernel : Kernel} {blake3 : ContentHash} {stats : ShardStats} {priors : SortedMap LockShardId StoredShard}
  {root : LockRoot} {rows : LockShardId → List Entry}

theorem Outcome.mapErr_cases {ε ε' α : Type} (wrap : ε → ε') (result : Outcome ε α) :
    (∃ value, result = .ok value ∧ result.mapErr wrap = .ok value) ∨
      (∃ error, result = Outcome.fail error ∧ result.mapErr wrap = Outcome.fail (wrap error)) ∨
      result = Outcome.panic := by
  rcases result with (error | _) | value
  · exact Or.inr (Or.inl ⟨error, rfl, rfl⟩)
  · exact Or.inr (Or.inr rfl)
  · exact Or.inl ⟨value, rfl, rfl⟩

/-- Listing the live files fails exactly when they do not have one depth. -/
theorem LockRoot.listShardFiles_cases (quiet : root.live = .missing → root.failIfPendingReshape = .ok ()) :
    (root.listShardFiles = .ok root.live.shardFiles.entries ∧
        ∃ levels, ∀ file ∈ root.live.shardFiles.entries, file.1.levels = levels) ∨
      (∃ error, root.listShardFiles = Outcome.fail error) ∧
        ∀ levels, ¬∀ file ∈ root.live.shardFiles.entries, file.1.levels = levels := by
  unfold listShardFiles
  cases live : root.live with
  | missing =>
    refine Or.inl ⟨?_, LockShardLevels.FLAT, fun _ member => (nomatch member)⟩
    simp only [LockTree.listShardFilesAt, Outcome.ok_bind, quiet live]
    rfl
  | file text =>
    refine Or.inl ⟨rfl, LockShardLevels.FLAT, fun file member => ?_⟩
    obtain rfl := List.mem_singleton.mp (show file ∈ [(LockShardId.flat, text)] from member)
    rfl
  | directory tree =>
    simp only [LockTree.listShardFilesAt, LockTree.shardFiles]
    rcases shardTopology_cases (tree.files.entries.map Prod.fst) with ⟨levels, accepted, uniform⟩ | ⟨⟨error, rejected⟩, mixed⟩
    · rw [accepted]
      exact Or.inl ⟨rfl, levels, fun file member => uniform file.1 (List.mem_map_of_mem member)⟩
    · rw [rejected]
      refine Or.inr ⟨⟨_, rfl⟩, fun levels uniform => mixed levels fun id member => ?_⟩
      obtain ⟨file, listed, rfl⟩ := List.mem_map.mp member
      exact uniform file listed

variable (kernel) in
/-- Parsing a shard file gives the entries of a document or fails. -/
theorem parseShardBytes_cases (file : LockShardId × Str) :
    (∃ entries, parseShardBytes kernel file = .ok entries ∧ FileHolds file.2 entries) ∨
      (∃ error, parseShardBytes kernel file = Outcome.fail error) ∧ ¬∃ entries, FileHolds file.2 entries := by
  unfold parseShardBytes readToString
  by_cases utf8 : Utf8.Valid file.2
  · rw [if_pos utf8]
    change (∃ _, ((Lock.parse kernel file.2).mapErr _ >>= fun lock => _) = _ ∧ _) ∨
      (∃ _, ((Lock.parse kernel file.2).mapErr _ >>= fun lock => _) = _) ∧ _
    rcases Outcome.mapErr_cases (fun error => PersistenceError.lock (.corruptShard file.1 error)) (Lock.parse kernel file.2)
      with ⟨lock, parsed, same⟩ | ⟨error, failed, same⟩ | panicked
    · rw [same]
      exact Or.inl ⟨lock.entries, rfl, utf8, (Lock.parse_eq_ok_iff kernel utf8).mp parsed⟩
    · rw [same]
      refine Or.inr ⟨⟨_, rfl⟩, ?_⟩
      rintro ⟨entries, holds⟩
      rw [holds.parse_eq kernel] at failed
      exact Outcome.fail_ne_ok _ _ failed.symm
    · exact absurd panicked (Lock.parse_ne_panic kernel utf8)
  · rw [if_neg utf8]
    refine Or.inr ⟨⟨_, rfl⟩, ?_⟩
    rintro ⟨entries, holds⟩
    exact utf8 holds.utf8

/-- The identity that a resolution arrives at. -/
def ShardIdentityResolution.identity : ShardIdentityResolution → ShardContentIdentity
  | statOnly identity _ => identity
  | coherent identity _ _ => identity

/-- The identity of a file is found to be the recorded one. -/
def identityUnchanged (blake3 : ContentHash) (stats : ShardStats) (priors : SortedMap LockShardId StoredShard)
    (file : LockShardId × Str) : Bool :=
  (priors.get? file.1).map StoredShard.identity = some (resolveShardIdentity blake3 stats file (priors.get? file.1)).identity

/-- A file found changed was read, so its identity is its digest. -/
theorem resolveShardIdentity_of_changed {file : LockShardId × Str} (changed : identityUnchanged blake3 stats priors file = false) :
    resolveShardIdentity blake3 stats file (priors.get? file.1) = .coherent (blake3 file.2) (stats.observed file.1) file.2 := by
  unfold identityUnchanged at changed
  rcases found : priors.get? file.1 with _ | ⟨identity, _ | proof⟩
  · rfl
  · rfl
  · rw [found] at changed
    simp only [resolveShardIdentity] at changed ⊢
    split_ifs at changed ⊢ with agrees
    · simp [ShardIdentityResolution.identity] at changed
    · rfl

/-- The change that a file with new content is. -/
def changedShard (blake3 : ContentHash) (stats : ShardStats) (priors : SortedMap LockShardId StoredShard)
    (rows : LockShardId → List Entry) (file : LockShardId × Str) : ChangedShard :=
  ⟨⟨file.1, (priors.get? file.1).map StoredShard.identity, blake3 file.2, some (stats.observed file.1)⟩, rows file.1⟩

variable (kernel blake3 stats priors) in
/-- A file is kept while its identity is unchanged, and otherwise parsed. -/
theorem observeShard_cases (file : LockShardId × Str) :
    (∃ observation, observeShard kernel blake3 stats priors file = .ok observation ∧ observation.shardId = file.1 ∧
        (identityUnchanged blake3 stats priors file = true → observation.changed? = none) ∧
        (identityUnchanged blake3 stats priors file = false → ∃ entries, FileHolds file.2 entries ∧
          observation.changed? = some (changedShard blake3 stats priors (fun _ => entries) file))) ∨
      (∃ error, observeShard kernel blake3 stats priors file = Outcome.fail error) ∧
        identityUnchanged blake3 stats priors file = false ∧ ¬∃ entries, FileHolds file.2 entries := by
  unfold observeShard
  cases unchanged : identityUnchanged blake3 stats priors file with
  | true =>
    have same := of_decide_eq_true unchanged
    left
    dsimp only
    generalize resolveShardIdentity blake3 stats file (priors.get? file.1) = resolution at same
    cases resolution with
    | statOnly identity proof =>
      dsimp only [ShardIdentityResolution.identity] at same ⊢
      rw [if_pos same]
      exact ⟨_, rfl, rfl, fun _ => rfl, fun absurd => (nomatch absurd)⟩
    | coherent identity proof bytes =>
      dsimp only [ShardIdentityResolution.identity] at same ⊢
      rw [if_pos same]
      exact ⟨_, rfl, rfl, fun _ => rfl, fun absurd => (nomatch absurd)⟩
  | false =>
    have different := of_decide_eq_false unchanged
    rw [resolveShardIdentity_of_changed unchanged] at different
    dsimp only
    rw [resolveShardIdentity_of_changed unchanged]
    dsimp only [ShardIdentityResolution.identity] at different ⊢
    rw [if_neg different]
    rcases parseShardBytes_cases kernel file with ⟨entries, parsed, holds⟩ | ⟨⟨error, failed⟩, none⟩
    · rw [parsed]
      exact Or.inl ⟨_, rfl, rfl, fun absurd => (nomatch absurd), fun _ => ⟨entries, holds, rfl⟩⟩
    · rw [failed]
      exact Or.inr ⟨⟨error, rfl⟩, rfl, none⟩

/-- Observations of files in order name the files and change those that are found changed. -/
theorem observations_eq {files : List (LockShardId × Str)} {observations : List ShardObservation}
    (observed : List.Forall₂ (fun (file : LockShardId × Str) observation => observation.shardId = file.1 ∧ observation.changed? =
      if identityUnchanged blake3 stats priors file then none else some (changedShard blake3 stats priors rows file)) files observations) :
    observations.map ShardObservation.shardId = files.map Prod.fst ∧
      observations.filterMap ShardObservation.changed? =
        (files.filter fun file => !identityUnchanged blake3 stats priors file).map (changedShard blake3 stats priors rows) := by
  induction observed with
  | nil => exact ⟨rfl, rfl⟩
  | @cons file observation files observations head _ ih =>
    rw [List.map_cons, List.map_cons, head.1, ih.1, List.filterMap_cons, head.2, List.filter_cons]
    refine ⟨rfl, ?_⟩
    cases identityUnchanged blake3 stats priors file with
    | true => exact ih.2
    | false => exact congrArg (_ :: ·) ih.2

variable (kernel blake3 stats priors) in
/-- The whole observation succeeds when the files have one depth and every changed one is a document. The changes
are then the changed files with their rows, beside any rows for the others. -/
theorem observeShards_cases (quiet : root.live = .missing → root.failIfPendingReshape = .ok ()) (rows : LockShardId → List Entry) :
    (∃ observations levels found, observeShards kernel blake3 stats root priors = .ok observations ∧
        observations.map ShardObservation.shardId = root.live.shardFiles.entries.map Prod.fst ∧
        (∀ file ∈ root.live.shardFiles.entries, file.1.levels = levels) ∧
        observations.filterMap ShardObservation.changed? =
          (root.live.shardFiles.entries.filter fun file => !identityUnchanged blake3 stats priors file).map
            (changedShard blake3 stats priors found) ∧
        (∀ file ∈ root.live.shardFiles.entries, identityUnchanged blake3 stats priors file = true → found file.1 = rows file.1) ∧
        (∀ file ∈ root.live.shardFiles.entries, identityUnchanged blake3 stats priors file = false →
          FileHolds file.2 (found file.1)) ∧
        ∀ shard, root.live.shardFiles.get? shard = none → found shard = []) ∨
      (∃ error, observeShards kernel blake3 stats root priors = Outcome.fail error) ∧
        ((∀ levels, ¬∀ file ∈ root.live.shardFiles.entries, file.1.levels = levels) ∨
          ∃ file ∈ root.live.shardFiles.entries, identityUnchanged blake3 stats priors file = false ∧
            ¬∃ entries, FileHolds file.2 entries) := by
  unfold observeShards
  rcases root.listShardFiles_cases quiet with ⟨listed, levels, uniform⟩ | ⟨⟨error, failed⟩, mixed⟩
  swap
  · rw [failed]
    exact Or.inr ⟨⟨error, rfl⟩, Or.inl mixed⟩
  rw [listed]
  have single (file : LockShardId × Str) (_ : file ∈ root.live.shardFiles.entries) := observeShard_cases kernel blake3 stats priors file
  rcases Outcome.mapM_cases single with ⟨observations, ran, each⟩ | ⟨⟨error, failed⟩, bad⟩
  swap
  · exact Or.inr ⟨⟨error, failed⟩, Or.inr bad⟩
  have chosen (shard : LockShardId) : ∃ entries, (root.live.shardFiles.get? shard = none → entries = []) ∧
      ∀ text, root.live.shardFiles.get? shard = some text →
        (identityUnchanged blake3 stats priors (shard, text) = true → entries = rows shard) ∧
        (identityUnchanged blake3 stats priors (shard, text) = false → FileHolds text entries) := by
    cases found : root.live.shardFiles.get? shard with
    | none => exact ⟨[], fun _ => rfl, fun _ absurd => (nomatch absurd)⟩
    | some text =>
      cases unchanged : identityUnchanged blake3 stats priors (shard, text) with
      | true =>
        refine ⟨rows shard, fun absurd => (nomatch absurd), fun other same => ?_⟩
        obtain rfl := Option.some.inj same
        exact ⟨fun _ => rfl, fun absurd => (nomatch unchanged.symm.trans absurd)⟩
      | false =>
        obtain ⟨observation, -, -, -, changed⟩ := List.exists_of_forall₂ each (SortedMap.get?_eq_some_iff.mp found)
        obtain ⟨entries, holds, -⟩ := changed unchanged
        refine ⟨entries, fun absurd => (nomatch absurd), fun other same => ?_⟩
        obtain rfl := Option.some.inj same
        exact ⟨fun absurd => (nomatch unchanged.symm.trans absurd), fun _ => holds⟩
  choose found absent documents using chosen
  have document {file : LockShardId × Str} (member : file ∈ root.live.shardFiles.entries) :=
    documents file.1 file.2 (SortedMap.get?_of_mem member)
  have observed : List.Forall₂ (fun (file : LockShardId × Str) observation => observation.shardId = file.1 ∧ observation.changed? =
      if identityUnchanged blake3 stats priors file then none else some (changedShard blake3 stats priors found file))
      root.live.shardFiles.entries observations := by
    refine ((List.forall₂_and_left _ _).mpr ⟨fun file => document, each⟩).imp fun file observation both => ?_
    obtain ⟨⟨-, holds⟩, named, kept, changed⟩ := both
    refine ⟨named, ?_⟩
    cases unchanged : identityUnchanged blake3 stats priors file with
    | true => exact kept unchanged
    | false =>
      obtain ⟨entries, holds', same⟩ := changed unchanged
      obtain rfl := holds'.unique (holds unchanged)
      exact same
  obtain ⟨named, changes⟩ := observations_eq observed
  exact Or.inl ⟨observations, levels, found, ran, named, uniform, changes, fun file member => (document member).1,
    fun file member => (document member).2, absent⟩

end Observe

/-! ## The invariant check -/

section Check

variable {blake3 : ContentHash} {store : DesiredStore} {changed : List ChangedShard} {removed : List RemovedShard}

theorem Outcome.eq_fail_of_ne {ε α : Type} {result : Outcome ε α} (notOk : ∀ value, result ≠ .ok value) (notPanic : result ≠ Outcome.panic) :
    ∃ error, result = Outcome.fail error := by
  rcases result with (error | _) | value
  · exact ⟨error, rfl⟩
  · exact absurd rfl notPanic
  · exact absurd rfl (notOk value)

/-- Claims succeed when each path comes with one shard. -/
theorem foldlM_claimPath (rows : List (LockShardId × Entry)) (owner : SortedMap GatPath LockShardId)
    (single : ∀ row ∈ rows, ∀ other ∈ rows, row.2.path = other.2.path → row.1 = other.1)
    (agrees : ∀ row ∈ rows, ∀ shard, owner.get? row.2.path = some shard → shard = row.1) :
    ∃ claimed, rows.foldlM claimPath owner = .ok claimed := by
  induction rows generalizing owner with
  | nil => exact ⟨owner, rfl⟩
  | cons row rows ih =>
    have own : claimPath owner row = .ok (owner.insert row.2.path row.1) := by
      unfold claimPath
      rw [if_neg]
      cases held : owner.get? row.2.path with
      | none => simp
      | some shard => simp [agrees row List.mem_cons_self shard held]
    rw [List.foldlM_cons, own]
    refine ih _ (fun first isFirst second isSecond => single first (List.mem_cons_of_mem _ isFirst) second
      (List.mem_cons_of_mem _ isSecond)) fun other later shard held => ?_
    rw [SortedMap.get?_insert] at held
    split_ifs at held with same
    · rw [← Option.some.inj held]
      exact single row List.mem_cons_self other (List.mem_cons_of_mem _ later) same
    · exact agrees other (List.mem_cons_of_mem _ later) shard held

/-- All paths of changed shards. -/
def changedPaths (changed : List ChangedShard) : List GatPath := changed.flatMap fun shard => shard.entries.map Entry.path

/-- The shards whose recorded rows a refresh replaces or clears. -/
def replacedShards (changed : List ChangedShard) (removed : List RemovedShard) : Finset LockShardId :=
  (changed.map fun shard => shard.shardId).toFinset ∪ (removed.map RemovedShard.shardId).toFinset

/-- What changed shards must satisfy. -/
structure ChangesFit (blake3 : ContentHash) (store : DesiredStore) (changed : List ChangedShard) (removed : List RemovedShard) : Prop where
  placed : ∀ shard ∈ changed, ∀ entry ∈ shard.entries, LockShardId.forPath blake3 entry.path shard.shardId.levels = shard.shardId
  separated : Separated Byte.slash ((changedPaths changed).map GatPath.text)
  unclaimed : ∀ path ∈ changedPaths changed, path ∉ store.table.remaining (replacedShards changed removed)
  unrelated : Unrelated (changedPaths changed) (store.table.remaining (replacedShards changed removed))

variable (blake3 changed) in
/-- The placement check accepts exactly the changes whose entries belong to their shards. -/
theorem checkPlacement_cases :
    (checkPlacement blake3 changed = .ok () ∧
        ∀ shard ∈ changed, ∀ entry ∈ shard.entries, LockShardId.forPath blake3 entry.path shard.shardId.levels = shard.shardId) ∨
      (∃ error, checkPlacement blake3 changed = Outcome.fail error) ∧
        ¬∀ shard ∈ changed, ∀ entry ∈ shard.entries, LockShardId.forPath blake3 entry.path shard.shardId.levels = shard.shardId := by
  have accepts : checkPlacement blake3 changed = .ok () ↔
      ∀ shard ∈ changed, ∀ entry ∈ shard.entries, LockShardId.forPath blake3 entry.path shard.shardId.levels = shard.shardId := by
    unfold checkPlacement
    rw [Outcome.forM_eq_ok_iff]
    refine forall₂_congr fun shard _ => ?_
    rw [Outcome.forM_eq_ok_iff]
    refine forall₂_congr fun entry _ => ?_
    rw [← checkShardPlacement_eq_none_iff]
    split
    · next misplaced => exact iff_of_false (Outcome.fail_ne_ok _ _) (by simp [misplaced])
    · next placed => exact iff_of_true rfl placed
  have safe : checkPlacement blake3 changed ≠ Outcome.panic := by
    refine Outcome.forM_ne_panic fun shard _ => Outcome.forM_ne_panic fun entry _ => ?_
    split
    · exact Outcome.fail_ne_panic _
    · exact Outcome.ok_ne_panic _
  by_cases placed : checkPlacement blake3 changed = .ok ()
  · exact Or.inl ⟨placed, accepts.mp placed⟩
  · exact Or.inr ⟨Outcome.eq_fail_of_ne (fun _ => placed) safe, fun all => placed (accepts.mpr all)⟩

/-- The scan of sorted paths finds an ancestor pair. -/
theorem validateSorted_cases (paths : List GatPath) :
    ((∃ ordered, validatePathsIfOrdered (paths.toFinset.sort.map GatPath.text) = .ok ordered) ∧
        Separated Byte.slash (paths.map GatPath.text)) ∨
      (∃ error, validatePathsIfOrdered (paths.toFinset.sort.map GatPath.text) = Outcome.fail error) ∧
        ¬Separated Byte.slash (paths.map GatPath.text) := by
  have sorted : (paths.toFinset.sort.map GatPath.text).Pairwise (· < ·) :=
    List.pairwise_map.mpr (paths.toFinset.sortedLT_sort.pairwise.imp GatPath.lt_iff.mp)
  have same : paths.toFinset.sort.map GatPath.text ⊆ paths.map GatPath.text ∧ paths.map GatPath.text ⊆ paths.toFinset.sort.map GatPath.text := by
    constructor <;> exact List.map_subset _ fun path member => by simpa using member
  have scanned := validatePathsIfOrdered_cases (paths.toFinset.sort.map GatPath.text)
  generalize validatePathsIfOrdered (paths.toFinset.sort.map GatPath.text) = result at scanned
  cases scanned with
  | accepted ordered separated => exact Or.inl ⟨⟨true, rfl⟩, separated.subset same.2⟩
  | rejected error conflict =>
    exact Or.inr ⟨⟨error, rfl⟩, fun separated => conflict ⟨sorted.imp ne_of_lt, separated.subset same.1⟩⟩
  | unordered disorder => exact absurd (sorted.imp le_of_lt) disorder

variable (store) in
/-- The remaining rows accept exactly the paths that they neither hold nor are related to. -/
theorem checkRemaining_cases (paths : List GatPath) (exclude : Finset LockShardId) :
    (store.checkRemaining paths exclude = .ok () ∧ (∀ path ∈ paths, path ∉ store.table.remaining exclude) ∧
        Unrelated paths (store.table.remaining exclude)) ∨
      (∃ error, store.checkRemaining paths exclude = Outcome.fail error) ∧
        ¬((∀ path ∈ paths, path ∉ store.table.remaining exclude) ∧ Unrelated paths (store.table.remaining exclude)) := by
  unfold DesiredStore.checkRemaining
  by_cases none : store.table.desiredOwners = []
  · have empty : store.table.remaining exclude = [] := by rw [StateTable.remaining, none]; rfl
    rw [if_pos none, empty]
    exact Or.inl ⟨rfl, by simp, by simp [Unrelated]⟩
  rw [if_neg none, ← StateTable.findConflictingShardOwners_eq_nil_iff, ← StateTable.findDirectoryConflict_eq_none_iff]
  split
  · next claimed => exact Or.inr ⟨⟨_, rfl⟩, fun both => by cases claimed.symm.trans both.1⟩
  · next unclaimed =>
    split
    · next related => exact Or.inr ⟨⟨_, rfl⟩, fun both => by cases related.symm.trans both.2⟩
    · next unrelated => exact Or.inl ⟨rfl, unclaimed, unrelated⟩

variable (store removed) in
/-- The check accepts exactly the changes that fit. -/
theorem checkShardedLockInvariants_cases {levels : LockShardLevels} (uniform : ∀ shard ∈ changed, shard.shardId.levels = levels) :
    (store.checkShardedLockInvariants blake3 changed removed = .ok () ∧ ChangesFit blake3 store changed removed) ∨
      (∃ error, store.checkShardedLockInvariants blake3 changed removed = Outcome.fail error) ∧
        ¬ChangesFit blake3 store changed removed := by
  unfold DesiredStore.checkShardedLockInvariants
  by_cases none : changed = []
  · subst none
    rw [if_pos rfl]
    exact Or.inl ⟨rfl, by simp, separated_nil, by simp [changedPaths], fun _ member => absurd member (by simp [changedPaths])⟩
  rw [if_neg none]
  rcases checkPlacement_cases blake3 changed with ⟨accepted, placed⟩ | ⟨⟨error, failed⟩, misplaced⟩
  swap
  · rw [failed]
    exact Or.inr ⟨⟨error, rfl⟩, fun fit => misplaced fit.placed⟩
  rw [accepted, Outcome.ok_bind]
  obtain ⟨claimed, owned⟩ := foldlM_claimPath (changed.flatMap fun shard => shard.entries.map fun entry => (shard.shardId, entry))
    .empty (by
      intro row isRow other isOther same
      obtain ⟨shard, isShard, inside⟩ := List.mem_flatMap.mp isRow
      obtain ⟨entry, isEntry, rfl⟩ := List.mem_map.mp inside
      obtain ⟨shard', isShard', inside'⟩ := List.mem_flatMap.mp isOther
      obtain ⟨entry', isEntry', rfl⟩ := List.mem_map.mp inside'
      have first := placed shard isShard entry isEntry
      have second := placed shard' isShard' entry' isEntry'
      rw [uniform shard isShard] at first
      rw [uniform shard' isShard'] at second
      exact first.symm.trans ((congrArg (LockShardId.forPath blake3 · levels) same).trans second))
    (by simp)
  rw [owned, Outcome.ok_bind]
  dsimp only
  have scan := validateSorted_cases (changedPaths changed)
  have rest := checkRemaining_cases store (changedPaths changed) (replacedShards changed removed)
  unfold changedPaths at scan
  unfold changedPaths replacedShards at rest
  rcases scan with ⟨⟨ordered, passed⟩, separated⟩ | ⟨⟨error, failed⟩, clash⟩
  swap
  · rw [failed]
    exact Or.inr ⟨⟨_, rfl⟩, fun fit => clash fit.separated⟩
  rw [passed]
  change (store.checkRemaining _ _ = _ ∧ _) ∨ (∃ error, store.checkRemaining _ _ = _) ∧ _
  rcases rest with ⟨accepted, unclaimed, unrelated⟩ | ⟨failed, clash⟩
  · exact Or.inl ⟨accepted, placed, separated, unclaimed, unrelated⟩
  · exact Or.inr ⟨failed, fun fit => clash ⟨fit.unclaimed, fit.unrelated⟩⟩

end Check

/-! ## What a refresh applies -/

section Applied

variable {kernel : Kernel} {blake3 : ContentHash} {stats : ShardStats} {component : ShardComponent} {store next : DesiredStore}
  {root : LockRoot} {found : LockShardId → List Entry}

/-- The live files with new content, as changes. -/
def liveChanges (blake3 : ContentHash) (stats : ShardStats) (store : DesiredStore) (root : LockRoot)
    (found : LockShardId → List Entry) : List ChangedShard :=
  (root.live.shardFiles.entries.filter fun file => !identityUnchanged blake3 stats store.catalog.shards file).map
    (changedShard blake3 stats store.catalog.shards found)

/-- The catalog rows without a live file. -/
def goneShards (store : DesiredStore) (root : LockRoot) : List RemovedShard :=
  store.catalog.removedShards (root.live.shardFiles.entries.map Prod.fst)

theorem mem_liveChanges {shard : ChangedShard} :
    shard ∈ liveChanges blake3 stats store root found ↔ ∃ file ∈ root.live.shardFiles.entries,
      identityUnchanged blake3 stats store.catalog.shards file = false ∧ shard = changedShard blake3 stats store.catalog.shards found file := by
  unfold liveChanges
  rw [List.mem_map]
  constructor
  · rintro ⟨file, kept, rfl⟩
    obtain ⟨member, changed⟩ := List.mem_filter.mp kept
    exact ⟨file, member, by simpa using changed, rfl⟩
  · rintro ⟨file, member, changed, rfl⟩
    exact ⟨file, List.mem_filter.mpr ⟨member, by simp [changed]⟩, rfl⟩

/-- Each live shard changes at most once. -/
theorem nodup_liveChanges (found : LockShardId → List Entry) :
    ((liveChanges blake3 stats store root found).map fun shard => shard.shardId).Nodup := by
  unfold liveChanges
  rw [List.map_map]
  exact List.Nodup.sublist (List.filter_sublist.map _) (List.pairwise_map.mpr (root.live.shardFiles.sorted.imp fun below => below.ne))

/-- Applying nothing changes nothing, so the shortcut of a clean refresh applies its empty lists as well. -/
theorem applyShardRefresh_or_store (changed : List ChangedShard) (updates : List (LockShardId × Option StatProof))
    (removed : List RemovedShard) :
    (if changed = [] ∧ updates = [] ∧ removed = [] then store else store.applyShardRefresh component changed updates removed) =
      store.applyShardRefresh component changed updates removed := by
  split_ifs with nothing
  · rw [nothing.1, nothing.2.1, nothing.2.2]
    rfl
  · rfl

/-- A refresh that succeeds has applied the changed and the missing shards. -/
theorem refreshDesiredState_eq_ok {report : DesiredRefresh}
    (done : store.refreshDesiredState kernel blake3 stats component root = .ok (next, report)) :
    ∃ found updates, next = store.applyShardRefresh component (liveChanges blake3 stats store root found) updates (goneShards store root) := by
  unfold DesiredStore.refreshDesiredState at done
  obtain ⟨observations, observed, done⟩ := Outcome.bind_eq_ok_iff.mp done
  have quiet : root.live = .missing → root.failIfPendingReshape = .ok () := by
    intro missing
    obtain ⟨files, listed, -⟩ := Outcome.bind_eq_ok_iff.mp observed
    rw [LockRoot.listShardFiles, missing] at listed
    obtain ⟨_, passed, -⟩ := Outcome.bind_eq_ok_iff.mp (show (root.failIfPendingReshape >>= fun _ => _) = _ from listed)
    exact passed
  rcases observeShards_cases kernel blake3 stats store.catalog.shards quiet fun _ => [] with
    ⟨_, _, found, observed', named, -, isChange, -⟩ | ⟨⟨error, failed⟩, -⟩
  · obtain rfl := Except.ok.inj (observed'.symm.trans observed)
    dsimp only at done
    rw [named, isChange] at done
    obtain ⟨levels, -, done⟩ := Outcome.bind_eq_ok_iff.mp done
    obtain ⟨_, -, done⟩ := Outcome.bind_eq_ok_iff.mp done
    have same := (congrArg Prod.fst (Except.ok.inj done)).symm
    exact ⟨found, _, same.trans (applyShardRefresh_or_store ..)⟩
  · rw [failed] at observed
    exact absurd observed (Outcome.fail_ne_ok _ _)

end Applied

end Gat
