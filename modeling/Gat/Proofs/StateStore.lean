import Gat.Model.Selection
import Gat.Model.StateStore
import Gat.Proofs.LexicalTree
import Gat.Proofs.LockStore
import Gat.Proofs.SyncPlan

/-! # The state table as functions of a path

Each statement is described by what it leaves at one path. Lookups by shard see the desired half only, and
chunking a lookup does not change what it finds.
-/

namespace Gat

open AncestorFree

theorem inScope_iff {scope path : GatPath} : inScope scope path ↔ GatPath.Under scope path := by
  rw [GatPath.under_iff_range]
  simp [inScope]

/-- A selected path is in the scope of the selection. -/
theorem ScopedSelection.inScope_of_matchesStr {selection : ScopedSelection} {path : GatPath} (selected : selection.matchesStr path.text) :
    selection.scopePath.all (inScope · path) := by
  obtain ⟨scope, filter⟩ := selection
  cases scope with
  | root => rfl
  | path scope =>
    unfold matchesStr at selected
    split at selected
    · next rel found => exact inScope_iff.mpr (GatPath.under_of_relativePath found)
    · cases selected

namespace StateTable

variable {table : StateTable} {path : GatPath} {oid : Oid} {shard : LockShardId}

/-! ## Rows of a shard -/

theorem mem_desiredRows {entry : Entry} :
    entry ∈ table.desiredRows ↔ ∃ shard, table.desiredAt entry.path = some (entry.oid, shard) := by
  unfold desiredRows desiredAt
  rw [List.mem_filterMap]
  constructor
  · rintro ⟨row, member, found⟩
    obtain ⟨held, desired, rfl⟩ := Option.map_eq_some_iff.mp found
    exact ⟨held.2, by rw [SortedMap.get?_of_mem member]; exact desired⟩
  · rintro ⟨shard, found⟩
    obtain ⟨row, isRow, desired⟩ := Option.bind_eq_some_iff.mp found
    exact ⟨(entry.path, row), SortedMap.get?_eq_some_iff.mp isRow, by rw [desired]; rfl⟩

theorem mem_shardRows {entry : Entry} :
    entry ∈ table.shardRows shard ↔ table.desiredAt entry.path = some (entry.oid, shard) := by
  unfold shardRows desiredAt
  rw [List.mem_filterMap]
  constructor
  · rintro ⟨row, member, found⟩
    obtain ⟨held, desired, same⟩ := Option.bind_eq_some_iff.mp found
    split_ifs at same with here
    cases same
    rw [SortedMap.get?_of_mem member, ← here]
    exact desired
  · intro found
    obtain ⟨row, isRow, desired⟩ := Option.bind_eq_some_iff.mp found
    refine ⟨(entry.path, row), SortedMap.get?_eq_some_iff.mp isRow, ?_⟩
    rw [desired, Option.bind_some, if_pos rfl]

theorem strictlySorted_shardRows (table : StateTable) (shard : LockShardId) : StrictlySorted (table.shardRows shard) := by
  refine table.sorted.filterMap _ fun first second before entry found other otherFound => ?_
  obtain ⟨_, -, same⟩ := Option.bind_eq_some_iff.mp found
  obtain ⟨_, -, otherSame⟩ := Option.bind_eq_some_iff.mp otherFound
  split_ifs at same otherSame
  cases same
  cases otherSame
  exact before

theorem strictlySorted_desiredRows (table : StateTable) : StrictlySorted table.desiredRows := by
  refine table.sorted.filterMap _ fun first second before entry found other otherFound => ?_
  obtain ⟨_, -, rfl⟩ := Option.map_eq_some_iff.mp found
  obtain ⟨_, -, rfl⟩ := Option.map_eq_some_iff.mp otherFound
  exact before

/-- A shard's rows are the same when the same paths are desired in it. -/
theorem shardRows_congr {other : StateTable}
    (same : ∀ path oid, table.desiredAt path = some (oid, shard) ↔ other.desiredAt path = some (oid, shard)) :
    table.shardRows shard = other.shardRows shard := by
  refine List.eq_of_key_lt Entry.path (strictlySorted_shardRows table shard) (strictlySorted_shardRows other shard) fun entry => ?_
  rw [mem_shardRows, mem_shardRows, same]

/-- Every desired row carries the shard of its path at a depth. -/
def PlacedAt (table : StateTable) (blake3 : ContentHash) (levels : LockShardLevels) : Prop :=
  ∀ path oid shard, table.desiredAt path = some (oid, shard) → shard = LockShardId.forPath blake3 path levels

/-! ## Shard lookups -/

theorem mem_desiredShardIdsWhere {selects : GatPath → Bool} :
    shard ∈ table.desiredShardIdsWhere selects ↔ ∃ path oid, selects path ∧ table.desiredAt path = some (oid, shard) := by
  unfold desiredShardIdsWhere desiredAt
  rw [List.mem_toFinset, List.mem_filterMap]
  constructor
  · rintro ⟨row, member, found⟩
    split_ifs at found with selected
    obtain ⟨held, desired, rfl⟩ := Option.map_eq_some_iff.mp found
    exact ⟨row.1, held.1, selected, by rw [SortedMap.get?_of_mem member]; exact desired⟩
  · rintro ⟨path, oid, selected, found⟩
    obtain ⟨row, isRow, desired⟩ := Option.bind_eq_some_iff.mp found
    exact ⟨(path, row), SortedMap.get?_eq_some_iff.mp isRow, by rw [if_pos selected, desired]; rfl⟩

theorem mem_desiredShardIdsForScope {scope : GatPath} :
    shard ∈ table.desiredShardIdsForScope scope ↔
      ∃ path oid, GatPath.Under scope path ∧ table.desiredAt path = some (oid, shard) := by
  simp only [desiredShardIdsForScope, mem_desiredShardIdsWhere, inScope_iff]

theorem mem_foldl_union {α β : Type} [DecidableEq β] (step : α → Finset β) (items : List α) (start : Finset β) {element : β} :
    element ∈ items.foldl (fun union item => union ∪ step item) start ↔ element ∈ start ∨ ∃ item ∈ items, element ∈ step item := by
  induction items generalizing start with
  | nil => simp
  | cons item items ih => simp [ih, or_assoc]

theorem mem_desiredShardIdsForPaths {paths : List GatPath} :
    shard ∈ table.desiredShardIdsForPaths paths ↔ ∃ path ∈ paths, ∃ oid, table.desiredAt path = some (oid, shard) := by
  unfold desiredShardIdsForPaths
  rw [mem_foldl_union]
  simp only [Finset.notMem_empty, false_or, mem_desiredShardIdsWhere, decide_eq_true_eq]
  constructor
  · rintro ⟨chunk, member, path, oid, inside, found⟩
    refine ⟨path, ?_, oid, found⟩
    rw [← flatten_chunks lookupChunkSize paths]
    exact List.mem_flatten_of_mem member inside
  · rintro ⟨path, member, oid, found⟩
    rw [← flatten_chunks lookupChunkSize paths] at member
    obtain ⟨chunk, isChunk, inside⟩ := List.mem_flatten.mp member
    exact ⟨chunk, isChunk, path, oid, inside, found⟩

/-! ## Writes -/

variable {blake3 : ContentHash} {levels : LockShardLevels} {entries : List Entry}

/-- A path without an entry keeps its row. -/
theorem get?_upsertEntries_of_not_mem (table : StateTable) (outside : path ∉ entries.map Entry.path) :
    (table.upsertEntries blake3 levels entries).get? path = table.get? path :=
  SortedMap.get?_foldl_alter_of_forall_ne Entry.path _ fun _ member same => outside (List.mem_map.mpr ⟨_, member, same⟩)

/-- Upserting changes the desired half of its paths: the last entry of a path decides. -/
theorem desiredAt_upsertEntries_of_mem (table : StateTable) (inside : path ∈ entries.map Entry.path) :
    ∃ entry ∈ entries, entry.path = path ∧
      (table.upsertEntries blake3 levels entries).desiredAt path = some (entry.oid, LockShardId.forPath blake3 path levels) := by
  induction entries generalizing table with
  | nil => cases inside
  | cons first entries ih =>
    rw [upsertEntries, List.foldl_cons]
    by_cases later : path ∈ entries.map Entry.path
    · obtain ⟨entry, member, same, found⟩ := ih _ later
      exact ⟨entry, List.mem_cons_of_mem _ member, same, found⟩
    · have here : first.path = path := ((List.mem_cons.mp inside).resolve_right later).symm
      refine ⟨first, List.mem_cons_self, here, ?_⟩
      rw [desiredAt]
      refine (congrArg (Option.bind · StateRow.desired) (get?_upsertEntries_of_not_mem _ later)).trans ?_
      rw [SortedMap.get?_alter, if_pos here, here]
      rfl

theorem desiredAt_upsertEntries_of_not_mem (table : StateTable) (outside : path ∉ entries.map Entry.path) :
    (table.upsertEntries blake3 levels entries).desiredAt path = table.desiredAt path := by
  rw [desiredAt, get?_upsertEntries_of_not_mem table outside, desiredAt]

theorem desiredAt_clearDesiredExact (table : StateTable) (paths : List GatPath) (path : GatPath) :
    (table.clearDesiredExact paths).desiredAt path = if path ∈ paths then none else table.desiredAt path := by
  induction paths generalizing table with
  | nil => rw [if_neg List.not_mem_nil]; rfl
  | cons first paths ih =>
    rw [clearDesiredExact, List.foldl_cons]
    refine (ih _).trans ?_
    by_cases later : path ∈ paths
    · rw [if_pos later, if_pos (List.mem_cons_of_mem _ later)]
    · rw [if_neg later, desiredAt, SortedMap.get?_alter]
      by_cases here : first = path
      · rw [if_pos here, if_pos (here ▸ List.mem_cons_self)]
        cases table.get? first with
        | none => rfl
        | some row => cases kept : row.materialized <;> simp [kept]
      · rw [if_neg here, if_neg (by simp [later, Ne.symm here]), desiredAt]

theorem desiredAt_clearDesiredPrefix (table : StateTable) (scope path : GatPath) :
    (table.clearDesiredPrefix scope).desiredAt path = if GatPath.Under scope path then none else table.desiredAt path := by
  unfold desiredAt clearDesiredPrefix
  rw [SortedMap.get?_mapValues, SortedMap.get?_filter]
  by_cases under : GatPath.Under scope path
  · rw [if_pos under, inScope_iff.mpr under]
    cases table.get? path with
    | none => rfl
    | some row => cases kept : row.materialized <;> simp [kept, Option.filter]
  · have outside : inScope scope path = false := Bool.eq_false_iff.mpr (mt inScope_iff.mp under)
    rw [if_neg under]
    cases table.get? path <;> simp [outside, Option.filter]

end StateTable

end Gat
