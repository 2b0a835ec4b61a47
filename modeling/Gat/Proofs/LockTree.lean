import Gat.Model.LockTree
import Gat.Proofs.LockStore

/-! # What saves write and loads read

A sharded save leaves one rendered file for each bucket, whatever was there before. Loading a tree returns the
rows of its files.
-/

namespace Gat

open LockFormat AncestorFree

variable {blake3 : ContentHash} {levels : LockShardLevels} {shard : LockShardId} {lock : Lock}

/-! ## Rendering -/

theorem renderOrderedEntries_eq {ε : Type} (entries : List Entry) :
    (renderOrderedEntries entries : Outcome ε Str) = .ok (render entries) := by
  have lines : (entries.mapM Lock.entryLine : Outcome ε (List Str)) = .ok (entries.map renderEntry) := by
    induction entries with
    | nil => rfl
    | cons entry entries ih =>
      rw [List.mapM_cons, ih, Lock.entryLine, escapedPath_eq]
      rfl
  rw [renderOrderedEntries, lines, Outcome.ok_bind, render, List.flatMap]
  rfl

theorem sortedEntries_of_ordered {entries : List Entry} (ordered : entriesOrdered entries) :
    Lock.sortedEntries entries = entries := by
  refine List.mergeSort_of_pairwise ((of_decide_eq_true ordered).imp fun below => ?_)
  exact decide_eq_true below

theorem renderEntries_eq {ε : Type} (entries : List Entry) :
    (renderEntries entries : Outcome ε Str) = .ok (render (Lock.sortedEntries entries)) := by
  unfold renderEntries
  split_ifs with ordered
  · rw [renderOrderedEntries_eq, sortedEntries_of_ordered ordered]
  · exact renderOrderedEntries_eq _

/-! ## Buckets -/

theorem foldl_push {α β : Type} (value : α → β) (items : List α) (held : Option (List β)) :
    items.foldl (fun held item => some (held.getD [] ++ [value item])) held =
      if items = [] then held else some (held.getD [] ++ items.map value) := by
  induction items generalizing held with
  | nil => rfl
  | cons item items ih =>
    rw [List.foldl_cons, ih, if_neg (List.cons_ne_nil _ _)]
    by_cases last : items = [] <;> simp [last]

/-- Pushed rows are collected under their shard in order. -/
theorem get?_foldl_pushRow (rows : List (LockShardId × Entry)) (buckets : SortedMap LockShardId (List Entry)) :
    (rows.foldl pushRow buckets).get? shard =
      if rows.filter (fun row => row.1 = shard) = [] then buckets.get? shard
      else some ((buckets.get? shard).getD [] ++ (rows.filter fun row => row.1 = shard).map Prod.snd) := by
  unfold pushRow
  rw [SortedMap.get?_foldl_alter Prod.fst fun row held => some (held.getD [] ++ [row.2])]
  convert foldl_push Prod.snd (rows.filter fun row => row.1 = shard) (buckets.get? shard)

/-- The entries of a lock that hash to a shard, in path order. -/
def bucketRows (blake3 : ContentHash) (lock : Lock) (levels : LockShardLevels) (shard : LockShardId) : List Entry :=
  Lock.sortedEntries (lock.entries.filter fun entry => LockShardId.forPath blake3 entry.path levels = shard)

theorem mem_bucketRows {entry : Entry} :
    entry ∈ bucketRows blake3 lock levels shard ↔ entry ∈ lock.entries ∧ LockShardId.forPath blake3 entry.path levels = shard := by
  rw [bucketRows, (sortedEntries_perm _).mem_iff, List.mem_filter, decide_eq_true_eq]

theorem sortedEntries_eq_nil_iff {entries : List Entry} : Lock.sortedEntries entries = [] ↔ entries = [] :=
  ⟨fun empty => (empty ▸ (sortedEntries_perm entries).symm).eq_nil, fun empty => by rw [empty, Lock.sortedEntries, List.mergeSort_nil]⟩

theorem entriesOrdered_filter {entries : List Entry} (ordered : entriesOrdered entries) (keep : Entry → Bool) :
    entriesOrdered (entries.filter keep) :=
  decide_eq_true ((of_decide_eq_true ordered).filter keep)

/-- The buckets are the shards with entries, each with its entries in path order. -/
theorem get?_prepareShardedBuckets :
    (prepareShardedBuckets blake3 lock levels).get? shard =
      if bucketRows blake3 lock levels shard = [] then none else some (bucketRows blake3 lock levels shard) := by
  have filtered : ((lock.entries.map fun entry => (LockShardId.forPath blake3 entry.path levels, entry)).filter
      fun row => row.1 = shard).map Prod.snd =
      lock.entries.filter fun entry => LockShardId.forPath blake3 entry.path levels = shard := by
    rw [List.filter_map, List.map_map]
    exact List.map_id _
  have empty : ((lock.entries.map fun entry => (LockShardId.forPath blake3 entry.path levels, entry)).filter
      fun row => row.1 = shard) = [] ↔
      (lock.entries.filter fun entry => LockShardId.forPath blake3 entry.path levels = shard) = [] := by
    rw [← filtered, List.map_eq_nil_iff]
  unfold prepareShardedBuckets bucketRows
  dsimp only
  split_ifs with ordered none none
  · rw [get?_foldl_pushRow, if_pos (empty.mpr (sortedEntries_eq_nil_iff.mp none)), SortedMap.get?_empty]
  · rw [get?_foldl_pushRow, if_neg fun nil => none (sortedEntries_eq_nil_iff.mpr (empty.mp nil)), filtered,
      sortedEntries_of_ordered (entriesOrdered_filter ordered _)]
    rfl
  · rw [SortedMap.get?_mapValues, get?_foldl_pushRow, if_pos (empty.mpr (sortedEntries_eq_nil_iff.mp none)), SortedMap.get?_empty]
    rfl
  · rw [SortedMap.get?_mapValues, get?_foldl_pushRow, if_neg fun nil => none (sortedEntries_eq_nil_iff.mpr (empty.mp nil)), filtered]
    rfl

/-! ## Sharded saves -/

/-- A write changes its own file. -/
theorem ShardTree.get?_write (tree : ShardTree) (nested : shard.isFlat = false) (text : Str) (other : LockShardId) :
    (tree.write shard nested text).files.get? other = if shard = other then some text else tree.files.get? other := by
  rw [write, SortedMap.get?_insert]
  split_ifs <;> rfl

/-- Writing buckets of deep shards replaces exactly their files. -/
theorem foldlM_writeBucket {buckets : List (LockShardId × List Entry)} (deep : ∀ bucket ∈ buckets, bucket.1.isFlat = false)
    (distinct : (buckets.map Prod.fst).Nodup) (tree : ShardTree) :
    ∃ written, buckets.foldlM writeBucket tree = .ok written ∧
      (∀ bucket ∈ buckets, written.files.get? bucket.1 = some (render bucket.2)) ∧
      ∀ shard ∉ buckets.map Prod.fst, written.files.get? shard = tree.files.get? shard := by
  induction buckets generalizing tree with
  | nil => exact ⟨tree, rfl, by simp, fun _ _ => rfl⟩
  | cons bucket buckets ih =>
    have nested := deep bucket List.mem_cons_self
    rw [List.map_cons, List.nodup_cons] at distinct
    obtain ⟨written, ran, own, others⟩ := ih (fun other later => deep other (List.mem_cons_of_mem _ later)) distinct.2
      (tree.write bucket.1 nested (render bucket.2))
    refine ⟨written, ?_, ?_, ?_⟩
    · rw [List.foldlM_cons, writeBucket, dif_pos nested, renderOrderedEntries_eq]
      exact ran
    · intro other member
      rcases List.mem_cons.mp member with rfl | later
      · rw [others _ distinct.1, ShardTree.get?_write, if_pos rfl]
      · exact own other later
    · intro shard outside
      rw [List.map_cons, List.mem_cons, not_or] at outside
      rw [others shard outside.2, ShardTree.get?_write, if_neg (Ne.symm outside.1)]

theorem isFlat_forPath {path : GatPath} : (LockShardId.forPath blake3 path levels).isFlat = levels.isFlat := by
  rw [LockShardId.isFlat, LockShardId.levels_forPath]

/-- The files a sharded save leaves: one rendered file for each shard with entries. -/
theorem saveSharded_eq (blake3 : ContentHash) (lock : Lock) (deep : levels.isFlat = false) (tree : LockTree) :
    ∃ saved, saveSharded blake3 lock tree levels = .ok (.directory saved) ∧ ∀ shard, saved.files.get? shard =
      if bucketRows blake3 lock levels shard = [] then none else some (render (bucketRows blake3 lock levels shard)) := by
  have bucket {bucket : LockShardId × List Entry} (member : bucket ∈ (prepareShardedBuckets blake3 lock levels).entries) :
      bucketRows blake3 lock levels bucket.1 ≠ [] ∧ bucketRows blake3 lock levels bucket.1 = bucket.2 := by
    have found := SortedMap.get?_of_mem member
    rw [get?_prepareShardedBuckets] at found
    split_ifs at found with none
    exact ⟨none, Option.some.inj found⟩
  have nested : ∀ bucket ∈ (prepareShardedBuckets blake3 lock levels).entries, bucket.1.isFlat = false := by
    intro listed member
    obtain ⟨entry, inside⟩ := List.exists_mem_of_ne_nil _ (bucket member).1
    rw [← (mem_bucketRows.mp inside).2, isFlat_forPath, deep]
  have distinct : ((prepareShardedBuckets blake3 lock levels).entries.map Prod.fst).Nodup :=
    List.pairwise_map.mpr ((prepareShardedBuckets blake3 lock levels).sorted.imp fun below => below.ne)
  unfold saveSharded
  obtain ⟨written, ran, own, -⟩ := foldlM_writeBucket nested distinct tree.createDirectory
  refine ⟨written.removeStale ((prepareShardedBuckets blake3 lock levels).entries.map Prod.fst), ?_, fun shard => ?_⟩
  · dsimp only
    rw [ran]
    rfl
  · rw [ShardTree.removeStale, SortedMap.get?_filter]
    cases found : (prepareShardedBuckets blake3 lock levels).get? shard with
    | none =>
      have empty : bucketRows blake3 lock levels shard = [] := by
        rw [get?_prepareShardedBuckets] at found
        by_contra some
        rw [if_neg some] at found
        cases found
      rw [if_pos empty]
      refine Option.eq_none_iff_forall_ne_some.mpr fun text kept => ?_
      obtain ⟨listed, member, here⟩ := List.mem_map.mp (of_decide_eq_true (Option.filter_eq_some_iff.mp kept).2)
      exact SortedMap.get?_eq_none_iff.mp found listed member here
    | some rows =>
      have member := SortedMap.get?_eq_some_iff.mp found
      obtain ⟨some, same⟩ := bucket member
      rw [if_neg some, same, own _ member, Option.filter_some, if_pos]
      exact decide_eq_true (List.mem_map.mpr ⟨_, member, rfl⟩)

/-! ## Stored trees -/

/-- The files are the rendered rows of their shards, and a shard without rows has none. -/
def ShardFiles.Rendered (files : ShardFiles) (rows : LockShardId → List Entry) : Prop :=
  ∀ shard, files.get? shard = if rows shard = [] then none else some (render (rows shard))

variable {files : ShardFiles} {rows : LockShardId → List Entry}

theorem ShardFiles.Rendered.of_mem (rendered : files.Rendered rows) {file : LockShardId × Str} (member : file ∈ files.entries) :
    rows file.1 ≠ [] ∧ file.2 = render (rows file.1) := by
  have found := rendered file.1
  rw [SortedMap.get?_of_mem member] at found
  split_ifs at found with none
  exact ⟨none, Option.some.inj found⟩

theorem ShardFiles.Rendered.eq_nil (rendered : files.Rendered rows) (missing : files.get? shard = none) : rows shard = [] := by
  by_contra some
  have found := rendered shard
  rw [missing, if_neg some] at found
  cases found

/-- Rendered rows in their places are stored when they have no ancestor pair. -/
theorem ShardFiles.Rendered.stores (rendered : files.Rendered rows) (placed : Placed blake3 levels rows)
    (sorted : ∀ shard, StrictlySorted (rows shard))
    (separated : Separated Byte.slash (files.allPaths rows)) : files.Stores blake3 levels rows where
  holds := {
    depth := by
      intro file member
      obtain ⟨entry, inside⟩ := List.exists_mem_of_ne_nil _ (rendered.of_mem member).1
      rw [← placed file.1 entry inside, LockShardId.levels_forPath]
    document := by
      intro file member
      rw [(rendered.of_mem member).2]
      refine FileHolds.render (sorted file.1) (separated.subset fun path inside => ?_)
      obtain ⟨entry, listed, rfl⟩ := List.mem_map.mp inside
      exact List.mem_map_of_mem (List.mem_flatMap.mpr ⟨file, member, listed⟩)
    absent := fun _ missing => rendered.eq_nil missing }
  placed := placed
  separated := separated

namespace LockTree

variable {kernel : Kernel} {tree : LockTree}

theorem mapErr_eq_ok_iff {ε ε' α : Type} {wrap : ε → ε'} {result : Outcome ε α} {value : α} :
    result.mapErr wrap = .ok value ↔ result = .ok value := by
  rcases result with (_ | _) | _ <;> simp [Outcome.mapErr, Outcome.fail, Outcome.panic]

theorem loadFile_file_eq_ok_iff {text : Str} :
    (file text).loadFile kernel = .ok lock ↔ FileHolds text lock.entries := by
  rw [loadFile, readToString]
  by_cases valid : Utf8.Valid text
  · rw [if_pos valid]
    change (Lock.parse kernel text).mapErr _ = _ ↔ _
    rw [mapErr_eq_ok_iff, Lock.parse_eq_ok_iff kernel valid]
    exact ⟨fun document => ⟨valid, document⟩, FileHolds.document⟩
  · rw [if_neg valid]
    exact iff_of_false (Outcome.fail_ne_ok _ _) fun holds => valid holds.utf8

theorem allRows_file (text : Str) (rows : LockShardId → List Entry) :
    (file text).shardFiles.allRows rows = rows LockShardId.flat := by
  change [(LockShardId.flat, text)].flatMap _ = _
  simp

/-- The flat file is the one file of its tree. -/
theorem stores_file_iff {text : Str} :
    (file text).shardFiles.Stores blake3 levels rows ↔
      levels = LockShardLevels.FLAT ∧ FileHolds text (rows LockShardId.flat) ∧ ∀ shard, shard ≠ LockShardId.flat → rows shard = [] := by
  have found (shard : LockShardId) :
      (file text).shardFiles.get? shard = if LockShardId.flat = shard then some text else none := by
    rw [shardFiles, SortedMap.get?_insert, SortedMap.get?_empty]
    split_ifs <;> rfl
  have here : (LockShardId.flat, text) ∈ (file text).shardFiles.entries :=
    SortedMap.get?_eq_some_iff.mp (by rw [found, if_pos rfl])
  have only {entry : LockShardId × Str} (member : entry ∈ (file text).shardFiles.entries) : entry = (LockShardId.flat, text) := by
    have same := SortedMap.get?_of_mem member
    rw [found] at same
    split_ifs at same with flat
    exact Prod.ext flat.symm (Option.some.inj same).symm
  constructor
  · intro stores
    refine ⟨(stores.holds.depth _ here).symm, stores.holds.document _ here, fun shard other => stores.holds.absent shard ?_⟩
    rw [found, if_neg (Ne.symm other)]
  · rintro ⟨rfl, holds, others⟩
    refine ⟨⟨fun entry member => ?_, fun entry member => ?_, fun shard missing => others shard ?_⟩, ?_, ?_⟩
    · rw [only member]
      rfl
    · rw [only member]
      exact holds
    · rintro rfl
      rw [found, if_pos rfl] at missing
      cases missing
    · intro shard entry member
      by_contra misplaced
      have flat : shard ≠ LockShardId.flat := fun same => misplaced (same ▸ LockShardId.eq_flat (LockShardId.levels_forPath ..))
      rw [others shard flat] at member
      cases member
    · rw [ShardFiles.allPaths, allRows_file]
      exact holds.separated

/-- A tree loads exactly when its files are stored, and returns their rows. -/
theorem loadTree_eq_ok_iff :
    tree.loadTree kernel blake3 = .ok lock ↔
      ∃ levels rows, tree.shardFiles.Stores blake3 levels rows ∧ lock = ⟨tree.shardFiles.allRows rows⟩ := by
  cases tree with
  | missing =>
    change Except.ok (⟨[]⟩ : Lock) = .ok lock ↔ _
    rw [Except.ok.injEq]
    constructor
    · rintro rfl
      refine ⟨LockShardLevels.FLAT, fun _ => [], ⟨⟨?_, ?_, fun _ _ => rfl⟩, fun _ _ member => (nomatch member), separated_nil⟩, rfl⟩
      · exact fun _ member => (nomatch member)
      · exact fun _ member => (nomatch member)
    · rintro ⟨_, _, _, rfl⟩
      rfl
  | file text =>
    refine loadFile_file_eq_ok_iff.trans ?_
    constructor
    · intro holds
      refine ⟨LockShardLevels.FLAT, fun shard => if shard = LockShardId.flat then lock.entries else [],
        stores_file_iff.mpr ⟨rfl, ?_, fun shard other => if_neg other⟩, ?_⟩
      · rw [if_pos rfl]
        exact holds
      · rw [allRows_file, if_pos rfl]
    · rintro ⟨levels, rows, stores, rfl⟩
      rw [allRows_file]
      exact (stores_file_iff.mp stores).2.1
  | directory shards =>
    change (loadSharded kernel blake3 shards.files).mapErr _ = _ ↔ _
    rw [mapErr_eq_ok_iff, loadSharded_eq_ok_iff]
    rfl

end LockTree

end Gat
