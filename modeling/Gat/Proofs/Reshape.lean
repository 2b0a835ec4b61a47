import Gat.Model.Reshape
import Gat.Proofs.LockTree

/-! # Saves, staging and cleanup

A save leaves the rendered buckets of its lock. What it leaves loads as the lock again, and its shape is read back
unless the lock has no rows and no file is left to read it from.
-/

namespace Gat

open LockFormat AncestorFree

variable {kernel : Kernel} {blake3 : ContentHash} {first : FirstFile} {levels target : LockShardLevels} {lock : Lock}

/-- What a save of a lock leaves. -/
inductive Saved (blake3 : ContentHash) (lock : Lock) (levels : LockShardLevels) : LockTree → Prop where
  | flat (flat : levels.isFlat = true) : Saved blake3 lock levels (.file (render (Lock.sortedEntries lock.entries)))
  | sharded (deep : levels.isFlat = false) {shards : ShardTree} (rendered : shards.files.Rendered (bucketRows blake3 lock levels)) :
      Saved blake3 lock levels (.directory shards)

/-! ## What saves leave -/

theorem strictlySorted_bucketRows (unique : lock.UniquePaths) (shard : LockShardId) :
    StrictlySorted (bucketRows blake3 lock levels shard) :=
  sortedEntries_strictlySorted (unique.sublist (List.filter_sublist.map _))

theorem placed_bucketRows : Placed blake3 levels (bucketRows blake3 lock levels) :=
  fun _ _ member => (mem_bucketRows.mp member).2

theorem saveFileAtomic_eq {tree : LockTree} (replaceable : ∀ shards, tree ≠ .directory shards) :
    saveFileAtomic lock tree = .ok (.file (render (Lock.sortedEntries lock.entries))) := by
  rw [saveFileAtomic, renderEntries_eq, Outcome.ok_bind]
  cases tree with
  | missing => rfl
  | file => rfl
  | directory shards => exact absurd rfl (replaceable shards)

theorem saveSharded_saved (deep : levels.isFlat = false) (tree : LockTree) :
    ∃ saved, saveSharded blake3 lock tree levels = .ok saved ∧ Saved blake3 lock levels saved := by
  obtain ⟨shards, ran, rendered⟩ := saveSharded_eq blake3 lock deep tree
  exact ⟨.directory shards, ran, .sharded deep rendered⟩

theorem saveForShape_saved (blake3 : ContentHash) (lock : Lock) {tree : LockTree} (replaceable : levels.isFlat = true → ∀ shards, tree ≠ .directory shards) :
    ∃ saved, saveForShape blake3 lock tree levels = .ok saved ∧ Saved blake3 lock levels saved := by
  unfold saveForShape
  split_ifs with flat
  · exact ⟨_, saveFileAtomic_eq (replaceable flat), .flat flat⟩
  · exact saveSharded_saved (by simpa using flat) tree

theorem save_saved (blake3 : ContentHash) (lock : Lock) (levels : LockShardLevels) (tree : LockTree) : ∃ saved, save blake3 lock tree levels = .ok saved ∧ Saved blake3 lock levels saved := by
  unfold save
  split_ifs with flat
  · cases tree with
    | missing => exact ⟨_, saveFileAtomic_eq nofun, .flat flat⟩
    | file => exact ⟨_, saveFileAtomic_eq nofun, .flat flat⟩
    | directory => exact ⟨_, saveFileAtomic_eq nofun, .flat flat⟩
  · exact saveSharded_saved (by simpa using flat) tree

theorem stage_saved (blake3 : ContentHash) (lock : Lock) (levels : LockShardLevels) :
    ∃ saved, LockRoot.stage blake3 lock levels = .ok saved ∧ Saved blake3 lock levels saved := by
  unfold LockRoot.stage
  split_ifs with flat
  · exact ⟨_, saveFileAtomic_eq nofun, .flat flat⟩
  · exact saveSharded_saved (by simpa using flat) .missing

namespace Saved

variable {tree : LockTree}

/-- A saved well-formed lock is stored, every row in the shard its path hashes to. -/
theorem stores (saved : Saved blake3 lock levels tree) (valid : lock.WellFormed) :
    tree.shardFiles.Stores blake3 levels (bucketRows blake3 lock levels) := by
  have included {entries : List Entry} (inside : ∀ entry ∈ entries, entry ∈ lock.entries) :
      Separated Byte.slash (entries.map fun entry => entry.path.text) := by
    refine valid.separated.subset fun path member => ?_
    obtain ⟨entry, listed, rfl⟩ := List.mem_map.mp member
    exact List.mem_map_of_mem (inside entry listed)
  cases saved with
  | flat flat =>
    obtain rfl := LockShardLevels.isFlat_iff.mp flat
    have whole : bucketRows blake3 lock LockShardLevels.FLAT LockShardId.flat = Lock.sortedEntries lock.entries := by
      rw [bucketRows, List.filter_eq_self.mpr]
      exact fun entry _ => decide_eq_true (LockShardId.eq_flat (LockShardId.levels_forPath ..))
    refine LockTree.stores_file_iff.mpr ⟨rfl, ?_, fun shard other => ?_⟩
    · rw [whole]
      exact FileHolds.render (sortedEntries_strictlySorted valid.unique)
        (included fun entry member => (sortedEntries_perm _).mem_iff.mp member)
    · refine List.eq_nil_iff_forall_not_mem.mpr fun entry member => other ?_
      rw [← (mem_bucketRows.mp member).2]
      exact LockShardId.eq_flat (LockShardId.levels_forPath ..)
  | sharded deep rendered =>
    refine rendered.stores placed_bucketRows (strictlySorted_bucketRows valid.unique) (included fun entry member => ?_)
    obtain ⟨file, -, inside⟩ := List.mem_flatMap.mp member
    exact (mem_bucketRows.mp inside).1

/-- Loading what was saved returns a lock with the same objects. -/
theorem load (kernel : Kernel) (saved : Saved blake3 lock levels tree) (valid : lock.WellFormed) :
    ∃ loaded, tree.loadTree kernel blake3 = .ok loaded ∧ loaded.UniquePaths ∧ ∀ entry, entry ∈ loaded.entries ↔ entry ∈ lock.entries := by
  have stores := saved.stores valid
  refine ⟨_, LockTree.loadTree_eq_ok_iff.mpr ⟨levels, _, stores, rfl⟩, stores.holds.nodup_of_placed stores.placed, fun entry => ?_⟩
  rw [stores.holds.mem_allRows_iff_of_placed stores.placed, mem_bucketRows]
  exact and_iff_left rfl

/-- The shape that was saved is read back unless a sharded lock has no rows. -/
theorem onDiskShapeAt (first : FirstFile) (saved : Saved blake3 lock levels tree) :
    tree.onDiskShapeAt first = if lock.entries = [] ∧ levels.isFlat = false then none else some levels := by
  cases saved with
  | flat flat =>
    rw [if_neg (by simp [flat]), LockTree.onDiskShapeAt, LockShardLevels.isFlat_iff.mp flat]
  | sharded deep rendered =>
    rename_i shards
    rw [LockTree.onDiskShapeAt]
    split_ifs with empty
    · have none : first.find shards.files = none := by
        refine Option.eq_none_iff_forall_ne_some.mpr fun shard found => ?_
        obtain ⟨text, isFile⟩ := first.find_mem _ _ found
        obtain ⟨some, -⟩ := rendered.of_mem (SortedMap.get?_eq_some_iff.mp isFile)
        refine some (List.eq_nil_iff_forall_not_mem.mpr fun entry member => ?_)
        have inside := (mem_bucketRows.mp member).1
        rw [empty.1] at inside
        cases inside
      rw [none]
      rfl
    · obtain ⟨entry, member⟩ := List.exists_mem_of_ne_nil lock.entries fun none => empty ⟨none, deep⟩
      have inside : entry ∈ bucketRows blake3 lock levels (LockShardId.forPath blake3 entry.path levels) :=
        mem_bucketRows.mpr ⟨member, rfl⟩
      cases found : first.find shards.files with
      | none =>
        have missing : bucketRows blake3 lock levels (LockShardId.forPath blake3 entry.path levels) = [] :=
          rendered.eq_nil (by rw [first.find_none _ found]; rfl)
        rw [missing] at inside
        cases inside
      | some shard =>
        obtain ⟨text, isFile⟩ := first.find_mem _ _ found
        obtain ⟨some, -⟩ := rendered.of_mem (SortedMap.get?_eq_some_iff.mp isFile)
        obtain ⟨other, listed⟩ := List.exists_mem_of_ne_nil _ some
        have place : _ = shard := (mem_bucketRows.mp listed).2
        rw [Option.map_some, ← place, LockShardId.levels_forPath]

/-- A saved flat lock is a file. -/
theorem replaceable (saved : Saved blake3 lock levels tree) (flat : levels.isFlat = true) (shards : ShardTree) :
    tree ≠ .directory shards := by
  rintro rfl
  cases saved with
  | sharded deep => exact Bool.false_ne_true (deep.symm.trans flat)

end Saved

/-! ## Shapes of trees that load -/

/-- A tree with a shape is loaded in that shape. -/
theorem LockTree.loadShapeAt_eq {tree : LockTree} (shape : tree.onDiskShapeAt first = some levels) :
    tree.loadShapeAt kernel blake3 levels = tree.loadTree kernel blake3 := by
  cases tree with
  | missing => cases shape
  | file text =>
    obtain rfl := Option.some.inj shape
    rfl
  | directory shards =>
    obtain ⟨shard, found, rfl⟩ := Option.map_eq_some_iff.mp shape
    obtain ⟨text, isFile⟩ := first.find_mem _ _ found
    have deep : shard.levels.isFlat = false := shards.nested _ (SortedMap.get?_eq_some_iff.mp isFile)
    rw [LockTree.loadShapeAt, deep]
    rfl

/-- Only a file has the flat shape. -/
theorem LockTree.replaceable_of_shape {tree : LockTree} (shape : tree.onDiskShapeAt first = some levels) (flat : levels.isFlat = true)
    (shards : ShardTree) : tree ≠ .directory shards := by
  rintro rfl
  obtain ⟨shard, found, rfl⟩ := Option.map_eq_some_iff.mp shape
  obtain ⟨text, isFile⟩ := first.find_mem _ _ found
  exact Bool.false_ne_true ((shards.nested _ (SortedMap.get?_eq_some_iff.mp isFile)).symm.trans flat)

/-! ## Maps -/

/-- The map of a lock with unique paths is its entries. -/
theorem get?_oidMap (unique : lock.UniquePaths) {path : GatPath} {oid : Oid} :
    (LockRoot.oidMap lock).get? path = some oid ↔ ⟨path, oid⟩ ∈ lock.entries := by
  unfold LockRoot.oidMap SortedMap.insert
  constructor
  · intro found
    by_cases listed : ∃ entry ∈ lock.entries, entry.path = path
    · obtain ⟨entry, member, rfl⟩ := listed
      rw [SortedMap.get?_foldl_alter_of_mem Entry.path unique .empty member] at found
      cases found
      exact member
    · rw [SortedMap.get?_foldl_alter_of_forall_ne Entry.path .empty fun entry member same => listed ⟨entry, member, same⟩] at found
      cases found
  · intro member
    exact SortedMap.get?_foldl_alter_of_mem Entry.path unique .empty member

/-- Locks with unique paths and the same entries have one map. -/
theorem oidMap_congr {other : Lock} (unique : lock.UniquePaths) (otherUnique : other.UniquePaths)
    (same : ∀ entry, entry ∈ other.entries ↔ entry ∈ lock.entries) : LockRoot.oidMap other = LockRoot.oidMap lock := by
  refine SortedMap.ext fun path => Option.ext fun oid => ?_
  rw [get?_oidMap unique, get?_oidMap otherUnique, same]

/-! ## The transaction -/

/-- A staged lock passes its validation unless it is empty and sharded. -/
theorem validateStaged_saved (kernel : Kernel) (first : FirstFile) {staged : LockTree} (saved : Saved blake3 lock target staged) (valid : lock.WellFormed) :
    LockRoot.validateStaged kernel blake3 first lock target staged =
      if lock.entries = [] ∧ target.isFlat = false then Outcome.fail (.stagedShapeMismatch none target) else .ok () := by
  unfold LockRoot.validateStaged
  dsimp only
  have shape := saved.onDiskShapeAt first
  by_cases empty : lock.entries = [] ∧ target.isFlat = false
  · rw [if_pos empty] at shape ⊢
    rw [shape, if_pos nofun]
  · rw [if_neg empty] at shape ⊢
    obtain ⟨loaded, ran, unique, same⟩ := saved.load kernel valid
    rw [if_neg (not_not.mpr shape), LockTree.loadShapeAt_eq shape, ran]
    change (if LockRoot.oidMap loaded ≠ LockRoot.oidMap lock then _ else _) = _
    rw [if_neg (not_not.mpr (oidMap_congr valid.unique unique same))]
    rfl

namespace LockRoot

variable {root : LockRoot}

/-- No record is malformed, and none is left beside a live lock without a shape. -/
def NoPending (first : FirstFile) (root : LockRoot) : Prop :=
  ∀ txn ∈ root.txns.entries, txn.2.record ≠ .invalid ∧ (root.live.onDiskShapeAt first = none → txn.2.record = .absent)

theorem failIfPendingReshape_eq_ok (absent : ∀ txn ∈ root.txns.entries, txn.2.record = .absent) :
    root.failIfPendingReshape = .ok () := by
  unfold failIfPendingReshape
  generalize root.txns.entries = txns at absent
  induction txns with
  | nil => rfl
  | cons txn txns ih =>
    rw [List.forall_mem_cons] at absent
    rw [List.forM_cons, absent.1]
    exact ih absent.2

theorem onDiskShape_eq (quiet : root.NoPending first) : root.onDiskShape first = .ok (root.live.onDiskShapeAt first) := by
  unfold onDiskShape
  cases shape : root.live.onDiskShapeAt first with
  | none =>
    rw [failIfPendingReshape_eq_ok fun txn member => (quiet txn member).2 shape]
    rfl
  | some => rfl

/-- Beside a valid live lock every transaction with a valid record is discarded. -/
theorem cleanupCompletedReshape_eq (quiet : root.NoPending first) {live : Lock} (loads : root.live.loadTree kernel blake3 = .ok live)
    {shape : OnDiskShape} (shaped : root.live.onDiskShapeAt first = some shape) :
    ∃ txns, root.cleanupCompletedReshape kernel blake3 first = .ok ⟨root.live, txns⟩ := by
  unfold cleanupCompletedReshape
  split_ifs with none
  · exact ⟨root.txns, rfl⟩
  · have inspected : root.inspectLive kernel blake3 first = .ok (.valid shape live.entries.length) := by
      unfold inspectLive
      cases isLive : root.live with
      | missing =>
        rw [isLive] at shaped
        cases shaped
      | file text =>
        rw [isLive] at shaped loads
        dsimp only
        rw [shaped]
        dsimp only
        rw [LockTree.loadShapeAt_eq shaped, loads]
        rfl
      | directory shards =>
        rw [isLive] at shaped loads
        dsimp only
        rw [shaped]
        dsimp only
        rw [LockTree.loadShapeAt_eq shaped, loads]
        rfl
    have discarded (entries : List (TxnId × TxnDir)) (readable : ∀ txn ∈ entries, txn.2.record ≠ .invalid)
        (txns : SortedMap TxnId TxnDir) : ∃ rest, entries.foldlM (cleanupCompletedTxnDir true) txns = .ok rest := by
      induction entries generalizing txns with
      | nil => exact ⟨txns, rfl⟩
      | cons txn entries ih =>
        rw [List.forall_mem_cons] at readable
        obtain ⟨rest, ran⟩ := ih readable.2 (txns.erase txn.1)
        refine ⟨rest, ?_⟩
        rw [List.foldlM_cons, cleanupCompletedTxnDir]
        cases record : txn.2.record with
        | absent => exact ran
        | invalid => exact absurd record readable.1
        | prepared => exact ran
    obtain ⟨txns, ran⟩ := discarded root.txns.entries (fun txn member => (quiet txn member).1) root.txns
    refine ⟨txns, ?_⟩
    rw [inspected, Outcome.ok_bind]
    dsimp only
    rw [Outcome.pure_eq_ok, Outcome.ok_bind, ran]
    rfl

/-- A reshape of a valid live lock swaps in the staged lock unless that is empty and sharded. -/
theorem reshapeTransactional_cases (target : OnDiskShape) (quiet : root.NoPending first) {live : Lock} (loads : root.live.loadTree kernel blake3 = .ok live)
    {shape : OnDiskShape} (shaped : root.live.onDiskShapeAt first = some shape) (other : shape ≠ target) (valid : lock.WellFormed) :
    if lock.entries = [] ∧ target.isFlat = false then
      root.reshapeTransactional kernel blake3 first lock target = Outcome.fail (.stagedShapeMismatch none target)
    else ∃ staged txns, root.reshapeTransactional kernel blake3 first lock target = .ok ⟨staged, txns⟩ ∧
      Saved blake3 lock target staged := by
  obtain ⟨txns, cleaned⟩ := cleanupCompletedReshape_eq quiet loads shaped
  obtain ⟨staged, ran, saved⟩ := stage_saved blake3 lock target
  have validated := validateStaged_saved kernel first saved valid
  unfold reshapeTransactional
  rw [cleaned, Outcome.ok_bind]
  dsimp only
  rw [shaped]
  dsimp only
  rw [if_neg other, ran, Outcome.ok_bind, validated]
  split_ifs with empty
  · rfl
  · exact ⟨staged, txns, rfl, saved⟩

end LockRoot

end Gat
