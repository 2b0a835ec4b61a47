import Gat.Proofs.LockTree
import Gat.Proofs.MergeDriver

/-! # Merging shard by shard agrees with merging the whole lock

Git merges each shard file on its own. The path conflicts of all shards are those of the whole merge. When
every shard merges, the files hold the resolved map with each row in its shard, and the complete load then
finds exactly the ancestor pairs that the whole merge reports, also those across shards.
-/

namespace Gat

open AncestorFree

/-- A complete load of shard files of this depth returns the rows of the lock. -/
def StoredAt (kernel : Kernel) (blake3 : ContentHash) (levels : LockShardLevels) (files : ShardFiles) (lock : Lock) :
    Prop :=
  (∀ file ∈ files.entries, file.1.levels = levels) ∧
    ∃ loaded, loadSharded kernel blake3 files = .ok loaded ∧ loaded.entries.Perm lock.entries

/-- The path conflicts that merging a shard reports. -/
def shardConflicts : Outcome MergeDriverError Unit → List Conflict
  | .error (.error (.semanticConflict (.paths conflicts))) => conflicts
  | _ => []

/-- The path conflicts that the whole merge reports. -/
def wholeConflicts : Except MergeConflict Lock → List Conflict
  | .error (.paths conflicts) => conflicts
  | _ => []

section Specification

variable (kernel : Kernel) (blake3 : ContentHash) (levels : LockShardLevels) (ancestor ours theirs : Lock)

/-- The files hold the resolved map of the three locks, every row in its shard, and load as the whole merge. -/
structure MergedSpec (merged : ShardFiles) : Prop where
  rows : ∃ rows : LockShardId → List Entry,
    (∀ id text, merged.get? id = some text → id.levels = levels ∧ Lock.parse kernel text = .ok ⟨rows id⟩) ∧
    (∀ id, merged.get? id = none → rows id = []) ∧
    (∀ id, ∀ entry ∈ rows id, LockShardId.forPath blake3 entry.path levels = id) ∧
    ∀ path oid, (∃ id, ⟨path, oid⟩ ∈ rows id) ↔
      Resolves (ancestor.oidAt path) (ours.oidAt path) (theirs.oidAt path) (some oid)
  loads_iff : (∃ loaded, loadSharded kernel blake3 merged = .ok loaded) ↔
    ∃ lock, mergeThreeWay ancestor ours theirs = .ok lock
  loads_eq : ∀ loaded lock, loadSharded kernel blake3 merged = .ok loaded →
    mergeThreeWay ancestor ours theirs = .ok lock → loaded.entries.Perm lock.entries
  conflict_iff : (∃ above below,
      loadSharded kernel blake3 merged = Outcome.fail (.domain (.directoryPrefixConflict above below))) ↔
    ∃ above below, mergeThreeWay ancestor ours theirs = .error (.directoryPrefix above below)

/-- The results of merging every shard compared with the whole merge. -/
structure ShardedMergeSpec (writable : LockShardId → Bool) (ancestorFiles oursFiles theirsFiles : ShardFiles) : Prop where
  conflicts_iff : (∃ id conflicts, (mergeShard kernel writable ancestorFiles oursFiles theirsFiles id).1 =
      Outcome.fail (.semanticConflict (.paths conflicts))) ↔
    ∃ conflicts, mergeThreeWay ancestor ours theirs = .error (.paths conflicts)
  conflicts_perm : ((shardIds ancestorFiles oursFiles theirsFiles).flatMap fun id =>
      shardConflicts (mergeShard kernel writable ancestorFiles oursFiles theirsFiles id).1).Perm
    (wholeConflicts (mergeThreeWay ancestor ours theirs))
  failed : ∀ id, (mergeShard kernel writable ancestorFiles oursFiles theirsFiles id).1 ≠ .ok () →
    (mergeShards kernel writable ancestorFiles oursFiles theirsFiles).get? id = oursFiles.get? id
  merged : (∀ id, (mergeShard kernel writable ancestorFiles oursFiles theirsFiles id).1 = .ok ()) →
    MergedSpec kernel blake3 levels ancestor ours theirs (mergeShards kernel writable ancestorFiles oursFiles theirsFiles)

end Specification

section Merge

variable {kernel : Kernel} {blake3 : ContentHash} {levels : LockShardLevels} {writable : LockShardId → Bool}
  {ancestorFiles oursFiles theirsFiles : ShardFiles} {ancestor ours theirs : Lock}

namespace MergedFile

variable {oursFile : Option Str} {result : Outcome MergeDriverError Unit × Option Str}

private theorem shardConflicts_eq (merged : MergedFile ancestor ours theirs oursFile result) :
    shardConflicts result.1 = conflictsOf ancestor ours theirs := by
  cases merged with
  | contested => rfl
  | merged _ uncontested => exact uncontested.symm
  | refused error uncontested other =>
    rw [uncontested]
    unfold shardConflicts
    split
    · next conflicts same => exact absurd (by simpa [Outcome.fail] using same) (other conflicts)
    · rfl

private theorem conflictsOf_ne_nil (merged : MergedFile ancestor ours theirs oursFile result) {conflicts : List Conflict}
    (failed : result.1 = Outcome.fail (.semanticConflict (.paths conflicts))) : conflictsOf ancestor ours theirs ≠ [] := by
  cases merged with
  | contested reported => exact reported
  | merged => exact absurd failed.symm (Outcome.fail_ne_ok _ _)
  | refused error _ other => exact absurd (by simpa [Outcome.fail] using failed) (other conflicts)

private theorem fails_of_ne_nil (merged : MergedFile ancestor ours theirs oursFile result)
    (contested : conflictsOf ancestor ours theirs ≠ []) :
    result.1 = Outcome.fail (.semanticConflict (.paths (conflictsOf ancestor ours theirs))) := by
  cases merged with
  | contested => rfl
  | merged _ uncontested => exact absurd uncontested contested
  | refused _ uncontested => exact absurd uncontested contested

private theorem keeps (merged : MergedFile ancestor ours theirs oursFile result) (failed : result.1 ≠ .ok ()) :
    result.2 = oursFile := by
  cases merged with
  | contested => rfl
  | refused => rfl
  | merged => exact absurd rfl failed

private theorem holds_of_ok (merged : MergedFile ancestor ours theirs oursFile result) (succeeded : result.1 = .ok ()) :
    conflictsOf ancestor ours theirs = [] ∧ StageHolds result.2 (resolvedEntries ancestor ours theirs) := by
  cases merged with
  | contested => exact absurd succeeded (Outcome.fail_ne_ok _ _)
  | refused => exact absurd succeeded (Outcome.fail_ne_ok _ _)
  | merged file uncontested holds => exact ⟨uncontested, holds⟩

end MergedFile

/-- The whole merge reports paths exactly when there are conflicts, and then all of them. -/
private theorem wholeConflicts_eq :
    wholeConflicts (mergeThreeWay ancestor ours theirs) = conflictsOf ancestor ours theirs := by
  rw [mergeThreeWay_eq]
  by_cases contested : conflictsOf ancestor ours theirs ≠ []
  · rw [if_pos contested]
    rfl
  · rw [if_neg contested, not_not.mp contested]
    cases directoryPrefixConflict (resolvedEntries ancestor ours theirs) <;> rfl

private theorem wholePaths_iff : (∃ conflicts, mergeThreeWay ancestor ours theirs = .error (.paths conflicts)) ↔
    conflictsOf ancestor ours theirs ≠ [] := by
  rw [mergeThreeWay_eq]
  by_cases contested : conflictsOf ancestor ours theirs ≠ []
  · rw [if_pos contested]
    exact iff_of_true ⟨_, rfl⟩ contested
  · rw [if_neg contested]
    refine iff_of_false ?_ contested
    cases directoryPrefixConflict (resolvedEntries ancestor ours theirs) <;> simp

private theorem StoredAt.exists_rows {files : ShardFiles} {lock : Lock} (stored : StoredAt kernel blake3 levels files lock) :
    ∃ rows, files.Holds levels rows ∧ Placed blake3 levels rows ∧ SplitInto blake3 levels lock rows := by
  obtain ⟨depth, loaded, loads, perm⟩ := stored
  obtain ⟨levels', rows, stores, rfl⟩ := loadSharded_eq_ok_iff.mp loads
  have holds : files.Holds levels rows := { stores.holds with depth }
  have placed := stores.holds.placed_of_holds holds stores.placed
  exact ⟨rows, holds, placed, holds.splitInto placed perm⟩

/-- The merged shards hold the resolved entries of the whole, and load as the whole merge. -/
private theorem mergedSpec_of_holds {rows : LockShardId → List Entry} {merged : ShardFiles}
    (ancestorUnique : ancestor.UniquePaths) (oursUnique : ours.UniquePaths) (theirsUnique : theirs.UniquePaths)
    (uncontested : conflictsOf ancestor ours theirs = []) (holds : merged.Holds levels rows)
    (mem_iff : ∀ id entry, entry ∈ rows id ↔
      LockShardId.forPath blake3 entry.path levels = id ∧ entry ∈ resolvedEntries ancestor ours theirs) :
    MergedSpec kernel blake3 levels ancestor ours theirs merged := by
  have placed : Placed blake3 levels rows := fun id entry member => ((mem_iff id entry).mp member).1
  have sorted : StrictlySorted (resolvedEntries ancestor ours theirs) := resolvedEntries_sorted _
  have agree : ∀ entry, entry ∈ merged.allRows rows ↔ entry ∈ resolvedEntries ancestor ours theirs := by
    intro entry
    rw [holds.mem_allRows_iff_of_placed placed, mem_iff]
    exact and_iff_right rfl
  have noneContested : ∀ path, ¬Contested (ancestor.oidAt path) (ours.oidAt path) (theirs.oidAt path) := by
    intro path contested
    exact (conflictsOf_ne_nil_iff ancestorUnique oursUnique theirsUnique).mpr ⟨path, contested⟩ uncontested
  have separated_iff : Separated Byte.slash (merged.allPaths rows) ↔
      Separated Byte.slash ((resolvedEntries ancestor ours theirs).map fun entry => entry.path.text) :=
    ⟨fun free => free.subset (List.map_subset _ fun entry member => (agree entry).mpr member),
      fun free => free.subset (List.map_subset _ fun entry member => (agree entry).mp member)⟩
  have search := directoryPrefixConflict_spec sorted
  have whole := mergeThreeWay_eq ancestor ours theirs
  rw [if_neg (not_not.mpr uncontested)] at whole
  have located : ∃ rows : LockShardId → List Entry,
      (∀ id text, merged.get? id = some text → id.levels = levels ∧ Lock.parse kernel text = .ok ⟨rows id⟩) ∧
      (∀ id, merged.get? id = none → rows id = []) ∧
      (∀ id, ∀ entry ∈ rows id, LockShardId.forPath blake3 entry.path levels = id) ∧
      ∀ path oid, (∃ id, ⟨path, oid⟩ ∈ rows id) ↔
        Resolves (ancestor.oidAt path) (ours.oidAt path) (theirs.oidAt path) (some oid) := by
    refine ⟨rows, fun id text found => ?_, holds.absent, placed, fun path oid => ?_⟩
    · have listed := SortedMap.get?_eq_some_iff.mp found
      exact ⟨holds.depth _ listed, (holds.document _ listed).parse_eq kernel⟩
    · rw [← holds.mem_allRows_iff, agree, mem_resolvedEntries_iff ancestorUnique oursUnique theirsUnique,
        Versions.resolve_eq_some_iff]
      exact and_iff_right (noneContested path)
  rcases loadSharded_of_placed kernel holds placed with ⟨free, loads⟩ | ⟨overlap, above, below, fails⟩
  · cases found : directoryPrefixConflict (resolvedEntries ancestor ours theirs) with
    | some pair =>
      rw [found] at search
      exact absurd (separated_iff.mp free) fun free' => free' _ search.ancestor_mem _ search.descendant_mem search.isAncestor
    | none =>
      rw [found] at whole
      refine ⟨located, iff_of_true ⟨_, loads⟩ ⟨_, whole⟩, fun loaded lock first second => ?_, ?_⟩
      · rw [loads] at first
        rw [whole] at second
        cases first
        cases second
        have distinct {entries : List Entry} (unique : Lock.UniquePaths ⟨entries⟩) : entries.Nodup :=
          List.Nodup.of_map _ unique
        exact (List.perm_ext_iff_of_nodup (distinct (holds.nodup_of_placed placed)) (distinct sorted.uniquePaths)).mpr agree
      · refine iff_of_false ?_ (by simp [whole])
        rintro ⟨_, _, fails⟩
        rw [loads] at fails
        exact Outcome.fail_ne_ok _ _ fails.symm
  · cases found : directoryPrefixConflict (resolvedEntries ancestor ours theirs) with
    | none =>
      rw [found] at search
      exact absurd (separated_iff.mpr search) overlap
    | some pair =>
      rw [found] at whole
      refine ⟨located, iff_of_false ?_ (by simp [whole]), fun loaded lock first => ?_, iff_of_true ⟨_, _, fails⟩ ⟨_, _, whole⟩⟩
      · rintro ⟨loaded, loads⟩
        rw [fails] at loads
        exact Outcome.fail_ne_ok _ _ loads
      · rw [fails] at first
        exact absurd first (Outcome.fail_ne_ok _ _)

variable (ancestorStored : StoredAt kernel blake3 levels ancestorFiles ancestor)
  (oursStored : StoredAt kernel blake3 levels oursFiles ours) (theirsStored : StoredAt kernel blake3 levels theirsFiles theirs)
include ancestorStored oursStored theirsStored

/-- For locks stored in shards of one depth, merging every shard on its own gives the path conflicts of the
whole merge, leaves a failing shard alone, and otherwise gives files that load as the whole merge. -/
theorem sharded_merge (writable : LockShardId → Bool) :
    ShardedMergeSpec kernel blake3 levels ancestor ours theirs writable ancestorFiles oursFiles theirsFiles := by
  obtain ⟨ancestorRows, ancestorHolds, ancestorPlaced, ancestorSplit⟩ := ancestorStored.exists_rows
  obtain ⟨oursRows, oursHolds, oursPlaced, oursSplit⟩ := oursStored.exists_rows
  obtain ⟨theirsRows, theirsHolds, theirsPlaced, theirsSplit⟩ := theirsStored.exists_rows
  have merging (id : LockShardId) : MergedFile ⟨ancestorRows id⟩ ⟨oursRows id⟩ ⟨theirsRows id⟩ (oursFiles.get? id)
      (mergeShard kernel writable ancestorFiles oursFiles theirsFiles id) :=
    mergeFile_cases (ancestorHolds.stage id) (oursHolds.stage id) (theirsHolds.stage id)
  have shard_eq (id : LockShardId) : shardConflicts (mergeShard kernel writable ancestorFiles oursFiles theirsFiles id).1 =
      conflictsOf ⟨ancestorRows id⟩ ⟨oursRows id⟩ ⟨theirsRows id⟩ := (merging id).shardConflicts_eq
  have mem_iff (id : LockShardId) (conflict : Conflict) :
      conflict ∈ conflictsOf ⟨ancestorRows id⟩ ⟨oursRows id⟩ ⟨theirsRows id⟩ ↔
        LockShardId.forPath blake3 conflict.path levels = id ∧ conflict ∈ conflictsOf ancestor ours theirs :=
    mem_conflictsOf_shard_iff ancestorSplit oursSplit theirsSplit
  have covered : ∀ conflict ∈ conflictsOf ancestor ours theirs,
      LockShardId.forPath blake3 conflict.path levels ∈ shardIds ancestorFiles oursFiles theirsFiles := by
    intro conflict member
    by_contra absent
    have none := shard_eq (LockShardId.forPath blake3 conflict.path levels)
    rw [mergeShard_of_absent absent] at none
    exact absurd ((mem_iff _ conflict).mpr ⟨rfl, member⟩) (none ▸ List.not_mem_nil)
  refine ⟨?_, ?_, fun id failed => ?_, fun succeeded => ?_⟩
  · rw [wholePaths_iff]
    constructor
    · rintro ⟨id, conflicts, failed⟩
      obtain ⟨conflict, member⟩ := List.exists_mem_of_ne_nil _ ((merging id).conflictsOf_ne_nil failed)
      exact List.ne_nil_of_mem ((mem_iff id conflict).mp member).2
    · intro contested
      obtain ⟨conflict, member⟩ := List.exists_mem_of_ne_nil _ contested
      have inShard := (mem_iff _ conflict).mpr ⟨rfl, member⟩
      exact ⟨_, _, (merging _).fails_of_ne_nil (List.ne_nil_of_mem inShard)⟩
  · simp only [shard_eq]
    rw [wholeConflicts_eq]
    exact flatMap_conflictsOf_perm ancestorSplit oursSplit theirsSplit nodup_shardIds covered
  · rw [get?_mergeShards]
    exact (merging id).keeps failed
  · have resolvedAll (id : LockShardId) := (merging id).holds_of_ok (succeeded id)
    have uncontested : conflictsOf ancestor ours theirs = [] := by
      refine List.eq_nil_iff_forall_not_mem.mpr fun conflict member => ?_
      have inShard := (mem_iff _ conflict).mpr ⟨rfl, member⟩
      rw [(resolvedAll _).1] at inShard
      exact List.not_mem_nil inShard
    have holds : (mergeShards kernel writable ancestorFiles oursFiles theirsFiles).Holds levels
        fun id => resolvedEntries ⟨ancestorRows id⟩ ⟨oursRows id⟩ ⟨theirsRows id⟩ := by
      refine ShardFiles.holds_of_stages (fun id found => ?_) fun id => ?_
      · rw [get?_mergeShards] at found
        by_contra different
        refine found ?_
        rw [mergeShard_of_absent fun present => different ?_]
        rcases mem_shardIds_iff.mp present with listed | listed | listed
        · exact ancestorHolds.depth_of_get? listed
        · exact oursHolds.depth_of_get? listed
        · exact theirsHolds.depth_of_get? listed
      · rw [get?_mergeShards]
        exact (resolvedAll id).2
    exact mergedSpec_of_holds ancestorSplit.unique oursSplit.unique theirsSplit.unique uncontested holds
      fun id entry => mem_resolvedEntries_shard_iff ancestorSplit oursSplit theirsSplit

end Merge

/-! ## Two shards with sides that differ -/

namespace TwoShardSides

def first : LockShardId := LockShardId.forPath .sample .a .oneLevel

def second : LockShardId := LockShardId.forPath .sample .b .oneLevel

/-- The rows of the two shards. -/
def rows (a b control : Oid) (shard : LockShardId) : List Entry :=
  if shard = first then [⟨.a, a⟩] else if shard = second then [⟨.b, b⟩, ⟨.control, control⟩] else []

/-- Their files. -/
def files (a b control : Oid) : ShardFiles :=
  (SortedMap.empty.insert first (render [⟨.a, a⟩])).insert second (render [⟨.b, b⟩, ⟨.control, control⟩])

def ancestor : ShardFiles := files (.filled 1) (.filled 1) (.filled 1)

/-- One entry of the second shard is changed. -/
def ours : ShardFiles := files (.filled 1) (.filled 2) (.filled 1)

/-- The entry of the first shard and the other one of the second are changed. -/
def theirs : ShardFiles := files (.filled 4) (.filled 1) (.filled 6)

/-- The entry that our side changes is changed as well. -/
def contesting : ShardFiles := files (.filled 4) (.filled 5) (.filled 6)

theorem places : first ≠ second ∧ LockShardId.forPath .sample .control .oneLevel = second := by decide +kernel

variable (a b control : Oid)

theorem rows_first : rows a b control first = [⟨.a, a⟩] := if_pos rfl

theorem rows_second : rows a b control second = [⟨.b, b⟩, ⟨.control, control⟩] := by
  rw [rows, if_neg places.1.symm, if_pos rfl]

theorem sorted_rows (shard : LockShardId) : StrictlySorted (rows a b control shard) := by
  unfold rows
  split_ifs
  · exact List.pairwise_singleton ..
  · have below : GatPath.b < .control := by decide
    exact List.pairwise_pair.mpr below
  · exact List.Pairwise.nil

/-- The paths of the rows are among three that are not above each other. -/
theorem separated_of_rows {paths : List Str} (listed : ∀ path ∈ paths, ∃ shard, ∃ entry ∈ rows a b control shard, entry.path.text = path) :
    Separated Byte.slash paths := by
  have apart : Separated Byte.slash ([GatPath.a, .b, .control].map GatPath.text) := by decide
  refine apart.subset fun path member => ?_
  obtain ⟨shard, entry, inside, rfl⟩ := listed path member
  unfold rows at inside
  refine List.mem_map_of_mem ?_
  split_ifs at inside
  · simp [List.mem_singleton.mp inside]
  · rcases List.mem_pair.mp inside with rfl | rfl <;> simp
  · cases inside

theorem rendered : (files a b control).Rendered (rows a b control) := by
  intro shard
  rw [files, SortedMap.get?_insert, SortedMap.get?_insert, SortedMap.get?_empty]
  by_cases above : second = shard
  · rw [if_pos above, ← above, rows_second]
    rfl
  rw [if_neg above]
  by_cases below : first = shard
  · rw [if_pos below, ← below, rows_first]
    rfl
  · rw [if_neg below, rows, if_neg (Ne.symm below), if_neg (Ne.symm above), if_pos rfl]

theorem stores : (files a b control).Stores .sample .oneLevel (rows a b control) := by
  refine (rendered a b control).stores (fun shard entry member => ?_) (sorted_rows a b control) (separated_of_rows a b control fun path member => ?_)
  · unfold rows at member
    split_ifs at member with below above
    · rw [List.mem_singleton.mp member]
      exact below.symm
    · rcases List.mem_pair.mp member with rfl | rfl
      · exact above.symm
      · exact places.2.trans above.symm
    · cases member
  · obtain ⟨entry, listed, rfl⟩ := List.mem_map.mp member
    obtain ⟨file, -, inside⟩ := List.mem_flatMap.mp listed
    exact ⟨file.1, entry, inside, rfl⟩

theorem stored : StoredAt Kernel.scalar .sample .oneLevel (files a b control) ⟨[⟨.a, a⟩, ⟨.b, b⟩, ⟨.control, control⟩]⟩ := by
  have stores := stores a b control
  refine ⟨stores.holds.depth, _, loadSharded_eq_ok_iff.mpr ⟨_, _, stores, rfl⟩, ?_⟩
  have unique : Lock.UniquePaths ⟨[⟨.a, a⟩, ⟨.b, b⟩, ⟨.control, control⟩]⟩ := by
    change [GatPath.a, .b, .control].Nodup
    decide
  refine (List.perm_ext_iff_of_nodup (List.Nodup.of_map _ (stores.holds.nodup_of_placed stores.placed)) (List.Nodup.of_map _ unique)).mpr fun entry => ?_
  rw [stores.holds.mem_allRows_iff]
  constructor
  · rintro ⟨shard, member⟩
    unfold rows at member
    split_ifs at member
    · exact List.mem_cons.mpr (Or.inl (List.mem_singleton.mp member))
    · exact List.mem_cons_of_mem _ member
    · cases member
  · intro member
    rcases List.mem_cons.mp member with rfl | inside
    · exact ⟨first, by rw [rows_first]; exact List.mem_singleton_self _⟩
    · exact ⟨second, by rwa [rows_second]⟩

/-- A shard is read as its rows. -/
theorem stage (shard : LockShardId) : StageHolds ((files a b control).get? shard) (rows a b control shard) :=
  (stores a b control).holds.stage shard

variable {a b control}

/-- Files with different rows differ. -/
theorem get?_ne {a' b' control' : Oid} {shard : LockShardId} (differ : rows a b control shard ≠ rows a' b' control' shard) :
    (files a b control).get? shard ≠ (files a' b' control').get? shard := fun same =>
  differ ((stage a b control shard).unique (same ▸ stage a' b' control' shard))

/-- The driver merges the rows of a shard that both sides change. -/
theorem mergeStages_files {a' b' control' a'' b'' control'' : Oid} (shard : LockShardId) :
    mergeStages Kernel.scalar ((files a b control).get? shard) ((files a' b' control').get? shard) ((files a'' b'' control'').get? shard) =
      match mergeThreeWay ⟨rows a b control shard⟩ ⟨rows a' b' control' shard⟩ ⟨rows a'' b'' control'' shard⟩ with
      | .ok merged => .ok merged
      | .error conflict => Outcome.fail (.semanticConflict conflict) := by
  unfold mergeStages
  rw [readStage_eq (stage _ _ _ shard), readStage_eq (stage _ _ _ shard), readStage_eq (stage _ _ _ shard)]
  rfl

/-- The first shard is taken from their side, and the driver merges the second. -/
theorem shards_merge (id : LockShardId) : (mergeShard Kernel.scalar (fun _ => true) ancestor ours theirs id).1 = .ok () := by
  by_cases same : ours.get? id = ancestor.get? id
  · rw [mergeShard, mergeFile, if_pos same]
  by_cases same' : theirs.get? id = ancestor.get? id
  · rw [mergeShard, mergeFile, if_neg same, if_pos same']
  obtain rfl : id = second := by
    by_contra other
    refine same ?_
    rw [ours, ancestor, rendered, rendered, rows, rows, if_neg other, if_neg other]
  have merged : mergeThreeWay ⟨[⟨.b, .filled 1⟩, ⟨.control, .filled 1⟩]⟩ ⟨[⟨.b, .filled 2⟩, ⟨.control, .filled 1⟩]⟩
      ⟨[⟨.b, .filled 1⟩, ⟨.control, .filled 6⟩]⟩ = .ok ⟨rows (.filled 4) (.filled 2) (.filled 6) second⟩ := by
    rw [rows_second]
    decide +kernel
  have stages : mergeStages Kernel.scalar (ancestor.get? second) (ours.get? second) (theirs.get? second) =
      .ok ⟨rows (.filled 4) (.filled 2) (.filled 6) second⟩ := by
    rw [ancestor, ours, theirs, mergeStages_files, rows_second, rows_second, rows_second, merged]
  have published := publishedText_eq (sorted_rows (.filled 4) (.filled 2) (.filled 6) second)
    (separated_of_rows (.filled 4) (.filled 2) (.filled 6) fun path member => by
      obtain ⟨entry, listed, rfl⟩ := List.mem_map.mp member
      exact ⟨second, entry, listed, rfl⟩)
  rw [mergeShard, mergeFile, if_neg same, if_neg same', mergeDriver, stages, Outcome.ok_bind, published]
  rfl

/-- Both sides change an entry of the second shard. -/
theorem second_contested : (mergeShard Kernel.scalar (fun _ => true) ancestor ours contesting second).1 ≠ .ok () := by
  have same : ours.get? second ≠ ancestor.get? second := get?_ne (by rw [rows_second, rows_second]; decide)
  have same' : contesting.get? second ≠ ancestor.get? second := get?_ne (by rw [rows_second, rows_second]; decide)
  have contested : mergeThreeWay ⟨[⟨.b, .filled 1⟩, ⟨.control, .filled 1⟩]⟩ ⟨[⟨.b, .filled 2⟩, ⟨.control, .filled 1⟩]⟩
      ⟨[⟨.b, .filled 5⟩, ⟨.control, .filled 6⟩]⟩ = .error (.paths [⟨.b, some (.filled 1), some (.filled 2), some (.filled 5)⟩]) := by
    decide +kernel
  have stages : mergeStages Kernel.scalar (ancestor.get? second) (ours.get? second) (contesting.get? second) =
      Outcome.fail (.semanticConflict (.paths [⟨.b, some (.filled 1), some (.filled 2), some (.filled 5)⟩])) := by
    rw [ancestor, ours, contesting, mergeStages_files, rows_second, rows_second, rows_second, contested]
  rw [mergeShard, mergeFile, if_neg same, if_neg same', mergeDriver, stages]
  exact Outcome.fail_ne_ok _ _

end TwoShardSides

open TwoShardSides in
/-- Edits of different entries are merged shard by shard into files that load as the whole merge. Where an entry is contested,
its shard reports it and keeps its file. -/
theorem sharded_merge_edited :
    (∃ loaded, loadSharded Kernel.scalar .sample (mergeShards Kernel.scalar (fun _ => true) ancestor ours theirs) = .ok loaded ∧
        loaded.entries.Perm [⟨.a, .filled 4⟩, ⟨.b, .filled 2⟩, ⟨.control, .filled 6⟩]) ∧
      ((shardIds ancestor ours contesting).flatMap fun id =>
        shardConflicts (mergeShard Kernel.scalar (fun _ => true) ancestor ours contesting id).1).Perm
          [⟨.b, some (.filled 1), some (.filled 2), some (.filled 5)⟩] ∧
      (mergeShards Kernel.scalar (fun _ => true) ancestor ours contesting).get? second =
        some (render [⟨.b, .filled 2⟩, ⟨.control, .filled 1⟩]) := by
  have spec := (sharded_merge (stored ..) (stored ..) (stored ..) fun _ => true).merged shards_merge
  have contested := sharded_merge (stored (.filled 1) (.filled 1) (.filled 1)) (stored (.filled 1) (.filled 2) (.filled 1))
    (stored (.filled 4) (.filled 5) (.filled 6)) fun _ => true
  refine ⟨?_, contested.conflicts_perm.trans (List.Perm.of_eq (by decide +kernel)), (contested.failed second second_contested).trans ?_⟩
  · have whole : mergeThreeWay ⟨[⟨.a, .filled 1⟩, ⟨.b, .filled 1⟩, ⟨.control, .filled 1⟩]⟩
        ⟨[⟨.a, .filled 1⟩, ⟨.b, .filled 2⟩, ⟨.control, .filled 1⟩]⟩ ⟨[⟨.a, .filled 4⟩, ⟨.b, .filled 1⟩, ⟨.control, .filled 6⟩]⟩ =
          .ok ⟨[⟨.a, .filled 4⟩, ⟨.b, .filled 2⟩, ⟨.control, .filled 6⟩]⟩ := by decide +kernel
    obtain ⟨loaded, loads⟩ := spec.loads_iff.mpr ⟨_, whole⟩
    exact ⟨loaded, loads, spec.loads_eq _ _ loads whole⟩
  · rw [rendered, rows_second]
    rfl

end Gat
