import Gat.Model.MergeDriver
import Gat.Proofs.LockMerge
import Gat.Proofs.LockStore

/-! # What the merge driver leaves behind

On stages that hold entries, one file is merged to the resolved entries of its stages, or our side stays
and the failure names either all contested paths or none. Taking an unchanged side over agrees with
merging. Each path is tracked in one shard only, so the values of a shard at its own paths are those of
the whole lock.
-/

namespace Gat

open AncestorFree LockFormat

/-- The stage is absent and there are no entries, or it is a document for them. -/
def StageHolds : Option Str → List Entry → Prop
  | none, entries => entries = []
  | some text, entries => FileHolds text entries

theorem StageHolds.sorted {file : Option Str} {entries : List Entry} (holds : StageHolds file entries) :
    StrictlySorted entries := by
  cases file with
  | none => rw [show entries = [] from holds]; exact List.Pairwise.nil
  | some text => exact FileHolds.sorted holds

theorem StageHolds.unique {file : Option Str} {entries others : List Entry} (holds : StageHolds file entries)
    (holds' : StageHolds file others) : entries = others := by
  cases file with
  | none => exact Eq.trans holds (Eq.symm holds')
  | some text => exact FileHolds.unique holds holds'

theorem FileHolds.ne_nil {text : Str} {entries : List Entry} (holds : FileHolds text entries) : text ≠ [] := by
  rintro rfl
  obtain ⟨terminator, body, same, -⟩ := holds.document.framed
  exact absurd (congrArg List.length same) (by simp [VERSION, ascii])

theorem ShardFiles.Holds.stage {files : ShardFiles} {levels : LockShardLevels} {rows : LockShardId → List Entry}
    (holds : files.Holds levels rows) (id : LockShardId) : StageHolds (files.get? id) (rows id) := by
  cases found : files.get? id with
  | none => exact holds.absent id found
  | some text => exact holds.document _ (SortedMap.get?_eq_some_iff.mp found)

theorem ShardFiles.Holds.depth_of_get? {files : ShardFiles} {levels : LockShardLevels} {rows : LockShardId → List Entry}
    (holds : files.Holds levels rows) {id : LockShardId} (present : files.get? id ≠ none) : id.levels = levels := by
  obtain ⟨text, found⟩ := Option.ne_none_iff_exists'.mp present
  exact holds.depth _ (SortedMap.get?_eq_some_iff.mp found)

/-- Files of one depth that are stages for the rows hold them. -/
theorem ShardFiles.holds_of_stages {files : ShardFiles} {levels : LockShardLevels} {rows : LockShardId → List Entry}
    (depth : ∀ id, files.get? id ≠ none → id.levels = levels) (stage : ∀ id, StageHolds (files.get? id) (rows id)) :
    files.Holds levels rows where
  depth file member := depth file.1 (by rw [SortedMap.get?_of_mem member]; simp)
  document file member := by
    have holds := stage file.1
    rwa [SortedMap.get?_of_mem member] at holds
  absent id missing := by
    have holds := stage id
    rwa [missing] at holds

/-- Reading a stage gives its entries. -/
theorem readStage_eq {file : Option Str} {entries : List Entry} (holds : StageHolds file entries) (kernel : Kernel)
    (stage : Side) : readStage kernel stage file = .ok ⟨entries⟩ := by
  cases file with
  | none => rw [show entries = [] from holds]; rfl
  | some text =>
    unfold readStage
    dsimp only
    rw [if_neg (not_not.mpr (FileHolds.utf8 holds)), if_neg (FileHolds.ne_nil holds), FileHolds.parse_eq holds kernel]
    rfl

/-- A sorted separated lock passes validation and is written in its order. -/
theorem publishedText_eq {entries : List Entry} (sorted : StrictlySorted entries)
    (separated : Separated Byte.slash (entries.map fun entry => entry.path.text)) :
    publishedText ⟨entries⟩ = .ok (render entries) := by
  have formed : Lock.WellFormed ⟨entries⟩ := ⟨sorted.uniquePaths, separated⟩
  rw [publishedText, Lock.validate_eq_ok_iff.mpr formed, toText_eq, sortedEntries_of_strictlySorted sorted]
  rfl

/-! ## One file -/

section File

variable {kernel : Kernel} {writable : Bool} {ancestorFile oursFile theirsFile : Option Str}
  {ancestor ours theirs : Lock}

private theorem Versions.resolve_unchanged_ours (ancestor theirs : Option Oid) :
    (Versions.mk ancestor ancestor theirs).resolve = some theirs := by
  unfold resolve
  dsimp only
  rw [if_pos rfl]
  split_ifs with same
  · rw [same]
  · rfl

private theorem Versions.resolve_unchanged_theirs (ancestor ours : Option Oid) :
    (Versions.mk ancestor ours ancestor).resolve = some ours := by
  unfold resolve
  dsimp only
  rw [if_pos rfl]
  split_ifs <;> rfl

/-- When every path resolves to one side, that side is the result. -/
private theorem resolvedEntries_eq_of_resolve (ancestorUnique : ancestor.UniquePaths) (oursUnique : ours.UniquePaths)
    (theirsUnique : theirs.UniquePaths) {side : Lock} (sorted : StrictlySorted side.entries)
    (resolves : ∀ path, (versionsAt ancestor ours theirs path).resolve = some (side.oidAt path)) :
    conflictsOf ancestor ours theirs = [] ∧ resolvedEntries ancestor ours theirs = side.entries := by
  constructor
  · by_contra contested
    obtain ⟨path, differs⟩ := (conflictsOf_ne_nil_iff ancestorUnique oursUnique theirsUnique).mp contested
    have unresolved : (versionsAt ancestor ours theirs path).resolve = none := Versions.resolve_eq_none_iff.mpr differs
    rw [resolves] at unresolved
    simp at unresolved
  · refine List.eq_of_key_lt Entry.path (resolvedEntries_sorted _) sorted fun entry => ?_
    rw [mem_resolvedEntries_iff ancestorUnique oursUnique theirsUnique, resolves, Option.some.injEq,
      Lock.oidAt_eq_some_iff sorted.uniquePaths]

/-- What merging one file leaves: our file unless the merge succeeds. -/
inductive MergedFile (ancestor ours theirs : Lock) (oursFile : Option Str) :
    Outcome MergeDriverError Unit × Option Str → Prop
  | contested (reported : conflictsOf ancestor ours theirs ≠ []) :
    MergedFile ancestor ours theirs oursFile
      (Outcome.fail (.semanticConflict (.paths (conflictsOf ancestor ours theirs))), oursFile)
  | refused (error : MergeDriverError) (uncontested : conflictsOf ancestor ours theirs = [])
    (other : ∀ conflicts, error ≠ .semanticConflict (.paths conflicts)) :
    MergedFile ancestor ours theirs oursFile (Outcome.fail error, oursFile)
  | merged (file : Option Str) (uncontested : conflictsOf ancestor ours theirs = [])
    (holds : StageHolds file (resolvedEntries ancestor ours theirs)) :
    MergedFile ancestor ours theirs oursFile (.ok (), file)

variable (ancestorHolds : StageHolds ancestorFile ancestor.entries) (oursHolds : StageHolds oursFile ours.entries)
  (theirsHolds : StageHolds theirsFile theirs.entries)
include ancestorHolds oursHolds theirsHolds

private theorem mergeDriver_cases :
    MergedFile ancestor ours theirs oursFile (mergeDriver kernel writable ancestorFile oursFile theirsFile) := by
  have sorted : StrictlySorted (resolvedEntries ancestor ours theirs) := resolvedEntries_sorted _
  have search := directoryPrefixConflict_spec sorted
  unfold mergeDriver mergeStages
  simp only [readStage_eq ancestorHolds, readStage_eq oursHolds, readStage_eq theirsHolds, Outcome.ok_bind]
  rw [mergeThreeWay_eq]
  by_cases contested : conflictsOf ancestor ours theirs ≠ []
  · rw [if_pos contested]
    exact MergedFile.contested contested
  · rw [if_neg contested]
    have uncontested := not_not.mp contested
    cases found : directoryPrefixConflict (resolvedEntries ancestor ours theirs) with
    | some pair => exact MergedFile.refused _ uncontested (by simp)
    | none =>
      rw [found] at search
      dsimp only
      rw [Outcome.ok_bind, publishedText_eq sorted search]
      dsimp only
      split_ifs
      · exact MergedFile.merged _ uncontested (FileHolds.render sorted search)
      · exact MergedFile.refused _ uncontested (by simp)

/-- Taking the changed side over and running the driver both leave the resolved entries or our file. -/
theorem mergeFile_cases :
    MergedFile ancestor ours theirs oursFile (mergeFile kernel writable ancestorFile oursFile theirsFile) := by
  have ancestorUnique := ancestorHolds.sorted.uniquePaths
  have oursUnique := oursHolds.sorted.uniquePaths
  have theirsUnique := theirsHolds.sorted.uniquePaths
  unfold mergeFile
  split_ifs with oursSame theirsSame
  · rw [oursSame] at oursHolds
    obtain rfl : ours = ancestor := congrArg Lock.mk (oursHolds.unique ancestorHolds)
    obtain ⟨uncontested, resolved⟩ := resolvedEntries_eq_of_resolve ancestorUnique oursUnique theirsUnique
      theirsHolds.sorted fun path => Versions.resolve_unchanged_ours _ _
    exact MergedFile.merged _ uncontested (resolved ▸ theirsHolds)
  · rw [theirsSame] at theirsHolds
    obtain rfl : theirs = ancestor := congrArg Lock.mk (theirsHolds.unique ancestorHolds)
    obtain ⟨uncontested, resolved⟩ := resolvedEntries_eq_of_resolve ancestorUnique oursUnique theirsUnique
      oursHolds.sorted fun path => Versions.resolve_unchanged_theirs _ _
    exact MergedFile.merged _ uncontested (resolved ▸ oursHolds)
  · exact mergeDriver_cases ancestorHolds oursHolds theirsHolds

end File

/-! ## All shards -/

/-- The lock has exactly the rows of the shards, each in the shard that its path hashes to. -/
structure SplitInto (blake3 : ContentHash) (levels : LockShardLevels) (lock : Lock) (rows : LockShardId → List Entry) :
    Prop where
  unique : lock.UniquePaths
  sorted : ∀ id, StrictlySorted (rows id)
  mem_iff : ∀ id entry, entry ∈ rows id ↔ LockShardId.forPath blake3 entry.path levels = id ∧ entry ∈ lock.entries

/-- The rows of placed shard files split any lock with the same rows. -/
theorem ShardFiles.Holds.splitInto {files : ShardFiles} {levels : LockShardLevels} {rows : LockShardId → List Entry}
    {blake3 : ContentHash} (holds : files.Holds levels rows) (placed : Placed blake3 levels rows) {lock : Lock}
    (same : (files.allRows rows).Perm lock.entries) : SplitInto blake3 levels lock rows where
  unique := (same.map Entry.path).nodup_iff.mp (holds.nodup_of_placed placed)
  sorted := holds.sorted
  mem_iff id entry := by
    rw [← same.mem_iff, holds.mem_allRows_iff_of_placed placed]
    constructor
    · intro member
      have place := placed id entry member
      exact ⟨place, place ▸ member⟩
    · rintro ⟨rfl, member⟩
      exact member

/-- A shard tracks its own paths as the whole lock does, and no others. -/
theorem SplitInto.oidAt {blake3 : ContentHash} {levels : LockShardLevels} {lock : Lock} {rows : LockShardId → List Entry}
    (split : SplitInto blake3 levels lock rows) (id : LockShardId) (path : GatPath) :
    Lock.oidAt ⟨rows id⟩ path = if LockShardId.forPath blake3 path levels = id then lock.oidAt path else none := by
  refine Option.ext fun oid => ?_
  rw [Lock.oidAt_eq_some_iff (split.sorted id).uniquePaths, split.mem_iff]
  split_ifs with home
  · rw [Lock.oidAt_eq_some_iff split.unique]
    exact and_iff_right home
  · exact iff_of_false (fun both => home both.1) (by simp)

section Shards

variable {blake3 : ContentHash} {levels : LockShardLevels} {ancestor ours theirs : Lock}
  {ancestorRows oursRows theirsRows : LockShardId → List Entry}
  (ancestorSplit : SplitInto blake3 levels ancestor ancestorRows) (oursSplit : SplitInto blake3 levels ours oursRows)
  (theirsSplit : SplitInto blake3 levels theirs theirsRows)
include ancestorSplit oursSplit theirsSplit

/-- The conflicts of a shard are the conflicts of the whole at the shard's paths. -/
theorem mem_conflictsOf_shard_iff {id : LockShardId} {conflict : Conflict} :
    conflict ∈ conflictsOf ⟨ancestorRows id⟩ ⟨oursRows id⟩ ⟨theirsRows id⟩ ↔
      LockShardId.forPath blake3 conflict.path levels = id ∧ conflict ∈ conflictsOf ancestor ours theirs := by
  rw [mem_conflictsOf_iff (ancestorSplit.sorted id).uniquePaths (oursSplit.sorted id).uniquePaths
    (theirsSplit.sorted id).uniquePaths, mem_conflictsOf_iff ancestorSplit.unique oursSplit.unique theirsSplit.unique,
    ancestorSplit.oidAt, oursSplit.oidAt, theirsSplit.oidAt]
  by_cases home : LockShardId.forPath blake3 conflict.path levels = id
  · simp only [if_pos home]
    exact (and_iff_right home).symm
  · simp only [if_neg home]
    exact iff_of_false (fun both => both.1.1 rfl) (fun both => home both.1)

/-- The resolved entries of a shard are the resolved entries of the whole at the shard's paths. -/
theorem mem_resolvedEntries_shard_iff {id : LockShardId} {entry : Entry} :
    entry ∈ resolvedEntries ⟨ancestorRows id⟩ ⟨oursRows id⟩ ⟨theirsRows id⟩ ↔
      LockShardId.forPath blake3 entry.path levels = id ∧ entry ∈ resolvedEntries ancestor ours theirs := by
  obtain ⟨path, oid⟩ := entry
  rw [mem_resolvedEntries_iff (ancestorSplit.sorted id).uniquePaths (oursSplit.sorted id).uniquePaths
    (theirsSplit.sorted id).uniquePaths, mem_resolvedEntries_iff ancestorSplit.unique oursSplit.unique theirsSplit.unique]
  unfold versionsAt
  rw [ancestorSplit.oidAt, oursSplit.oidAt, theirsSplit.oidAt]
  by_cases home : LockShardId.forPath blake3 path levels = id
  · simp only [if_pos home]
    exact (and_iff_right home).symm
  · simp only [if_neg home]
    exact iff_of_false (by simp [Versions.resolve]) (fun both => home both.1)

/-- Collected over shards that cover all contested paths, the conflicts are those of the whole. -/
theorem flatMap_conflictsOf_perm {ids : List LockShardId} (distinct : ids.Nodup)
    (covered : ∀ conflict ∈ conflictsOf ancestor ours theirs, LockShardId.forPath blake3 conflict.path levels ∈ ids) :
    (ids.flatMap fun id => conflictsOf ⟨ancestorRows id⟩ ⟨oursRows id⟩ ⟨theirsRows id⟩).Perm
      (conflictsOf ancestor ours theirs) := by
  have nodup {map : SortedMap GatPath Versions} : (map.entries.filterMap conflictOf).Nodup := by
    refine (conflicts_sorted map).imp fun below same => ?_
    rw [same] at below
    exact lt_irrefl _ below
  refine (List.perm_ext_iff_of_nodup ?_ nodup).mpr fun conflict => ?_
  · refine List.nodup_flatMap.mpr ⟨fun id _ => nodup, distinct.imp fun {left right} different conflict first second => ?_⟩
    rw [mem_conflictsOf_shard_iff ancestorSplit oursSplit theirsSplit] at first second
    exact different (first.1.symm.trans second.1)
  · rw [List.mem_flatMap]
    simp only [mem_conflictsOf_shard_iff ancestorSplit oursSplit theirsSplit]
    constructor
    · rintro ⟨id, -, -, member⟩
      exact member
    · exact fun member => ⟨_, covered conflict member, rfl, member⟩

end Shards

/-! ## The merged files -/

section Files

variable {kernel : Kernel} {writable : LockShardId → Bool} {ancestor ours theirs : ShardFiles}

theorem mem_shardIds_iff {id : LockShardId} :
    id ∈ shardIds ancestor ours theirs ↔ ancestor.get? id ≠ none ∨ ours.get? id ≠ none ∨ theirs.get? id ≠ none := by
  have present (files : ShardFiles) : id ∈ files.entries.map Prod.fst ↔ files.get? id ≠ none := by
    rw [ne_eq, SortedMap.get?_eq_none_iff, List.mem_map]
    push Not
    rfl
  rw [shardIds, List.mem_dedup, List.map_append, List.map_append, List.mem_append, List.mem_append, present, present,
    present, or_assoc]

theorem nodup_shardIds : (shardIds ancestor ours theirs).Nodup := List.nodup_dedup _

/-- A shard that no version has stays absent. -/
theorem mergeShard_of_absent {id : LockShardId} (absent : id ∉ shardIds ancestor ours theirs) :
    mergeShard kernel writable ancestor ours theirs id = (.ok (), none) := by
  rw [mem_shardIds_iff, not_or, not_or, not_not, not_not, not_not] at absent
  rw [mergeShard, mergeFile, absent.1, absent.2.1, absent.2.2, if_pos rfl]

private theorem get?_foldl_alter {files : ShardFiles} {contents : LockShardId → Option Str} (ids : List LockShardId)
    (id : LockShardId) :
    (ids.foldl (fun files id => files.alter id fun _ => contents id) files).get? id =
      if id ∈ ids then contents id else files.get? id := by
  induction ids generalizing files with
  | nil => simp
  | cons first ids ih =>
    rw [List.foldl_cons, ih, SortedMap.get?_alter]
    by_cases later : id ∈ ids
    · rw [if_pos later, if_pos (List.mem_cons_of_mem _ later)]
    · by_cases same : first = id
      · rw [if_neg later, if_pos same, if_pos (same ▸ List.mem_cons_self), same]
      · rw [if_neg later, if_neg same, if_neg (by simp [later, Ne.symm same])]

/-- Each file after the merge is what merging its shard leaves. -/
theorem get?_mergeShards (id : LockShardId) :
    (mergeShards kernel writable ancestor ours theirs).get? id = (mergeShard kernel writable ancestor ours theirs id).2 := by
  rw [mergeShards, get?_foldl_alter]
  split_ifs with present
  · rfl
  · rw [mergeShard_of_absent present]
    rw [mem_shardIds_iff, not_or, not_or, not_not, not_not, not_not] at present
    exact present.2.1

end Files

end Gat
