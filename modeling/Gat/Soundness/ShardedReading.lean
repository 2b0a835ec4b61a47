import Gat.Model.Selection
import Gat.Proofs.LockStore
import Gat.Proofs.StateStore

/-! # Reading a sharded lock

Certification looks at the merged rows of all shards. It accepts exactly the shards that hold each path once and in its
place and have no ancestor pair, and it reports what is wrong in a fixed order. The merge of certified shards is then
the lock in path order, and a certified row has nothing below it, so an exact path can be looked up alone.
-/

namespace Gat

open AncestorFree

/-! ## Shards with their entries -/

/-- Resident shards with the files that they are read from and the entries that they hold. -/
inductive Held (blake3 : ContentHash) : List (LockShardId × Str) → List ResidentShard → List (List Entry) → Prop
  | nil : Held blake3 [] [] []
  | cons {file shard entries files shards held} (resident : Resident blake3 file shard entries) (rest : Held blake3 files shards held) :
    Held blake3 (file :: files) (shard :: shards) (entries :: held)

/-- A path is in two of the shards. -/
def InTwoShards (queues : List (List (GatPath × Oid))) (path : GatPath) : Prop :=
  ∃ first second : ℕ, first < second ∧ (∃ queue ∈ queues[first]?, path ∈ queue.map Prod.fst) ∧
    ∃ queue ∈ queues[second]?, path ∈ queue.map Prod.fst

/-- The first row that is outside its shard, by the order of the shards. -/
def firstMisplaced (blake3 : ContentHash) (levels : LockShardLevels) (shards : List (LockShardId × List (GatPath × Oid))) :
    Option LockDomainError :=
  shards.findSome? fun shard => shard.2.findSome? fun row => checkShardPlacement blake3 shard.1 levels row.1.text

/-- The texts of all paths. -/
def allTexts (queues : List (List (GatPath × Oid))) : List Str := queues.flatten.map fun row => row.1.text

namespace Held

variable {blake3 : ContentHash} {files : List (LockShardId × Str)} {shards : List ResidentShard} {held : List (List Entry)}
  {levels : LockShardLevels}

theorem of_decode {kernel : Kernel} (read : files.mapM (decodeResidentShard kernel blake3) = .ok shards) :
    ∃ held, Held blake3 files shards held := by
  have related := Except.mapM_eq_ok_iff.mp read
  induction related with
  | nil => exact ⟨[], .nil⟩
  | @cons file shard _ _ decoded rest ih =>
    obtain ⟨held, later⟩ := ih (Except.mapM_eq_ok_iff.mpr rest)
    rcases decodeResidentShard_cases kernel blake3 file with ⟨other, same, entries, resident⟩ | ⟨⟨failure, failed⟩, -⟩
    · cases decoded.symm.trans same
      exact ⟨entries :: held, .cons resident later⟩
    · cases decoded.symm.trans failed

theorem mapM_semanticRows (all : Held blake3 files shards held) :
    (shards.mapM (fun shard => shard.view.semanticRows) : Outcome LockError (List (List (GatPath × Oid)))) = .ok (held.map viewRows) := by
  induction all with
  | nil => rfl
  | cons resident _ ih => rw [List.mapM_cons, resident.rows, Outcome.ok_bind, ih]; rfl

theorem sorted (all : Held blake3 files shards held) : ∀ entries ∈ held, StrictlySorted entries := by
  induction all with
  | nil => exact nofun
  | cons resident _ ih => exact List.forall_mem_cons.mpr ⟨resident.holds.sorted, ih⟩

theorem placementError (all : Held blake3 files shards held) (depth : ∀ file ∈ files, file.1.levels = levels) :
    shards.findSome? ResidentShard.placementError = firstMisplaced blake3 levels ((files.map Prod.fst).zip (held.map viewRows)) := by
  induction all with
  | nil => rfl
  | cons resident _ ih =>
    rw [List.forall_mem_cons] at depth
    have here : (viewRows _).findSome? (fun row => checkShardPlacement blake3 _ levels row.1.text) = _ :=
      (List.findSome?_map ..).trans (depth.1 ▸ resident.firstError.symm)
    rw [firstMisplaced, List.map_cons, List.map_cons, List.zip_cons_cons, List.findSome?_cons, List.findSome?_cons, here, ih depth.2]
    rfl

/-- The rows of all shards in order, each once. -/
theorem residentRows_eq (all : Held blake3 files shards held) :
    ∃ merged, residentRows shards = .ok merged ∧ (merged.Pairwise fun first second => first.1.1 ≤ second.1.1) ∧
      merged.Perm (List.owned (held.map viewRows).zipIdx) ∧ (merged.map Prod.fst).Perm (held.map viewRows).flatten := by
  refine ⟨List.mergeHeads Prod.fst (held.map viewRows), ?_, ?_, List.mergeHeads_perm_owned _ _, List.mergeHeads_perm _ _⟩
  · rw [residentRows, all.mapM_semanticRows]
    rfl
  · refine List.mergeHeads_pairwise fun queue member => ?_
    obtain ⟨entries, isHeld, rfl⟩ := List.mem_map.mp member
    exact viewRows_sorted (all.sorted entries isHeld)

/-- A path occurs twice exactly when two shards have it. -/
theorem inTwoShards_iff (all : Held blake3 files shards held) {path : GatPath} :
    InTwoShards (held.map viewRows) path ↔ 2 ≤ ((held.map viewRows).flatten.map Prod.fst).count path := by
  have distinct : ∀ queue ∈ (held.map viewRows).map (List.map Prod.fst), queue.Nodup := by
    rw [List.map_map, List.forall_mem_map]
    intro entries member
    rw [Function.comp_apply, viewRows, List.map_map]
    exact (all.sorted entries member).uniquePaths
  rw [List.map_flatten, List.two_le_count_flatten_iff distinct, InTwoShards]
  simp [List.getElem?_map]

end Held

/-! ## What certification reports -/

/-- The report on shards with some rows. -/
inductive Report (blake3 : ContentHash) (levels : LockShardLevels) (ids : List LockShardId) (queues : List (List (GatPath × Oid))) :
    Outcome LockError Unit → Prop
  | duplicate (path : GatPath) (twice : InTwoShards queues path) :
    Report blake3 levels ids queues (Outcome.fail (.domain (.pathInMultipleShards path.text)))
  | misplaced (error : LockDomainError) (once : ∀ path, ¬InTwoShards queues path)
    (first : firstMisplaced blake3 levels (ids.zip queues) = some error) : Report blake3 levels ids queues (Outcome.fail (.domain error))
  | conflict (ancestor descendant : Str) (once : ∀ path, ¬InTwoShards queues path)
    (placed : firstMisplaced blake3 levels (ids.zip queues) = none) (isAncestor : ancestor ∈ allTexts queues)
    (isDescendant : descendant ∈ allTexts queues) (above : IsAncestor Byte.slash ancestor descendant) :
    Report blake3 levels ids queues (Outcome.fail (.domain (.directoryPrefixConflict ancestor descendant)))
  | certified (once : ∀ path, ¬InTwoShards queues path) (placed : firstMisplaced blake3 levels (ids.zip queues) = none)
    (separated : Separated Byte.slash (allTexts queues)) : Report blake3 levels ids queues (.ok ())

section Report

variable {blake3 : ContentHash} {files : List (LockShardId × Str)} {shards : List ResidentShard} {held : List (List Entry)}
  {levels : LockShardLevels}

theorem Held.report (all : Held blake3 files shards held) (depth : ∀ file ∈ files, file.1.levels = levels) :
    Report blake3 levels (files.map Prod.fst) (held.map viewRows) (certifyResidentShards shards) := by
  have placement := all.placementError depth
  unfold certifyResidentShards
  split
  · -- a single file is certified by its view except for the places of its rows
    next shard =>
    have once (path : GatPath) : ¬InTwoShards (held.map viewRows) path := by
      cases all with
      | cons _ rest =>
        cases rest
        rintro ⟨first, second, before, -, queue, found, -⟩
        rw [List.map_cons, List.map_nil, Option.mem_def, List.getElem?_eq_none (by rw [List.length_singleton]; omega)] at found
        cases found
    rw [List.findSome?_cons, List.findSome?_nil] at placement
    cases isError : shard.placementError with
    | some error =>
      simp only [isError] at placement
      exact .misplaced error once placement.symm
    | none =>
      simp only [isError] at placement
      refine .certified once placement.symm ?_
      cases all with
      | cons resident rest =>
        cases rest
        rw [allTexts, List.map_cons, List.map_nil, List.flatten_singleton, viewRows_paths]
        exact resident.holds.separated
  · obtain ⟨merged, read, ordered, -, perm⟩ := all.residentRows_eq
    have texts : (merged.map fun row => row.1.1.text).Perm (allTexts (held.map viewRows)) := by
      have mapped := perm.map fun row : GatPath × Oid => row.1.text
      rwa [List.map_map] at mapped
    have sorted : (merged.map fun row => row.1.1.text).Pairwise (· ≤ ·) := List.pairwise_map.mpr ordered
    have count (path : GatPath) : (merged.map fun row => row.1.1.text).count path.text =
        ((held.map viewRows).flatten.map Prod.fst).count path := by
      rw [texts.count_eq, allTexts, ← List.count_map_of_injective _ GatPath.text GatPath.text_injective, List.map_map]
      rfl
    rw [read, Outcome.ok_bind]
    rcases foldlM_certifyRow_cases Scanned.nil sorted with ⟨text, repeated, twice⟩ | ⟨state, scanned, whole⟩
    · rw [repeated, Outcome.fail_bind]
      have listed : text ∈ merged.map fun row => row.1.1.text := List.count_pos_iff.mp (by rw [List.nil_append] at twice; omega)
      obtain ⟨row, -, rfl⟩ := List.mem_map.mp listed
      exact .duplicate row.1.1 (all.inTwoShards_iff.mpr (count row.1.1 ▸ twice))
    · rw [scanned, Outcome.ok_bind]
      have once (path : GatPath) : ¬InTwoShards (held.map viewRows) path := by
        rw [all.inTwoShards_iff, ← count path]
        have atMost := List.nodup_iff_count_le_one.mp (whole.ordered.imp ne_of_lt) path.text
        rw [List.nil_append] at atMost
        omega
      cases firstError : shards.findSome? ResidentShard.placementError with
      | some error => exact .misplaced error once (placement.symm.trans firstError)
      | none =>
        have placed := placement.symm.trans firstError
        rcases whole.prefixError with ⟨clear, separated⟩ | ⟨ancestor, isAncestor, descendant, isDescendant, error, above⟩
        · rw [clear]
          exact .certified once placed (separated.subset texts.symm.subset)
        · rw [error]
          exact .conflict ancestor descendant once placed (texts.subset isAncestor) (texts.subset isDescendant) above

/-- No row is misplaced exactly when every row is in its shard. -/
theorem firstMisplaced_eq_none_iff {owned : List (LockShardId × List (GatPath × Oid))} (depth : ∀ shard ∈ owned, shard.1.levels = levels) :
    firstMisplaced blake3 levels owned = none ↔ ∀ shard ∈ owned, ∀ row ∈ shard.2, LockShardId.forPath blake3 row.1 levels = shard.1 := by
  rw [firstMisplaced, List.findSome?_eq_none_iff]
  refine forall₂_congr fun shard member => ?_
  rw [List.findSome?_eq_none_iff, ← depth shard member]
  exact forall₂_congr fun row _ => checkShardPlacement_eq_none_iff

end Report

/-! ## Rows that are visited -/

section Visit

variable {blake3 : ContentHash} {files : List (LockShardId × Str)} {shards : List ResidentShard} {held : List (List Entry)}

theorem Held.findResident_eq (all : Held blake3 files shards held) (exact : GatPath) :
    findResident exact shards = .ok ((held.map viewRows).flatten.find? fun row => row.1.text = exact.text) := by
  induction all with
  | nil => rfl
  | @cons file shard entries files shards held resident _ ih =>
    have here : shard.view.find exact.text = (.ok ((viewRows entries).find? fun row => row.1.text = exact.text) : Outcome LockError _) := by
      rw [ValidatedLockFile.find, resident.rows]
      rfl
    rw [findResident, here, Outcome.ok_bind, List.map_cons, List.flatten_cons, List.find?_append]
    cases (viewRows entries).find? fun row => row.1.text = exact.text with
    | none => exact ih
    | some row => rfl

/-- A row of certified shards has nothing below it. -/
theorem filter_exact {merged : List ((GatPath × Oid) × ℕ)} (distinct : (merged.map fun row => row.1.1).Nodup)
    (separated : Separated Byte.slash (merged.map fun row => row.1.1.text)) {found : (GatPath × Oid) × ℕ} (member : found ∈ merged)
    {keep : Str → Bool} (inside : ∀ path : GatPath, keep path.text → path.isOrUnder found.1.1) :
    merged.filter (fun row => keep row.1.1.text) = if keep found.1.1.text then [found] else [] := by
  have only : merged.filter (fun row => keep row.1.1.text) =
      (merged.filter fun row => row.1.1 = found.1.1).filter fun row => keep row.1.1.text := by
    rw [List.filter_filter]
    refine List.filter_congr fun row listed => ?_
    cases kept : keep row.1.1.text with
    | false => rfl
    | true =>
      have same : row.1.1 = found.1.1 := by
        rcases GatPath.isOrUnder_iff.mp (inside row.1.1 kept) with same | above
        · exact GatPath.ext same
        · exact absurd above (separated _ (List.mem_map_of_mem member) _ (List.mem_map_of_mem listed))
      simp [same]
  rw [only, SortedMap.filter_key_eq distinct member, List.filter_cons, List.filter_nil]

/-- Certified shards merge to all their rows in strict path order. -/
theorem Held.merged_of_certified (all : Held blake3 files shards held) {levels : LockShardLevels} (depth : ∀ file ∈ files, file.1.levels = levels)
    (accepted : certifyResidentShards shards = .ok ()) :
    ∃ merged, residentRows shards = .ok merged ∧ (merged.Pairwise fun first second => first.1.1 < second.1.1) ∧
      merged.Perm (List.owned (held.map viewRows).zipIdx) ∧ (merged.map Prod.fst).Perm (held.map viewRows).flatten ∧
      Separated Byte.slash (merged.map fun row => row.1.1.text) := by
  obtain ⟨merged, read, ordered, owners, perm⟩ := all.residentRows_eq
  have report := all.report depth
  rw [accepted] at report
  cases report with
  | certified once placed separated =>
    have distinct : (merged.map fun row => row.1.1).Nodup := by
      have paths := perm.map Prod.fst
      rw [List.map_map] at paths
      refine List.nodup_iff_count_le_one.mpr fun path => ?_
      have atMost := once path
      rw [all.inTwoShards_iff, ← paths.count_eq] at atMost
      exact Nat.lt_succ_iff.mp (not_le.mp atMost)
    refine ⟨merged, read, ?_, owners, perm, separated.subset fun text member => ?_⟩
    · exact (ordered.and (List.pairwise_map.mp distinct)).imp fun both => lt_of_le_of_ne both.1 both.2
    · obtain ⟨row, isRow, rfl⟩ := List.mem_map.mp member
      exact List.mem_map.mpr ⟨row.1, perm.subset (List.mem_map_of_mem isRow), rfl⟩

/-- A visit of an exact path visits what filtering the whole lock visits. -/
theorem visitLockRowsValidated_exact {kernel : Kernel} {stored : ShardFiles} {exact : GatPath} {keep : Str → Bool}
    (inside : ∀ path : GatPath, keep path.text → path.isOrUnder exact) :
    visitLockRowsValidated kernel blake3 stored (some exact) keep = visitLockRowsValidated kernel blake3 stored none keep := by
  unfold visitLockRowsValidated
  rcases shardTopology_cases (stored.entries.map Prod.fst) with ⟨levels, one, uniform⟩ | ⟨⟨error, mixed⟩, -⟩
  · rw [one, Outcome.ok_bind, Outcome.ok_bind]
    cases read : stored.entries.mapM (decodeResidentShard kernel blake3) with
    | error failure => rfl
    | ok shards =>
      rw [Outcome.ok_bind, Outcome.ok_bind]
      cases accepted : certifyResidentShards shards with
      | error failure => rfl
      | ok certified =>
        obtain ⟨held, all⟩ := Held.of_decode read
        obtain ⟨merged, rows, increasing, -, perm, separated⟩ := all.merged_of_certified (List.forall_mem_map.mp uniform) accepted
        simp only [Outcome.ok_bind, all.findResident_eq, rows, Outcome.pure_eq_ok]
        cases found : (held.map viewRows).flatten.find? fun row => row.1.text = exact.text with
        | none => rfl
        | some row =>
          have same : row.1 = exact := GatPath.ext (by simpa using List.find?_some found)
          obtain ⟨owned, member, rfl⟩ := List.mem_map.mp (perm.symm.subset (List.mem_of_find?_eq_some found))
          have distinct : (merged.map fun row => row.1.1).Nodup := List.pairwise_map.mpr (increasing.imp ne_of_lt)
          rw [filter_exact distinct separated member (same ▸ inside)]
          dsimp only
          split_ifs <;> rfl
  · rw [mixed, Outcome.fail_bind, Outcome.fail_bind]

/-- The scope of a selection without globs is such an exact path. -/
theorem visitLockRowsValidated_scopePath {kernel : Kernel} {stored : ShardFiles} (selection : ScopedSelection) :
    visitLockRowsValidated kernel blake3 stored (if selection.filter.isUnrestricted then selection.scopePath else none) selection.matchesStr =
      visitLockRowsValidated kernel blake3 stored none selection.matchesStr := by
  cases bounds : (if selection.filter.isUnrestricted then selection.scopePath else none) with
  | none => rfl
  | some scope =>
    split_ifs at bounds
    refine visitLockRowsValidated_exact fun path selected => ?_
    have within := selection.inScope_of_matchesStr selected
    rw [bounds] at within
    exact GatPath.isOrUnder_iff.mpr (inScope_iff.mp within)

end Visit

/-- Certification accepts exactly the shards that are one lock, and reports a path in two shards before a misplaced row before an
ancestor pair. Accepted shards merge to all their rows in strict path order, and a lock visits for an exact path that bounds the
filter, as the scope of a selection does, what filtering the whole of it visits. -/
theorem sharded_lock_is_certified_and_merged {kernel : Kernel} {blake3 : ContentHash} {levels : LockShardLevels}
    {files : List (LockShardId × Str)} {shards : List ResidentShard} (oneDepth : ∀ file ∈ files, file.1.levels = levels)
    (valid : files.mapM (decodeResidentShard kernel blake3) = .ok shards) :
    ∃ queues, (shards.mapM fun shard => shard.view.semanticRows) = (.ok queues : Outcome LockError _) ∧
      let owned := (files.map Prod.fst).zip queues
      (certifyResidentShards shards = .ok () ↔ (∀ path, ¬InTwoShards queues path) ∧
        (∀ shard ∈ owned, ∀ row ∈ shard.2, LockShardId.forPath blake3 row.1 levels = shard.1) ∧ Separated Byte.slash (allTexts queues)) ∧
      ((∃ path, InTwoShards queues path) →
        ∃ path, InTwoShards queues path ∧ certifyResidentShards shards = Outcome.fail (.domain (.pathInMultipleShards path.text))) ∧
      ((∀ path, ¬InTwoShards queues path) → ∀ error, firstMisplaced blake3 levels owned = some error →
        certifyResidentShards shards = Outcome.fail (.domain error)) ∧
      ((∀ path, ¬InTwoShards queues path) → firstMisplaced blake3 levels owned = none → ¬Separated Byte.slash (allTexts queues) →
        ∃ ancestor ∈ allTexts queues, ∃ descendant ∈ allTexts queues, IsAncestor Byte.slash ancestor descendant ∧
          certifyResidentShards shards = Outcome.fail (.domain (.directoryPrefixConflict ancestor descendant))) ∧
      (certifyResidentShards shards = .ok () → ∃ merged, residentRows shards = .ok merged ∧
        (merged.Pairwise fun first second => first.1.1 < second.1.1) ∧ merged.Perm (List.owned queues.zipIdx)) ∧
      (∀ (stored : ShardFiles) (exact : GatPath) (keep : Str → Bool), (∀ path : GatPath, keep path.text → path.isOrUnder exact) →
        visitLockRowsValidated kernel blake3 stored (some exact) keep = visitLockRowsValidated kernel blake3 stored none keep) ∧
      ∀ (stored : ShardFiles) (selection : ScopedSelection),
        visitLockRowsValidated kernel blake3 stored (if selection.filter.isUnrestricted then selection.scopePath else none) selection.matchesStr =
          visitLockRowsValidated kernel blake3 stored none selection.matchesStr := by
  obtain ⟨held, all⟩ := Held.of_decode valid
  have report := all.report oneDepth
  have depth : ∀ shard ∈ (files.map Prod.fst).zip (held.map viewRows), shard.1.levels = levels := by
    intro shard member
    obtain ⟨file, isFile, same⟩ := List.mem_map.mp (List.of_mem_zip member).1
    exact same ▸ oneDepth file isFile
  refine ⟨held.map viewRows, all.mapM_semanticRows, ?_, ?_, ?_, ?_, fun accepted => ?_, fun stored exact keep inside =>
    visitLockRowsValidated_exact inside, fun stored selection => visitLockRowsValidated_scopePath selection⟩
  · rw [← firstMisplaced_eq_none_iff depth]
    generalize certifyResidentShards shards = answer at report
    cases report with
    | duplicate path twice => exact iff_of_false nofun fun valid => valid.1 path twice
    | misplaced error once first => exact iff_of_false nofun fun valid => nomatch first.symm.trans valid.2.1
    | conflict ancestor descendant once placed isAncestor isDescendant above =>
      exact iff_of_false nofun fun valid => valid.2.2 ancestor isAncestor descendant isDescendant above
    | certified once placed separated => exact iff_of_true rfl ⟨once, placed, separated⟩
  · rintro ⟨path, twice⟩
    generalize certifyResidentShards shards = answer at report
    cases report with
    | duplicate path twice => exact ⟨path, twice, rfl⟩
    | misplaced _ once => exact absurd twice (once path)
    | conflict _ _ once => exact absurd twice (once path)
    | certified once => exact absurd twice (once path)
  · intro once error first
    generalize certifyResidentShards shards = answer at report
    cases report with
    | duplicate path twice => exact absurd twice (once path)
    | misplaced other _ isFirst =>
      cases first.symm.trans isFirst
      rfl
    | conflict _ _ _ placed => cases first.symm.trans placed
    | certified _ placed => cases first.symm.trans placed
  · intro once placed overlap
    generalize certifyResidentShards shards = answer at report
    cases report with
    | duplicate path twice => exact absurd twice (once path)
    | misplaced error _ first => cases first.symm.trans placed
    | conflict ancestor descendant _ _ isAncestor isDescendant above =>
      exact ⟨ancestor, isAncestor, descendant, isDescendant, above, rfl⟩
    | certified _ _ separated => exact absurd separated overlap
  · obtain ⟨merged, read, increasing, perm, -, -⟩ := all.merged_of_certified oneDepth accepted
    exact ⟨merged, read, increasing, perm⟩

/-! ## Two shards -/

namespace TwoShards

/-- The second shard has two rows, one of them escaped. -/
def files : List (LockShardId × Str) :=
  [(LockShardId.forPath .sample .a .oneLevel, render [⟨.a, .filled 1⟩]),
    (LockShardId.forPath .sample .b .oneLevel, render [⟨.b, .filled 2⟩, ⟨.control, .filled 3⟩])]

def stored : ShardFiles := files.foldl (fun stored file => stored.insert file.1 file.2) .empty

/-- Everything at or under one path. -/
def selection : ScopedSelection := ⟨.path .b, ⟨[], []⟩⟩

end TwoShards

open TwoShards in
/-- Two shards are read, certified and merged in path order, and the scope of a selection visits its one row. -/
theorem sharded_lock_is_certified_and_merged_two :
    ∃ shards merged, files.mapM (decodeResidentShard Kernel.scalar .sample) = .ok shards ∧ certifyResidentShards shards = .ok () ∧
      residentRows shards = .ok merged ∧ (merged.Pairwise fun first second => first.1.1 < second.1.1) ∧
      merged = [((.a, .filled 1), 0), ((.b, .filled 2), 1), ((.control, .filled 3), 1)] ∧
      visitLockRowsValidated Kernel.scalar .sample stored (some .b) selection.matchesStr = .ok [⟨.b, .filled 2⟩] ∧
      visitLockRowsValidated Kernel.scalar .sample stored none selection.matchesStr = .ok [⟨.b, .filled 2⟩] := by
  have run : (files.mapM (decodeResidentShard Kernel.scalar .sample) >>= certifyResidentShards) = .ok () := by decide +kernel
  obtain ⟨shards, read, certified⟩ := Outcome.bind_eq_ok_iff.mp run
  have rows : (files.mapM (decodeResidentShard Kernel.scalar .sample) >>= residentRows) =
      .ok [((.a, .filled 1), 0), ((.b, .filled 2), 1), ((.control, .filled 3), 1)] := by decide +kernel
  have depth : ∀ file ∈ files, file.1.levels = .oneLevel := by decide
  obtain ⟨queues, -, -, -, -, -, merges, -, scopes⟩ := sharded_lock_is_certified_and_merged depth read
  obtain ⟨merged, isMerged, increasing, -⟩ := merges certified
  rw [read, Outcome.ok_bind, isMerged] at rows
  have visited : visitLockRowsValidated Kernel.scalar .sample stored (some .b) selection.matchesStr = .ok [⟨.b, .filled 2⟩] := by decide +kernel
  exact ⟨shards, merged, read, certified, isMerged, increasing, Except.ok.inj rows, visited, (scopes stored selection).symm.trans visited⟩

end Gat
