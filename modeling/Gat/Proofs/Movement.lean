import Gat.Model.Movement
import Gat.Proofs.StateStore

/-! # A repository move as a function of a path

The rows a move inserts have distinct targets, so what it leaves at a path is decided by the one source row
that lands there, or by the row already there when none does.
-/

namespace Gat

namespace RepositoryMoveRows

open SortedMap

variable {table : StateTable} {blake3 : ContentHash} {levels : LockShardLevels} {src dst path source : GatPath} {row : StateRow}

/-- The materialized half that survives at a path until a moved row arrives. -/
def survivingHalf (table : StateTable) (src path : GatPath) : Option (Oid × Option StatProof) :=
  if GatPath.Under src path ∨ (table.desiredAt path).isSome then none else table.materializedAt path

/-- A source row lands on the path. -/
def Lands (table : StateTable) (src dst path : GatPath) : Prop :=
  ∃ source row, table.get? source = some row ∧ GatPath.Under src source ∧ source.withReplacedPrefix src dst = path

theorem mem_moved {moved : MovedRow} :
    moved ∈ (read table src dst).moved ↔
      ∃ row, table.get? moved.path = some row ∧ GatPath.Under src moved.path ∧
        moved = ⟨moved.path, row.desired.map Prod.fst, row.materialized⟩ := by
  simp only [read, List.mem_map, List.mem_filter, inScope_iff]
  constructor
  · rintro ⟨entry, ⟨member, under⟩, rfl⟩
    exact ⟨entry.2, get?_of_mem member, under, rfl⟩
  · rintro ⟨row, found, under, same⟩
    exact ⟨(moved.path, row), ⟨get?_eq_some_iff.mp found, under⟩, same.symm⟩

theorem hasTrackedSource_iff (dst : GatPath) :
    (read table src dst).hasTrackedSource ↔ ∃ path, GatPath.Under src path ∧ (table.desiredAt path).isSome := by
  unfold hasTrackedSource sourcePaths
  rw [decide_eq_true_eq, Ne, List.map_eq_nil_iff, List.filter_eq_nil_iff]
  push Not
  simp only [mem_moved]
  constructor
  · rintro ⟨moved, ⟨row, found, under, same⟩, tracked⟩
    refine ⟨moved.path, under, ?_⟩
    rw [same, Option.isSome_map] at tracked
    rw [StateTable.desiredAt, found]
    exact tracked
  · rintro ⟨path, under, tracked⟩
    obtain ⟨row, found, desired⟩ := Option.bind_eq_some_iff.mp (Option.get_mem tracked)
    refine ⟨⟨path, row.desired.map Prod.fst, row.materialized⟩, ⟨row, found, under, rfl⟩, ?_⟩
    rw [Option.isSome_map, desired]
    rfl

/-- Distinct source rows have distinct targets. -/
theorem nodup_target : ((read table src dst).moved.map (read table src dst).target).Nodup := by
  have sorted : (read table src dst).moved.Pairwise fun left right => left.path < right.path :=
    List.pairwise_map.mpr (table.sorted.filter _)
  refine List.pairwise_map.mpr (sorted.imp_of_mem fun {left right} leftMember rightMember before same => ?_)
  obtain ⟨-, -, leftUnder, -⟩ := mem_moved.mp leftMember
  obtain ⟨-, -, rightUnder, -⟩ := mem_moved.mp rightMember
  exact before.ne (GatPath.withReplacedPrefix_injOn leftUnder rightUnder same)

/-- The table between the deletions and the insertions of a move. -/
def cleared (table : StateTable) (src dst : GatPath) : StateTable :=
  (table.filter fun entry => !inScope src entry.1).filter fun entry => !(entry.2.desired.isSome && inScope dst entry.1)

theorem get?_cleared :
    (cleared table src dst).get? path =
      (table.get? path).filter fun row => !inScope src path && !(row.desired.isSome && inScope dst path) := by
  rw [cleared, get?_filter, get?_filter, Option.filter_filter]

/-- Only a path of the destination that was no source keeps a half, and only an untracked one. -/
theorem materializedAt_cleared (under : GatPath.Under dst path) :
    (cleared table src dst).materializedAt path = survivingHalf table src path := by
  unfold survivingHalf StateTable.materializedAt StateTable.desiredAt
  rw [get?_cleared]
  by_cases source : GatPath.Under src path
  · rw [if_pos (Or.inl source), inScope_iff.mpr source]
    cases table.get? path <;> rfl
  · have notSource : inScope src path = false := Bool.eq_false_iff.mpr (mt inScope_iff.mp source)
    rw [notSource, inScope_iff.mpr under]
    cases found : table.get? path with
    | none => simp
    | some row => cases tracked : row.desired <;> simp [tracked, source, Option.filter]

theorem apply_fst (tracked : (read table src dst).hasTrackedSource) :
    ((read table src dst).apply table blake3 levels).1 =
      (read table src dst).moved.foldl ((read table src dst).insertMoved blake3 levels) (cleared table src dst) := by
  rw [apply, if_neg (by simpa using tracked)]
  rfl

theorem apply_snd (tracked : (read table src dst).hasTrackedSource) :
    ((read table src dst).apply table blake3 levels).2 =
      table.desiredShardIdsForScope src ∪ table.desiredShardIdsForScope dst ∪
        (read table src dst).targetShards blake3 levels := by
  rw [apply, if_neg (by simpa using tracked)]
  rfl

/-- A source row lands with its object, the shard of its new path and its own observation. -/
theorem get?_apply_of_source (tracked : (read table src dst).hasTrackedSource) (found : table.get? source = some row)
    (under : GatPath.Under src source) :
    ((read table src dst).apply table blake3 levels).1.get? (source.withReplacedPrefix src dst) =
      some ⟨row.desired.map fun held => (held.1, LockShardId.forPath blake3 (source.withReplacedPrefix src dst) levels),
        row.materialized.or (survivingHalf table src (source.withReplacedPrefix src dst))⟩ := by
  have member : ⟨source, row.desired.map Prod.fst, row.materialized⟩ ∈ (read table src dst).moved :=
    mem_moved.mpr ⟨row, found, under, rfl⟩
  rw [apply_fst tracked]
  refine (get?_foldl_alter_of_mem (read table src dst).target nodup_target (cleared table src dst) member).trans ?_
  rw [← materializedAt_cleared (GatPath.under_withReplacedPrefix under dst)]
  rw [Option.map_map]
  rfl

/-- Where no source row lands, only the deletions show. -/
theorem get?_apply_of_not_lands (tracked : (read table src dst).hasTrackedSource) (free : ¬Lands table src dst path) :
    ((read table src dst).apply table blake3 levels).1.get? path = (cleared table src dst).get? path := by
  rw [apply_fst tracked]
  refine get?_foldl_alter_of_forall_ne (read table src dst).target _ fun moved member same => ?_
  obtain ⟨row, found, under, -⟩ := mem_moved.mp member
  exact free ⟨moved.path, row, found, under, same⟩

theorem mem_targetShards {shard : LockShardId} :
    shard ∈ (read table src dst).targetShards blake3 levels ↔
      ∃ path, GatPath.Under src path ∧ (table.desiredAt path).isSome ∧
        LockShardId.forPath blake3 (path.withReplacedPrefix src dst) levels = shard := by
  simp only [targetShards, List.mem_toFinset, List.mem_filterMap, Option.map_eq_some_iff, exists_and_right, mem_moved]
  constructor
  · rintro ⟨moved, ⟨row, found, under, same⟩, ⟨oid, desired⟩, placed⟩
    refine ⟨moved.path, under, ?_, placed⟩
    rw [same, Option.map_eq_some_iff] at desired
    obtain ⟨held, desired, -⟩ := desired
    rw [StateTable.desiredAt, found, Option.bind_some, desired]
    rfl
  · rintro ⟨path, under, tracked, placed⟩
    obtain ⟨row, found, desired⟩ := Option.bind_eq_some_iff.mp (Option.get_mem tracked)
    exact ⟨⟨path, row.desired.map Prod.fst, row.materialized⟩, ⟨row, found, under, rfl⟩,
      ⟨_, congrArg (Option.map Prod.fst) desired⟩, placed⟩

/-- What the deletions of a move leave desired is outside both subtrees and unchanged. -/
theorem desiredAt_cleared_eq_some {held : Oid × LockShardId} :
    (cleared table src dst).desiredAt path = some held ↔
      table.desiredAt path = some held ∧ ¬GatPath.Under src path ∧ ¬GatPath.Under dst path := by
  unfold StateTable.desiredAt
  rw [get?_cleared, Option.bind_eq_some_iff, Option.bind_eq_some_iff]
  constructor
  · rintro ⟨row, left, desired⟩
    obtain ⟨found, kept⟩ := Option.filter_eq_some_iff.mp left
    rw [desired, Bool.and_eq_true, Bool.not_eq_true', Option.isSome_some, Bool.true_and, Bool.not_eq_true'] at kept
    refine ⟨⟨row, found, desired⟩, ?_, ?_⟩
    · exact fun under => Bool.false_ne_true (kept.1.symm.trans (inScope_iff.mpr under))
    · exact fun under => Bool.false_ne_true (kept.2.symm.trans (inScope_iff.mpr under))
  · rintro ⟨⟨row, found, desired⟩, notSource, notTarget⟩
    refine ⟨row, Option.filter_eq_some_iff.mpr ⟨found, ?_⟩, desired⟩
    rw [Bool.eq_false_iff.mpr (mt inScope_iff.mp notSource), Bool.eq_false_iff.mpr (mt inScope_iff.mp notTarget), Bool.and_false]
    rfl

/-- A path is desired after a move because a tracked row landed there, or because it is outside both subtrees. -/
theorem desiredAt_apply_eq_some (tracked : (read table src dst).hasTrackedSource) {oid : Oid} {shard : LockShardId} :
    ((read table src dst).apply table blake3 levels).1.desiredAt path = some (oid, shard) ↔
      (∃ source former, GatPath.Under src source ∧ table.desiredAt source = some (oid, former) ∧
        source.withReplacedPrefix src dst = path ∧ shard = LockShardId.forPath blake3 path levels) ∨
      table.desiredAt path = some (oid, shard) ∧ ¬GatPath.Under src path ∧ ¬GatPath.Under dst path := by
  by_cases lands : Lands table src dst path
  · obtain ⟨source, row, found, under, rfl⟩ := lands
    have inside := GatPath.under_withReplacedPrefix under dst
    rw [StateTable.desiredAt, get?_apply_of_source tracked found under, Option.bind_some, Option.map_eq_some_iff]
    constructor
    · rintro ⟨held, desired, same⟩
      cases same
      exact Or.inl ⟨source, held.2, under, by rw [StateTable.desiredAt, found]; exact desired, rfl, rfl⟩
    · rintro (⟨other, former, otherUnder, desired, same, rfl⟩ | ⟨-, -, outside⟩)
      · obtain rfl := GatPath.withReplacedPrefix_injOn otherUnder under same
        rw [StateTable.desiredAt, found] at desired
        exact ⟨(oid, former), desired, rfl⟩
      · exact absurd inside outside
  · rw [StateTable.desiredAt, get?_apply_of_not_lands tracked lands]
    refine desiredAt_cleared_eq_some.trans ⟨Or.inr, ?_⟩
    rintro (⟨source, former, under, desired, same, -⟩ | outside)
    · obtain ⟨row, found, -⟩ := Option.bind_eq_some_iff.mp desired
      exact absurd ⟨source, row, found, under, same⟩ lands
    · exact outside

/-- Every shard whose desired rows a move changes is among those it returns. -/
theorem shardRows_apply_of_not_mem (tracked : (read table src dst).hasTrackedSource) {shard : LockShardId}
    (untouched : shard ∉ ((read table src dst).apply table blake3 levels).2) :
    ((read table src dst).apply table blake3 levels).1.shardRows shard = table.shardRows shard := by
  rw [apply_snd tracked, Finset.mem_union, Finset.mem_union, StateTable.mem_desiredShardIdsForScope,
    StateTable.mem_desiredShardIdsForScope, mem_targetShards] at untouched
  push Not at untouched
  refine StateTable.shardRows_congr fun path oid => (desiredAt_apply_eq_some tracked).trans ?_
  constructor
  · rintro (⟨source, former, under, desired, rfl, placed⟩ | ⟨desired, -⟩)
    · exact absurd placed.symm (untouched.2 source under (by rw [desired]; rfl))
    · exact desired
  · intro desired
    refine Or.inr ⟨desired, fun under => ?_, fun under => ?_⟩
    · exact untouched.1.1 path oid under desired
    · exact untouched.1.2 path oid under desired

theorem placedAt_apply (tracked : (read table src dst).hasTrackedSource) (placed : table.PlacedAt blake3 levels) :
    ((read table src dst).apply table blake3 levels).1.PlacedAt blake3 levels := by
  intro path oid shard desired
  rcases (desiredAt_apply_eq_some tracked).mp desired with ⟨_, _, _, _, _, here⟩ | ⟨outside, -⟩
  · exact here
  · exact placed path oid shard outside

end RepositoryMoveRows

end Gat
