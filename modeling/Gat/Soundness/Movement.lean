import Gat.Proofs.Movement

/-! # A repository move remaps the tree

Source and destination are arbitrary, so the subtrees can be disjoint, equal or nested either way.
-/

namespace Gat

open RepositoryMoveRows

variable {blake3 : ContentHash} {levels : LockShardLevels} {src dst : GatPath} {before after : StateTable}

/-- What a move leaves at each path. A tracked destination loses both halves, so the half that an incoming row
without an observation keeps is that of a materialized-only destination. -/
structure MovedTree (blake3 : ContentHash) (levels : LockShardLevels) (src dst : GatPath) (before after : StateTable) :
    Prop where
  outside : ∀ path, ¬GatPath.Under src path → ¬GatPath.Under dst path → after.get? path = before.get? path
  moved : ∀ path row, before.get? path = some row → GatPath.Under src path →
    after.get? (path.withReplacedPrefix src dst) =
      some ⟨row.desired.map fun held => (held.1, LockShardId.forPath blake3 (path.withReplacedPrefix src dst) levels),
        row.materialized.or (survivingHalf before src (path.withReplacedPrefix src dst))⟩
  vacated : ∀ path, GatPath.Under src path → ¬Lands before src dst path → after.get? path = none
  replaced : ∀ path, GatPath.Under dst path → ¬GatPath.Under src path → (before.desiredAt path).isSome →
    ¬Lands before src dst path → after.get? path = none
  kept : ∀ path, GatPath.Under dst path → ¬GatPath.Under src path → before.desiredAt path = none →
    ¬Lands before src dst path → after.get? path = before.get? path
  placed : before.PlacedAt blake3 levels → after.PlacedAt blake3 levels

/-- No source row leaves the destination subtree it was moved to. -/
theorem not_lands_of_outside {path : GatPath} (outside : ¬GatPath.Under dst path) : ¬Lands before src dst path := by
  rintro ⟨source, row, -, under, rfl⟩
  exact outside (GatPath.under_withReplacedPrefix under dst)

theorem movedTree_apply (tracked : (read before src dst).hasTrackedSource) :
    MovedTree blake3 levels src dst before ((read before src dst).apply before blake3 levels).1 where
  outside path notSource notTarget := by
    rw [get?_apply_of_not_lands tracked (not_lands_of_outside notTarget), get?_cleared,
      Bool.eq_false_iff.mpr (mt inScope_iff.mp notSource), Bool.eq_false_iff.mpr (mt inScope_iff.mp notTarget)]
    cases before.get? path <;> simp [Option.filter]
  moved path row found under := get?_apply_of_source tracked found under
  vacated path source free := by
    rw [get?_apply_of_not_lands tracked free, get?_cleared, inScope_iff.mpr source]
    cases before.get? path <;> rfl
  replaced path target notSource desired free := by
    obtain ⟨held, isHeld⟩ := Option.isSome_iff_exists.mp desired
    obtain ⟨row, found, isDesired⟩ := Option.bind_eq_some_iff.mp isHeld
    rw [get?_apply_of_not_lands tracked free, get?_cleared, inScope_iff.mpr target, found, Option.filter_some,
      if_neg (by simp [isDesired])]
  kept path target notSource untracked free := by
    rw [get?_apply_of_not_lands tracked free, get?_cleared, Bool.eq_false_iff.mpr (mt inScope_iff.mp notSource)]
    cases found : before.get? path with
    | none => rfl
    | some row =>
      rw [StateTable.desiredAt, found] at untracked
      change row.desired = none at untracked
      rw [Option.filter_some, untracked]
      rfl
  placed := placedAt_apply tracked

/-- Moving a tree remaps every source row once and loses nothing, and the shards whose desired rows change are all
returned; without a tracked source nothing changes. -/
theorem move_remaps_tree (table : StateTable) (blake3 : ContentHash) (src dst : GatPath) (levels : LockShardLevels) :
    ((∃ path, GatPath.Under src path ∧ (table.desiredAt path).isSome) →
      MovedTree blake3 levels src dst table (moveRepositoryRows table blake3 src dst levels).1 ∧
      ∀ shard, (moveRepositoryRows table blake3 src dst levels).1.shardRows shard ≠ table.shardRows shard →
        shard ∈ (moveRepositoryRows table blake3 src dst levels).2) ∧
    ((¬∃ path, GatPath.Under src path ∧ (table.desiredAt path).isSome) →
      moveRepositoryRows table blake3 src dst levels = (table, ∅)) := by
  rw [← hasTrackedSource_iff dst]
  refine ⟨fun tracked => ⟨movedTree_apply tracked, fun shard changed => ?_⟩, fun untracked => ?_⟩
  · by_contra untouched
    exact changed (shardRows_apply_of_not_mem tracked untouched)
  · rw [moveRepositoryRows, apply, if_pos (by simpa using untracked)]

end Gat
