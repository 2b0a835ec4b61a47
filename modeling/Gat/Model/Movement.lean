import Gat.Model.StateStore

/-! # Moving repository rows

Both halves of the source rows are read before either scope is cleared, so overlapping subtrees are remapped
once. Replaced tracked destinations lose both halves; materialized-only destinations survive unless an incoming
observation replaces them.
-/

namespace Gat

structure MovedRow where
  path : GatPath
  desired : Option Oid
  materialized : Option (Oid × Option StatProof)
deriving DecidableEq

structure RepositoryMoveRows where
  src : GatPath
  dst : GatPath
  moved : List MovedRow
  touched : Finset LockShardId

namespace RepositoryMoveRows

def read (table : StateTable) (src dst : GatPath) : RepositoryMoveRows where
  src := src
  dst := dst
  moved := (table.entries.filter fun entry => inScope src entry.1).map fun entry =>
    ⟨entry.1, entry.2.desired.map Prod.fst, entry.2.materialized⟩
  touched := table.desiredShardIdsForScope src

def sourcePaths (move : RepositoryMoveRows) : List GatPath :=
  (move.moved.filter fun row => row.desired.isSome).map MovedRow.path

def hasTrackedSource (move : RepositoryMoveRows) : Bool := move.sourcePaths ≠ []

/-- The new path of a moved row. -/
def target (move : RepositoryMoveRows) (row : MovedRow) : GatPath := row.path.withReplacedPrefix move.src move.dst

/-- The upsert of one moved row; without an observation of its own it keeps the one already there. -/
def insertMoved (move : RepositoryMoveRows) (blake3 : ContentHash) (levels : LockShardLevels) (table : StateTable)
    (row : MovedRow) : StateTable :=
  table.alter (move.target row) fun current =>
    some ⟨row.desired.map fun oid => (oid, LockShardId.forPath blake3 (move.target row) levels),
      row.materialized.or (current.bind StateRow.materialized)⟩

/-- The shards that moved rows land in. -/
def targetShards (move : RepositoryMoveRows) (blake3 : ContentHash) (levels : LockShardLevels) : Finset LockShardId :=
  (move.moved.filterMap fun row =>
    row.desired.map fun _ => LockShardId.forPath blake3 (move.target row) levels).toFinset

/-- Apply the move; the returned shards are those whose desired rows may have changed. -/
def apply (move : RepositoryMoveRows) (table : StateTable) (blake3 : ContentHash) (levels : LockShardLevels) :
    StateTable × Finset LockShardId :=
  if !move.hasTrackedSource then (table, ∅)
  else
    let touched := move.touched ∪ table.desiredShardIdsForScope move.dst
    let withoutSource := table.filter fun entry => !inScope move.src entry.1
    let withoutTracked := withoutSource.filter fun entry => !(entry.2.desired.isSome && inScope move.dst entry.1)
    (move.moved.foldl (move.insertMoved blake3 levels) withoutTracked, touched ∪ move.targetShards blake3 levels)

end RepositoryMoveRows

/-- Read and apply a move in one transaction. -/
def moveRepositoryRows (table : StateTable) (blake3 : ContentHash) (src dst : GatPath) (levels : LockShardLevels) :
    StateTable × Finset LockShardId :=
  (RepositoryMoveRows.read table src dst).apply table blake3 levels

end Gat
