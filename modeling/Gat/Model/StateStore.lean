import Gat.Model.LexicalTree
import Gat.Model.LockTree
import Gat.Model.SyncLedger
import Gat.Model.SyncPlan
import Mathlib.Data.Finset.Sort

/-! # The state table

One row for each path holds what `gat.lock` desires there, with the shard that the row belongs to, and what was
last materialized. Statements select rows by exact path or by the byte range of a subtree. Reads with many
parameters are cut into chunks below the bind limit.
-/

namespace Gat

structure StateRow where
  desired : Option (Oid × LockShardId)
  materialized : Option (Oid × Option StatProof)
deriving DecidableEq

abbrev StateTable := SortedMap GatPath StateRow

/-- The bind limit of one statement. -/
def SQL_BIND_BUDGET : ℕ := 30000

/-- How many rows with some parameters each fit into one statement. -/
def sqlChunkSize (bindsPerRow : ℕ+) (fits : bindsPerRow ≤ SQL_BIND_BUDGET) : ℕ+ :=
  ⟨SQL_BIND_BUDGET / bindsPerRow, Nat.div_pos fits bindsPerRow.pos⟩

/-- The chunks of the lookups that bind one value for each row. -/
def lookupChunkSize : ℕ+ := sqlChunkSize 1 (by decide)

/-- `path = ?1 OR (path >= ?2 AND path < ?3)` for the subtree of a path. -/
def inScope (scope path : GatPath) : Bool :=
  path = scope || (scope.descendantRange.1 ≤ path.text && path.text < scope.descendantRange.2)

namespace StateTable

variable (table : StateTable)

/-- The object and shard that a path is desired with. -/
def desiredAt (path : GatPath) : Option (Oid × LockShardId) := (table.get? path).bind StateRow.desired

/-- The materialized half of a path. -/
def materializedAt (path : GatPath) : Option (Oid × Option StatProof) := (table.get? path).bind StateRow.materialized

/-- Every desired row in path order. -/
def desiredRows : List Entry :=
  table.entries.filterMap fun entry => entry.2.desired.map fun held => ⟨entry.1, held.1⟩

/-- The desired rows of one shard in path order. -/
def shardRows (shard : LockShardId) : List Entry :=
  table.entries.filterMap fun entry =>
    entry.2.desired.bind fun held => if held.2 = shard then some ⟨entry.1, held.1⟩ else none

/-! ## Writes -/

/-- Upsert desired rows, computing their shards from the configured depth. -/
def upsertEntries (blake3 : ContentHash) (levels : LockShardLevels) (entries : List Entry) : StateTable :=
  entries.foldl (fun table entry => table.alter entry.path fun row =>
    some ⟨some (entry.oid, LockShardId.forPath blake3 entry.path levels), row.bind StateRow.materialized⟩) table

/-- Clear the desired half of exact paths; a row without a materialized half is deleted. -/
def clearDesiredExact (paths : List GatPath) : StateTable :=
  paths.foldl (fun table path => table.alter path fun row =>
    row.bind fun row => if row.materialized.isNone then none else some { row with desired := none }) table

/-- Clear the desired half of a subtree; rows without a materialized half are deleted first. -/
def clearDesiredPrefix (scope : GatPath) : StateTable :=
  (table.filter fun entry => !(inScope scope entry.1 && entry.2.materialized.isNone)).mapValues fun path row =>
    if inScope scope path then { row with desired := none } else row

/-! ## Shard lookups -/

/-- The shards of the desired rows that a predicate selects. -/
def desiredShardIdsWhere (selects : GatPath → Bool) : Finset LockShardId :=
  (table.entries.filterMap fun entry =>
    if selects entry.1 then entry.2.desired.map Prod.snd else none).toFinset

/-- The shards that hold any of some paths, looked up a chunk at a time. -/
def desiredShardIdsForPaths (paths : List GatPath) : Finset LockShardId :=
  (chunks lookupChunkSize paths).foldl
    (fun ids chunk => ids ∪ table.desiredShardIdsWhere fun path => path ∈ chunk) ∅

/-- The shards that hold any row of a subtree. -/
def desiredShardIdsForScope (scope : GatPath) : Finset LockShardId := table.desiredShardIdsWhere (inScope scope)

/-- The complete rows of some shards, read a chunk of shards at a time; a shard without rows is left out. -/
def desiredRowsByShardIds (ids : Finset LockShardId) : SortedMap LockShardId (List Entry) :=
  (chunks lookupChunkSize ids.sort).foldl (fun rows chunk =>
    (chunk.flatMap fun id => (table.shardRows id).map fun entry => (id, entry)).foldl pushRow rows) .empty

end StateTable

end Gat
