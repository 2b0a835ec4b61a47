import Gat.Model.StateStore

/-! # Batched writes to the materialized half

The table as its statements see it: four nullable columns under the constraints of the schema. A batch groups neighbouring
mutations of one kind into statements over chunks of rows.
-/

namespace Gat

/-- A row that the table's `CHECK` constraints admit. -/
structure StateColumns where
  desiredOid : Option Oid
  desiredShardId : Option LockShardId
  materializedOid : Option Oid
  materializedProof : Option StatProof
  paired : desiredOid.isNone = desiredShardId.isNone
  proved : materializedProof.isSome → materializedOid.isSome
deriving DecidableEq

abbrev StateRelation := SortedMap GatPath StateColumns

/-- Which row of the join an `UPDATE … FROM` takes when several match. -/
structure JoinChoice where
  pick : List StatProof → Option StatProof
  pick_nil : pick [] = none
  pick_mem : ∀ {matching}, matching ≠ [] → ∃ proof ∈ matching, pick matching = some proof

namespace StateColumns

/-- What a sync sees of the columns. -/
def ledgerRow (columns : StateColumns) : LedgerRow :=
  ⟨columns.desiredOid, columns.materializedOid.map fun oid => (oid, columns.materializedProof)⟩

/-- The row that an insertion starts with. -/
def inserted (oid : Oid) (proof : Option StatProof) : StateColumns := ⟨none, none, some oid, proof, rfl, fun _ => rfl⟩

/-- `DO UPDATE SET … WHERE` one of the columns differs. -/
def upsertMaterialized (columns : StateColumns) (oid : Oid) (proof : Option StatProof) : StateColumns :=
  if columns.materializedOid ≠ some oid ∨ columns.materializedProof ≠ proof then
    { columns with materializedOid := some oid, materializedProof := proof, proved := fun _ => rfl }
  else columns

/-- `SET materialized_proof` of a row with a materialized object. -/
def refreshProof (columns : StateColumns) (proof : StatProof) : StateColumns :=
  if materialized : columns.materializedOid.isSome then
    { columns with materializedProof := some proof, proved := fun _ => materialized }
  else columns

/-- `SET materialized_oid = NULL, materialized_proof = NULL`. -/
def clearMaterialized (columns : StateColumns) : StateColumns :=
  if columns.materializedOid.isSome then { columns with materializedOid := none, materializedProof := none, proved := nofun }
  else columns

end StateColumns

namespace StateRelation

variable (table : StateRelation)

/-- One row of an `INSERT … ON CONFLICT`. -/
def upsertRow (row : MaterializedRow) : StateRelation :=
  table.alter row.path fun
    | none => some (.inserted row.oid row.proof)
    | some columns => some (columns.upsertMaterialized row.oid row.proof)

/-- A statement inserts its rows in order, so a row can conflict with an earlier one of the same statement. -/
def bulkUpsertMaterialized (rows : List MaterializedRow) : StateRelation :=
  (chunks (sqlChunkSize 3 (by decide)) rows).foldl (fun table chunk => chunk.foldl upsertRow table) table

/-- One `UPDATE … FROM` over all rows that match. -/
def refreshChunk (choice : JoinChoice) (chunk : List (GatPath × StatProof)) : StateRelation :=
  table.mapValues fun path columns =>
    match choice.pick ((chunk.filter fun pair => pair.1 = path).map Prod.snd) with
    | some proof => columns.refreshProof proof
    | none => columns

def bulkRefreshMaterializedProofs (choice : JoinChoice) (proofs : List (GatPath × StatProof)) : StateRelation :=
  (chunks (sqlChunkSize 2 (by decide)) proofs).foldl (fun table chunk => table.refreshChunk choice chunk) table

/-- A row without a desired half is pruned, and otherwise its materialized half is cleared. -/
def clearPath (path : GatPath) : StateRelation :=
  table.alter path fun current =>
    current.bind fun columns => if columns.desiredOid.isNone then none else some columns.clearMaterialized

def clearMaterializedExact (paths : List GatPath) : StateRelation := paths.foldl clearPath table

end StateRelation

namespace StateMutation

inductive Kind where
  | upsert
  | refreshStat
  | removeExact
deriving DecidableEq

def kind : StateMutation → Kind
  | .upsert _ => .upsert
  | .refreshStat _ _ => .refreshStat
  | .removeExact _ => .removeExact

def row? : StateMutation → Option MaterializedRow
  | .upsert row => some row
  | _ => none

def proof? : StateMutation → Option (GatPath × StatProof)
  | .refreshStat path proof => some (path, proof)
  | _ => none

def removed? : StateMutation → Option GatPath
  | .removeExact path => some path
  | _ => none

end StateMutation

namespace StateRelation

/-- The statements for neighbouring mutations of one kind. -/
def applyRun (choice : JoinChoice) (table : StateRelation) (kind : StateMutation.Kind) (run : List StateMutation) : StateRelation :=
  match kind with
  | .upsert => table.bulkUpsertMaterialized (run.filterMap StateMutation.row?)
  | .refreshStat => table.bulkRefreshMaterializedProofs choice (run.filterMap StateMutation.proof?)
  | .removeExact => table.clearMaterializedExact (run.filterMap StateMutation.removed?)

/-- One transaction over the runs of a batch. -/
def applyBatch (choice : JoinChoice) (table : StateRelation) : List StateMutation → StateRelation
  | [] => table
  | op :: ops =>
    let run := op :: ops.takeWhile fun other => other.kind = op.kind
    applyBatch choice (table.applyRun choice op.kind run) (ops.dropWhile fun other => other.kind = op.kind)
termination_by ops => ops.length
decreasing_by
  have shorter := (List.dropWhile_sublist (l := ops) fun other => decide (other.kind = op.kind)).length_le
  simp only [List.length_cons]
  omega

end StateRelation

end Gat
