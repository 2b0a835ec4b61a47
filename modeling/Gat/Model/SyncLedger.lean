import Gat.Model.Sync

/-! # The ledger

One row of the state table has two halves for a path: the object `gat.lock` desires, mirrored from the
lock, and the object last materialized. A sync changes the materialized half only. A row without either
half is not kept, and a row whose halves disagree is dirty.
-/

namespace Gat

structure LedgerRow where
  desired : Option Oid
  materialized : Option (Oid × Option StatProof)
deriving DecidableEq

abbrev Ledger := SortedMap GatPath LedgerRow

/-- The generated `dirty` column. -/
def LedgerRow.dirty (row : LedgerRow) : Bool :=
  match row.desired, row.materialized with
  | none, none => false
  | some desired, some materialized => desired ≠ materialized.1
  | _, _ => true

/-- What a mutation does to the row of its path. -/
def StateMutation.change : StateMutation → Option LedgerRow → Option LedgerRow
  | .upsert row, current => some ⟨current.bind LedgerRow.desired, some (row.oid, row.proof)⟩
  | .refreshStat _ proof, current =>
    current.map fun row => { row with materialized := row.materialized.map fun held => (held.1, some proof) }
  | .removeExact _, current =>
    current.bind fun row => if row.desired.isNone then none else some { row with materialized := none }

namespace Ledger

def apply (ledger : Ledger) (mutation : StateMutation) : Ledger := ledger.alter mutation.path mutation.change

/-- Apply mutations in one transaction. -/
def applyBatch (ledger : Ledger) (mutations : List StateMutation) : Ledger := mutations.foldl apply ledger

/-- The object `gat.lock` desires at a path. -/
def desiredOid (ledger : Ledger) (path : GatPath) : Option Oid := (ledger.get? path).bind LedgerRow.desired

/-- The object last materialized at a path. -/
def materializedOid (ledger : Ledger) (path : GatPath) : Option Oid :=
  ((ledger.get? path).bind LedgerRow.materialized).map Prod.fst

/-- The paths of the rows that a trusting sync would work on. -/
def dirtyPaths (ledger : Ledger) : List GatPath :=
  (ledger.entries.filter fun entry => entry.2.dirty).map Prod.fst

/-- The selected desired rows in path order. -/
def desiredRows (ledger : Ledger) (selection : Selection) : List Entry :=
  ledger.entries.filterMap fun entry =>
    if selection.selects entry.1 then entry.2.desired.map (Entry.mk entry.1) else none

/-- The selected materialized rows in path order. -/
def materializedRows (ledger : Ledger) (selection : Selection) : List MaterializedRow :=
  ledger.entries.filterMap fun entry =>
    if selection.selects entry.1 then entry.2.materialized.map fun held => ⟨entry.1, held.1, held.2⟩ else none

end Ledger

end Gat
