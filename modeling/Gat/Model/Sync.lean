import Gat.Model.LockCodec
import Gat.ToMathlib.SortedMap

/-! # Reconciliation data

A sync compares the desired rows of `gat.lock` with the ledger of what was last materialized, and turns
every path into at most one action. Actions that would discard a local edit are conflicts, which carry
their own resolution.
-/

namespace Gat

/-- A failure of code that can only fail with an error value. -/
def Outcome.ofExcept {ε α : Type} : Except ε α → Outcome ε α
  | .ok value => .ok value
  | .error failure => Outcome.fail failure

/-- The integrity of a cache object. -/
inductive ObjectVerification where
  | valid
  | missing
  | corrupt
deriving DecidableEq

/-- The stat evidence that a file's content is still what it was when it was hashed. -/
structure StatProof where
  size : UInt64
  mtimeSecs : Int64
  mtimeNanos : UInt32
deriving DecidableEq

/-- A ledger row: the object last materialized at a path, with reusable stat evidence. -/
structure MaterializedRow where
  path : GatPath
  oid : Oid
  proof : Option StatProof
deriving DecidableEq

/-- One change of the ledger. -/
inductive StateMutation where
  | upsert (row : MaterializedRow)
  | refreshStat (path : GatPath) (proof : StatProof)
  | removeExact (path : GatPath)
deriving DecidableEq

def StateMutation.path : StateMutation → GatPath
  | .upsert row => row.path
  | .refreshStat path _ => path
  | .removeExact path => path

/-- How hard a plan checks working-tree files. -/
inductive Validation where
  | validate
  | trustState
deriving DecidableEq

/-- Requested reconciliation behaviour; trusting the ledger cannot request rematerialization. -/
inductive ReconciliationPolicy where
  | validate (rematerialize : Bool)
  | trustState
deriving DecidableEq

namespace ReconciliationPolicy

def validation : ReconciliationPolicy → Validation
  | .validate _ => .validate
  | .trustState => .trustState

def rematerialize : ReconciliationPolicy → Bool
  | .validate rematerialize => rematerialize
  | .trustState => false

/-- A rebuilt ledger is validated even when trust was requested. -/
def forLedger (policy : ReconciliationPolicy) (validationRequired : Bool) : ReconciliationPolicy :=
  match policy with
  | .trustState => if validationRequired then .validate false else .trustState
  | other => other

end ReconciliationPolicy

/-- The shared selection of a command; an unrestricted one selects every path. -/
structure Selection where
  isUnrestricted : Bool
  selects : GatPath → Bool
  all_of_unrestricted : isUnrestricted → ∀ path, selects path

/-- The resolution of a locally modified path. -/
inductive ConflictResolution where
  | replace (entry : Entry)
  | rematerialize (entry : Entry)
  | remove (path : GatPath)
  | missingObject (entry : Entry)
deriving DecidableEq

inductive SyncAction where
  | materialize (entry : Entry)
  | replace (entry : Entry)
  | remove (path : GatPath)
  | rematerialize (entry : Entry)
  | conflict (resolution : ConflictResolution)
  | missingObject (path : GatPath) (oid : Oid)
  | corrupted (path : GatPath) (oid : Oid)
deriving DecidableEq

namespace ConflictResolution

def path : ConflictResolution → GatPath
  | .replace entry | .rematerialize entry | .missingObject entry => entry.path
  | .remove path => path

def intoAction : ConflictResolution → SyncAction
  | .replace entry => .replace entry
  | .rematerialize entry => .rematerialize entry
  | .remove path => .remove path
  | .missingObject entry => .missingObject entry.path entry.oid

end ConflictResolution

/-- The path an action is about. -/
def SyncAction.path : SyncAction → GatPath
  | .materialize entry | .replace entry | .rematerialize entry => entry.path
  | .remove path | .missingObject path _ | .corrupted path _ => path
  | .conflict resolution => resolution.path

@[simp] theorem ConflictResolution.path_intoAction (resolution : ConflictResolution) :
    resolution.intoAction.path = resolution.path := by
  cases resolution <;> rfl

/-- What a sync run did: counters of its mutations and the paths it left unresolved. -/
structure SyncOutcome where
  materialized : ℕ := 0
  replaced : ℕ := 0
  removed : ℕ := 0
  rematerialized : ℕ := 0
  conflicts : List GatPath := []
  missing : List (GatPath × Oid) := []
  corrupted : List (GatPath × Oid) := []
deriving DecidableEq

def SyncOutcome.isClean (outcome : SyncOutcome) : Bool :=
  outcome.conflicts.isEmpty && outcome.missing.isEmpty && outcome.corrupted.isEmpty

/-- A planning step can fail by itself or, after a failed step, fail to persist what was already done. -/
inductive SyncError (ε : Type) where
  | failure (cause : ε)
  | flushAfterFailure (primary secondary : SyncError ε)
deriving DecidableEq

end Gat
