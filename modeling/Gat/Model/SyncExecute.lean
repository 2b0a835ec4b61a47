import Gat.Model.SyncLedger
import Gat.Model.SyncPlan

/-! # Applying a sync plan

The execution sink applies every action to the working tree at once and collects the ledger mutations of
what has succeeded. A bounded batch of them is committed in one transaction, and only then are the
directories emptied by its removals pruned.
-/

namespace Gat

/-- How many mutations accumulate before they are committed. -/
def BATCH_SIZE : ℕ := 10000

inductive DestinationKind where
  | missing
  | directory
  | other
deriving DecidableEq

/-- What the surroundings of a sync answer. `stage` prepares the file of an entry, and publishing it is one
rename; `unlink` fails for another reason than a missing file. A run asks each question at most once, so
one answer for each question describes any run. -/
structure SyncEnvironment (ε φ : Type) where
  worktree : Worktree ε
  verify : Oid → Except ε ObjectVerification
  inspectDestination : GatPath → Except ε DestinationKind
  stage : Entry → Except ε (φ × Option StatProof)
  unlink : GatPath → Except ε Unit
  commit : List StateMutation → Except ε Unit
  prune : List GatPath → Except ε Unit
  /-- A stream fails after some of its rows. -/
  desiredFault : Option (ℕ × ε)
  priorFault : Option (ℕ × ε)
  syncExcludes : Except ε Unit
  clearValidationRequired : Except ε Unit

/-- The sink's state: the files of the working tree, the committed ledger and the pending batch. -/
structure Session (φ : Type) where
  files : SortedMap GatPath φ
  ledger : Ledger
  ops : List StateMutation := []
  removals : List GatPath := []
  flushFailed : Bool := false
  outcome : SyncOutcome := {}

variable {ε φ α : Type}

abbrev Executing (ε φ α : Type) := Fallible (Fault (SyncError ε)) (Session φ) α

/-- Ask the surroundings. -/
def attempt (answer : Except ε α) : Executing ε φ α :=
  Fallible.raise (Outcome.ofExcept (answer.mapError SyncError.failure))

/-- Resolve force-overridden conflicts. -/
def resolveAction (action : SyncAction) (force : Bool) : SyncAction :=
  match action with
  | .conflict resolution => if force then resolution.intoAction else .conflict resolution
  | other => other

/-- Account for a resolved decision. -/
def recordAction (outcome : SyncOutcome) : SyncAction → SyncOutcome
  | .materialize _ => { outcome with materialized := outcome.materialized + 1 }
  | .replace _ => { outcome with replaced := outcome.replaced + 1 }
  | .rematerialize _ => { outcome with rematerialized := outcome.rematerialized + 1 }
  | .remove _ => { outcome with removed := outcome.removed + 1 }
  | .missingObject path oid => { outcome with missing := outcome.missing ++ [(path, oid)] }
  | .corrupted path oid => { outcome with corrupted := outcome.corrupted ++ [(path, oid)] }
  | .conflict resolution => { outcome with conflicts := outcome.conflicts ++ [resolution.path] }

section Sink

variable (environment : SyncEnvironment ε φ)

/-- Commit the pending batch, then prune what its removals emptied. -/
def flushBatch : Executing ε φ PUnit := do
  let session ← get
  if session.ops = [] then return
  attempt (environment.commit session.ops)
  modify fun session => { session with ledger := session.ledger.applyBatch session.ops, ops := [] }
  if session.removals ≠ [] then
    modify fun session => { session with removals := [] }
    attempt (environment.prune session.removals)

def flushPending : Executing ε φ PUnit := do
  let result ← Fallible.observe (flushBatch environment)
  modify fun session => { session with flushFailed := !result.isOk }
  Fallible.raise result

def flushIfBatchFull : Executing ε φ PUnit := do
  if BATCH_SIZE ≤ (← get).ops.length then flushPending environment

/-- Publish a privately prepared representation; a failure leaves the destination alone. -/
def materializeFile (entry : Entry) : Executing ε φ StateMutation := do
  let staged ← attempt (environment.stage entry)
  modify fun session => { session with files := session.files.insert entry.path staged.1 }
  return .upsert ⟨entry.path, entry.oid, staged.2⟩

/-- Remove a file; an absent one leaves no receipt. -/
def doRemove (path : GatPath) : Executing ε φ (Option GatPath) := do
  attempt (environment.unlink path)
  if ((← get).files.get? path).isNone then return none
  modify fun session => { session with files := session.files.erase path }
  return some path

/-- An earlier removal may have left a directory at the destination; pruning it needs a commit first. -/
def clearDestination (path : GatPath) : Executing ε φ PUnit := do
  if (← get).removals ≠ [] then
    if (← attempt (environment.inspectDestination path)) = .directory then flushPending environment

/-- The arm of an action that writes a file. -/
def applyMaterialization (entry : Entry) : Executing ε φ PUnit := do
  clearDestination environment entry.path
  let mutation ← materializeFile environment entry
  modify fun session => { session with ops := session.ops ++ [mutation] }

/-- The arm of an action that removes a file. -/
def applyRemoval (path : GatPath) : Executing ε φ PUnit := do
  let receipt ← doRemove environment path
  modify fun session => { session with
    removals := session.removals ++ receipt.toList
    ops := session.ops ++ [.removeExact path] }

def applyResolved (action : SyncAction) : Executing ε φ PUnit := do
  match action with
  | .materialize entry | .replace entry | .rematerialize entry => applyMaterialization environment entry
  | .remove path => applyRemoval environment path
  | .missingObject _ _ | .corrupted _ _ | .conflict _ => pure ⟨⟩
  modify fun session => { session with outcome := recordAction session.outcome action }

def applyAction (force : Bool) (action : SyncAction) : Executing ε φ PUnit :=
  applyResolved environment (resolveAction action force)

def executePlanSink (force : Bool) : PlanSink (SyncError ε) (Session φ) where
  action action := do
    applyAction environment force action
    flushIfBatchFull environment
  stateMutation mutation := do
    modify fun session => { session with ops := session.ops ++ [mutation] }
    flushIfBatchFull environment

/-- Close a run: every exit persists what has been applied, unless persisting is what failed. -/
def finish (result : Outcome (SyncError ε) PUnit) : Executing ε φ SyncOutcome := do
  match result with
  | .ok _ =>
    flushBatch environment
    return (← get).outcome
  | .error .panic => throw .panic
  | .error (.error primary) =>
    if (← get).flushFailed then throw (.error primary)
    match ← Fallible.observe (flushBatch environment) with
    | .ok _ => throw (.error primary)
    | .error .panic => throw .panic
    | .error (.error secondary) => throw (.error (.flushAfterFailure primary secondary))

def runSink (force : Bool) (produce : PlanSink (SyncError ε) (Session φ) → Executing ε φ PUnit) : Executing ε φ SyncOutcome := do
  let result ← Fallible.observe (produce (executePlanSink environment force))
  finish environment result

end Sink

/-! ## A validated sync -/

namespace SyncEnvironment

variable (environment : SyncEnvironment ε φ)

def planContext (policy : ReconciliationPolicy) : PlanContext (SyncError ε) where
  policy := policy
  fileStatus prior :=
    (environment.worktree.fileStatus prior (policy.validation = .trustState)).mapError SyncError.failure
  fileStatusWithoutPrior path expected :=
    (environment.worktree.fileStatusWithoutPrior path expected (policy.validation = .trustState)).mapError SyncError.failure
  verify oid := (environment.verify oid).mapError SyncError.failure

end SyncEnvironment

theorem Ledger.desiredRows_ordered (ledger : Ledger) (selection : Selection) :
    (ledger.desiredRows selection).Pairwise fun left right => left.path < right.path := by
  refine ledger.sorted.filterMap _ fun first second before entry found other otherFound => ?_
  split_ifs at found otherFound
  · obtain ⟨_, -, rfl⟩ := Option.map_eq_some_iff.mp found
    obtain ⟨_, -, rfl⟩ := Option.map_eq_some_iff.mp otherFound
    exact before

theorem Ledger.materializedRows_ordered (ledger : Ledger) (selection : Selection) :
    (ledger.materializedRows selection).Pairwise fun left right => left.path < right.path := by
  refine ledger.sorted.filterMap _ fun first second before row found other otherFound => ?_
  split_ifs at found otherFound
  · obtain ⟨_, -, rfl⟩ := Option.map_eq_some_iff.mp found
    obtain ⟨_, -, rfl⟩ := Option.map_eq_some_iff.mp otherFound
    exact before

structure SyncOptions where
  selection : Selection
  force : Bool
  policy : ReconciliationPolicy

/-- What a sync reads and writes. -/
structure SyncStore (φ : Type) where
  files : SortedMap GatPath φ
  ledger : Ledger
  validationRequired : Bool

/-- The policy that a run follows: the requested one, downgraded for a rebuilt ledger. -/
def SyncOptions.effectivePolicy (options : SyncOptions) (store : SyncStore φ) : ReconciliationPolicy :=
  options.policy.forLedger store.validationRequired

/-- The desired rows of the ledger as a run reads them. -/
def SyncEnvironment.desiredStream (environment : SyncEnvironment ε φ) (ledger : Ledger) (selection : Selection) :
    DesiredStream (SyncError ε) :=
  ⟨ledger.desiredRows selection, ledger.desiredRows_ordered selection,
    environment.desiredFault.map fun fault => (fault.1, .failure fault.2)⟩

/-- The materialized rows of the ledger as a run reads them. -/
def SyncEnvironment.priorStream (environment : SyncEnvironment ε φ) (ledger : Ledger) (selection : Selection) :
    PriorStream (SyncError ε) :=
  ⟨ledger.materializedRows selection, ledger.materializedRows_ordered selection,
    environment.priorFault.map fun fault => (fault.1, .failure fault.2)⟩

/-- `execute_mutating_sync` under a validating policy: both streams read the ledger as it was when the run
began. A trusting policy takes the dirty-row path instead. -/
def validatedSync (environment : SyncEnvironment ε φ) (windows : PlanWindows) (options : SyncOptions)
    (store : SyncStore φ) : Outcome (SyncError ε) SyncOutcome × SyncStore φ :=
  let (result, session) := (runSink environment options.force fun sink =>
    mergeDesiredWithPrior (environment.planContext (options.effectivePolicy store)) windows sink
      (environment.desiredStream store.ledger options.selection) (environment.priorStream store.ledger options.selection)).exec
      { files := store.files, ledger := store.ledger }
  let reconciled := { store with files := session.files, ledger := session.ledger }
  match result with
  | .error fault => (.error fault, reconciled)
  | .ok outcome =>
    match environment.syncExcludes with
    | .error failure => (Outcome.fail (.failure failure), reconciled)
    | .ok _ =>
      if options.selection.isUnrestricted && outcome.isClean && store.validationRequired then
        match environment.clearValidationRequired with
        | .error failure => (Outcome.fail (.failure failure), reconciled)
        | .ok _ => (.ok outcome, { reconciled with validationRequired := false })
      else (.ok outcome, reconciled)

end Gat
