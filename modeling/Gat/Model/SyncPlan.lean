import Gat.Model.Worktree
import Gat.ToMathlib.Fallible
import Mathlib.Data.PNat.Basic

/-! # The streaming sync planner

Two path-ordered streams, the desired entries and the ledger rows, are merged into one pass. A row whose
action depends on the cache waits in a buffer until its window closes, and then all distinct objects of
the window are verified together. The buffer closes at a bound on its rows or at a bound on its objects.
-/

namespace Gat

variable {ε σ : Type}

/-- Intent for a verified desired object, with the local-edit policy. -/
inductive MaterializationIntent where
  | materialize
  | replace
  | rematerialize
  | conflictOrReplace
  | conflictOrRematerialize
deriving DecidableEq

def MaterializationIntent.isConflict : MaterializationIntent → Bool
  | .conflictOrReplace | .conflictOrRematerialize => true
  | _ => false

/-- Classify cache integrity once: corruption comes before a local edit, and a missing object stays behind
a conflict. -/
def classifyObject (status : ObjectVerification) (entry : Entry) (intent : MaterializationIntent) : SyncAction :=
  match status with
  | .corrupt => .corrupted entry.path entry.oid
  | .missing =>
    if intent.isConflict then .conflict (.missingObject entry) else .missingObject entry.path entry.oid
  | .valid =>
    match intent with
    | .materialize => .materialize entry
    | .replace => .replace entry
    | .rematerialize => .rematerialize entry
    | .conflictOrReplace => .conflict (.replace entry)
    | .conflictOrRematerialize => .conflict (.rematerialize entry)

/-- The receiver of classified decisions and stat refreshes. -/
structure PlanSink (ε σ : Type) where
  action : SyncAction → Fallible (Fault ε) σ PUnit
  stateMutation : StateMutation → Fallible (Fault ε) σ PUnit

/-- What a plan is made from: the policy, the status of a row's file and the integrity of an object. -/
structure PlanContext (ε : Type) where
  policy : ReconciliationPolicy
  fileStatus : MaterializedRow → Except ε WorktreeFileStatus
  fileStatusWithoutPrior : GatPath → Oid → Except ε WorktreeFileStatus
  verify : Oid → Except ε ObjectVerification

/-- The bounds on buffered rows and on objects verified together. -/
structure PlanWindows where
  mergeWindow : ℕ+
  verifyWindow : ℕ+

/-- Rows in strict path order; reading fails after some of them, or it ends after the last. -/
structure RowStream (ε : Type) {ρ : Type} (path : ρ → GatPath) where
  rows : List ρ
  ordered : rows.Pairwise fun left right => path left < path right
  fault : Option (ℕ × ε)

/-- The rows that can be read. -/
def RowStream.readable {ρ : Type} {path : ρ → GatPath} (stream : RowStream ε path) : List ρ :=
  match stream.fault with
  | none => stream.rows
  | some (read, _) => stream.rows.take read

/-- What reading on after the readable rows fails with. -/
def RowStream.failure {ρ : Type} {path : ρ → GatPath} (stream : RowStream ε path) : Option ε := stream.fault.map Prod.snd

abbrev DesiredStream (ε : Type) := RowStream ε Entry.path

abbrev PriorStream (ε : Type) := RowStream ε MaterializedRow.path

/-! ## The merge buffer -/

/-- A cache-dependent classification. -/
structure PendingCache where
  entry : Entry
  intent : MaterializationIntent
deriving DecidableEq

/-- A buffered row; a pending one names its slot in the verification batch. -/
inductive BufferedRow where
  | ready (action : SyncAction)
  | pending (kind : PendingCache) (slot : ℕ)
deriving DecidableEq

structure MergeBuffer where
  rows : List BufferedRow := []
  pendingOids : List Oid := []
  pendingSlots : List (Oid × ℕ) := []
deriving DecidableEq

/-- `slice.chunks(size)`. -/
def chunks {α : Type} (size : ℕ+) (items : List α) : List (List α) :=
  (List.range ((items.length + size - 1) / size)).map fun index => (items.drop (index * size)).take size

/-- Verify one window and append its statuses, which are aligned with its objects. -/
def verifyWindow (context : PlanContext ε) (statuses : List ObjectVerification) (window : List Oid) :
    Outcome ε (List ObjectVerification) := do
  let windowStatuses ← Outcome.ofExcept (window.mapM context.verify)
  if window.length = windowStatuses.length then return statuses ++ windowStatuses else Outcome.panic

/-- Verify a batch window by window. -/
def verifyWindows (context : PlanContext ε) (windows : PlanWindows) (oids : List Oid) :
    Outcome ε (List ObjectVerification) :=
  (chunks windows.verifyWindow oids).foldlM (verifyWindow context) []

namespace MergeBuffer

/-- The action of a buffered row under the statuses of its batch. -/
def resolve (statuses : List ObjectVerification) : BufferedRow → Outcome ε SyncAction
  | .ready action => .ok action
  | .pending kind slot =>
    match statuses[slot]? with
    | some status => .ok (classifyObject status kind.entry kind.intent)
    | none => Outcome.panic

/-- Verify every object queued in this window, then drain the rows to the sink in order. -/
def flush (context : PlanContext ε) (windows : PlanWindows) (sink : PlanSink ε σ) (buffer : MergeBuffer) :
    Fallible (Fault ε) σ MergeBuffer := do
  if buffer.rows = [] then return buffer
  let statuses ← Fallible.raise (verifyWindows context windows buffer.pendingOids)
  if statuses.length ≠ buffer.pendingOids.length then throw .panic
  forM buffer.rows fun row => do sink.action (← Fallible.raise (resolve statuses row))
  return { pendingSlots := if buffer.pendingOids = [] then buffer.pendingSlots else [] }

def flushIfFull (context : PlanContext ε) (windows : PlanWindows) (sink : PlanSink ε σ) (buffer : MergeBuffer) :
    Fallible (Fault ε) σ MergeBuffer :=
  if windows.mergeWindow ≤ buffer.rows.length then buffer.flush context windows sink else return buffer

def pushReady (context : PlanContext ε) (windows : PlanWindows) (sink : PlanSink ε σ) (buffer : MergeBuffer)
    (action : SyncAction) : Fallible (Fault ε) σ MergeBuffer :=
  flushIfFull context windows sink { buffer with rows := buffer.rows ++ [.ready action] }

/-- Find the slot of an object, or queue the object. -/
def slotFor (buffer : MergeBuffer) (oid : Oid) : ℕ × MergeBuffer :=
  match buffer.pendingSlots.lookup oid with
  | some slot => (slot, buffer)
  | none =>
    let slot := buffer.pendingOids.length
    (slot, { buffer with
      pendingOids := buffer.pendingOids ++ [oid]
      pendingSlots := (oid, slot) :: buffer.pendingSlots })

def pushPending (context : PlanContext ε) (windows : PlanWindows) (sink : PlanSink ε σ) (buffer : MergeBuffer)
    (kind : PendingCache) : Fallible (Fault ε) σ MergeBuffer :=
  let (slot, queued) := buffer.slotFor kind.entry.oid
  let pushed : MergeBuffer := { queued with rows := queued.rows ++ [.pending kind slot] }
  if windows.verifyWindow ≤ pushed.pendingOids.length then pushed.flush context windows sink
  else pushed.flushIfFull context windows sink

end MergeBuffer

/-! ## Classification of one row -/

/-- What the merge does with one path. -/
inductive Classified where
  | pending (kind : PendingCache)
  | ready (action : SyncAction)
  | refresh (mutation : StateMutation)
  | unchanged

namespace PlanContext

/-- The intent of a path whose file may be missing, known or edited. -/
def validatedIntent (status : WorktreeFileStatus) : MaterializationIntent :=
  match status.kind with
  | .absent => .materialize
  | .matching => .replace
  | .differs => .conflictOrReplace

/-- Classify a desired path without a ledger row. -/
def desiredOnlyPending (context : PlanContext ε) (desired : Entry) : Except ε PendingCache := do
  match context.policy.validation with
  | .trustState => return ⟨desired, .materialize⟩
  | .validate => return ⟨desired, validatedIntent (← context.fileStatusWithoutPrior desired.path desired.oid)⟩

/-- Classify a ledger row without a desired entry. -/
def priorOnlyAction (context : PlanContext ε) (prior : MaterializedRow) : Except ε (Option SyncAction) := do
  match context.policy.validation with
  | .trustState => return some (.remove prior.path)
  | .validate =>
    match (← context.fileStatus prior).kind with
    | .absent => return none
    | .matching => return some (.remove prior.path)
    | .differs => return some (.conflict (.remove prior.path))

/-- Classify a path that is desired and has a ledger row. -/
def classifyBoth (context : PlanContext ε) (desired : Entry) (prior : MaterializedRow) : Except ε Classified := do
  match context.policy.validation with
  | .trustState =>
    -- the ledger is trusted, so only another object needs work
    return if desired.oid = prior.oid then .unchanged else .pending ⟨desired, .replace⟩
  | .validate =>
    let status ← context.fileStatus prior
    if desired.oid = prior.oid then
      match status.kind with
      | .absent => return .pending ⟨desired, .materialize⟩
      | .matching =>
        if context.policy.rematerialize then return .pending ⟨desired, .rematerialize⟩
        else return ((status.intoStateRefresh desired.path).map Classified.refresh).getD .unchanged
      | .differs =>
        return .pending ⟨desired, if context.policy.rematerialize then .conflictOrRematerialize else .conflictOrReplace⟩
    else return .pending ⟨desired, validatedIntent status⟩

/-- Classify one path of the union. -/
def classify (context : PlanContext ε) : Option Entry → Option MaterializedRow → Except ε Classified
  | some desired, some prior => context.classifyBoth desired prior
  | some desired, none => do return .pending (← context.desiredOnlyPending desired)
  | none, some prior => do return ((← context.priorOnlyAction prior).map Classified.ready).getD .unchanged
  | none, none => return .unchanged

end PlanContext

/-! ## The merge -/

/-- Hand one classified path to the buffer; a refresh does not wait for the buffered rows. -/
def MergeBuffer.push (context : PlanContext ε) (windows : PlanWindows) (sink : PlanSink ε σ) (buffer : MergeBuffer) :
    Classified → Fallible (Fault ε) σ MergeBuffer
  | .pending kind => buffer.pushPending context windows sink kind
  | .ready action => buffer.pushReady context windows sink action
  | .refresh mutation => do
    sink.stateMutation mutation
    return buffer
  | .unchanged => return buffer

/-- Classify one path and buffer the result. -/
def mergeRow (context : PlanContext ε) (windows : PlanWindows) (sink : PlanSink ε σ) (buffer : MergeBuffer)
    (desired : Option Entry) (prior : Option MaterializedRow) : Fallible (Fault ε) σ MergeBuffer := do
  buffer.push context windows sink (← Fallible.raise (Outcome.ofExcept (context.classify desired prior)))

/-- Read on after the last row of a stream. -/
def endOfRows (fault : Option ε) : Fallible (Fault ε) σ PUnit :=
  match fault with
  | some failure => throw (.error failure)
  | none => return

/-- The merge loop over the current rows of both streams. -/
def mergeRows (context : PlanContext ε) (windows : PlanWindows) (sink : PlanSink ε σ) (desiredFault priorFault : Option ε) :
    List Entry → List MaterializedRow → MergeBuffer → Fallible (Fault ε) σ MergeBuffer
  | [], [], buffer => do
    endOfRows desiredFault
    endOfRows priorFault
    return buffer
  | desired :: restDesired, [], buffer => do
    endOfRows priorFault
    let buffer ← mergeRow context windows sink buffer (some desired) none
    mergeRows context windows sink desiredFault priorFault restDesired [] buffer
  | [], prior :: restPrior, buffer => do
    endOfRows desiredFault
    let buffer ← mergeRow context windows sink buffer none (some prior)
    mergeRows context windows sink desiredFault priorFault [] restPrior buffer
  | desired :: restDesired, prior :: restPrior, buffer => do
    if desired.path = prior.path then
      let buffer ← mergeRow context windows sink buffer (some desired) (some prior)
      mergeRows context windows sink desiredFault priorFault restDesired restPrior buffer
    else if desired.path < prior.path then
      let buffer ← mergeRow context windows sink buffer (some desired) none
      mergeRows context windows sink desiredFault priorFault restDesired (prior :: restPrior) buffer
    else
      let buffer ← mergeRow context windows sink buffer none (some prior)
      mergeRows context windows sink desiredFault priorFault (desired :: restDesired) restPrior buffer
termination_by desired prior => desired.length + prior.length

/-- Deliver every classification to the sink, a bounded window at a time. -/
def mergeDesiredWithPrior (context : PlanContext ε) (windows : PlanWindows) (sink : PlanSink ε σ)
    (desired : DesiredStream ε) (prior : PriorStream ε) : Fallible (Fault ε) σ PUnit := do
  let buffer ← mergeRows context windows sink desired.failure prior.failure desired.readable prior.readable {}
  let _ ← buffer.flush context windows sink

end Gat
