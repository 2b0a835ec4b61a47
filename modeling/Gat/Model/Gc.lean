import Gat.Model.CacheSweep
import Gat.Model.DesiredRefresh
import Gat.Model.LockHistory
import Gat.Model.SyncPlan

/-! # Garbage collection

Collection first computes the keep set: the object ids in the working lock, in the selected history, and in the history
of additional repositories, which are inspected in parallel. What is not in the keep set is then swept from the cache or
deleted from a remote. Every doubt about the keep set refuses the deletion unless it is overridden.
-/

namespace Gat

/-- The lock of the working tree, certified as a whole before any row is visited. -/
def LockRoot.visitRepository (kernel : Kernel) (blake3 : ContentHash) (root : LockRoot) (exactPath : Option GatPath) (keep : Str → Bool) :
    Outcome PersistenceError (List Entry) := do
  let _ ← root.listShardFiles
  (visitLockRowsValidated kernel blake3 root.live.shardFiles exactPath keep).mapErr .lock

/-! ## Options and failures -/

inductive HistoryRoot where
  | head
  | revision (spec : Str)
  | branches
  | tags
  | allRefs
deriving DecidableEq

inductive HistoryTraversal where
  | tips
  | ancestors (perRoot : Option ℕ+)
deriving DecidableEq

structure TimeWindow where
  since : Option ℤ
  «until» : Option ℤ
deriving DecidableEq

inductive ParentMode where
  | all
  | first
deriving DecidableEq

structure HistorySelection where
  roots : List HistoryRoot
  traversal : HistoryTraversal
  time : TimeWindow
  parents : ParentMode
  excluded : List Str
deriving DecidableEq

structure GcOptions where
  dryRun : Bool
  unsafeOverride : Bool
  repositories : List Str
  history : Option HistorySelection

inductive GcFailureKind where
  | repository
  | cache
  | remote
  | keepSet
deriving DecidableEq

inductive GcRepositoryFailureKind where
  | invalidLocation
  | cloneFailed
  | shallowHistory
  | inspection
deriving DecidableEq

structure GcRepositoryIssue where
  location : Str
  kind : GcRepositoryFailureKind
deriving DecidableEq

inductive GcScope where
  | localCache
  | remote
deriving DecidableEq

inductive GcError where
  | cancelled
  | remoteOpen
  | remoteDeletionRequiresUnsafe
  | failure (kind : GcFailureKind) (confirmedDeletions : Option ℕ)
  | incompleteKeepSet (scope : GcScope) (issues : List GcRepositoryIssue)
  | shallowHistory (scope : GcScope)
deriving DecidableEq

structure GcReport where
  deleted : ℕ
  uncertain : ℕ
  incompleteRepositories : ℕ
  forcedIncompleteKeepSet : Bool
deriving DecidableEq

inductive MarkError where
  | history (error : HistoryVisitError)
  | lockStore (error : PersistenceError)
deriving DecidableEq

/-! ## Surroundings -/

/-- A repository that can be opened, with the commits that its references give for a selection. -/
structure GitRepository where
  objects : GitObjects
  resolve : HistorySelection → Outcome HistoryVisitError ResolvedHistory

/-- The repository under collection. -/
structure GcRepository where
  lock : LockRoot
  git : GitRepository

/-- Locations of additional repositories, and what cloning them gives. -/
structure GcPeers where
  parseLocation : Str → Option Str
  prepareBareRepository : Str → Option GitRepository

/-- What the checks of the cancellation flag see. The flag is never lowered, so that a cancellation before marking is
complete is seen after it. -/
structure Cancellation where
  atStart : Bool
  afterMarking : Bool
  atDecision : Oid → Bool
  atWindow : ℕ → Bool
  latched : atStart = true → afterMarking = true

/-- The order in which the inspections of each batch finish. -/
structure FinishOrder (ρ : Type) where
  arrange : ℕ → List ρ → List ρ
  perm : ∀ batch results, (arrange batch results).Perm results

/-! ## The keep set -/

/-- Reuse the larger table, and insert what the other one has. -/
def mergeKeepSet (keep marked : Finset Oid) : Finset Oid :=
  if keep.card < marked.card then marked ∪ keep else keep ∪ marked

def markHistory (kernel : Kernel) (git : GitRepository) (selection : HistorySelection) : Outcome MarkError (Finset Oid × Bool) := do
  let history ← (git.resolve selection).mapErr .history
  let visited ← (git.objects.visitHistoryLockEntries kernel (fun _ => true) history.selected).mapErr .history
  pure ((visited.map Entry.oid).toFinset, history.shallow)

def markRepository (kernel : Kernel) (blake3 : ContentHash) (repo : GcRepository) (selection : Option HistorySelection) :
    Outcome MarkError (Finset Oid × Bool) := do
  let (keep, shallow) ← match selection with
    | some selection => markHistory kernel repo.git selection
    | none => pure (∅, false)
  let visited ← (repo.lock.visitRepository kernel blake3 none fun _ => true).mapErr .lockStore
  pure (keep ∪ (visited.map Entry.oid).toFinset, shallow)

/-- A failed inspection and a shallow history are both issues. -/
def completeRepositoryInspection (location : Str) (result : Outcome MarkError (Finset Oid × Bool)) :
    Outcome GcRepositoryIssue (Finset Oid) := do
  let (keep, shallow) ← result.mapErr fun _ => ⟨location, .inspection⟩
  if shallow then Outcome.fail ⟨location, .shallowHistory⟩ else pure keep

def inspectAdditionalRepository (kernel : Kernel) (peers : GcPeers) (selection : HistorySelection) (location : Str) :
    Outcome GcRepositoryIssue (Finset Oid) :=
  match peers.parseLocation location with
  | none => Outcome.fail ⟨location, .invalidLocation⟩
  | some parsed =>
    match peers.prepareBareRepository parsed with
    | none => Outcome.fail ⟨location, .cloneFailed⟩
    | some git => completeRepositoryInspection location (markHistory kernel git selection)

/-- The results in the order of their consumption, each with its place in the list of candidates. -/
def inspectInBoundedBatches {α ρ : Type} (order : FinishOrder (ℕ × ρ)) (batchSize : ℕ+) (inspect : α → ρ) (candidates : List α) :
    List (ℕ × ρ) :=
  (chunks batchSize candidates).zipIdx.flatMap fun batch =>
    order.arrange batch.2 (batch.1.zipIdx.map fun candidate => (batch.2 * batchSize + candidate.2, inspect candidate.1))

/-- The first occurrence of every location. -/
def distinctLocations (seen : Finset Str) : List Str → List Str
  | [] => []
  | location :: locations =>
    if location ∈ seen then distinctLocations seen locations
    else location :: distinctLocations (insert location seen) locations

/-- Only the current commits, without a walk. -/
def HistorySelection.tips : HistorySelection := ⟨[.head], .tips, ⟨none, none⟩, .all, []⟩

/-- The selection for additional repositories. -/
def GcOptions.selection (options : GcOptions) : HistorySelection := options.history.getD .tips

/-- Take one result into the keep set or among the issues. -/
def consumeInspection {ε : Type} (state : Finset Oid × List (ℕ × GcRepositoryIssue)) (result : ℕ × Outcome GcRepositoryIssue (Finset Oid)) :
    Outcome ε (Finset Oid × List (ℕ × GcRepositoryIssue)) :=
  match result.2 with
  | .ok marked => .ok (mergeKeepSet state.1 marked, state.2)
  | .error (.error issue) => .ok (state.1, state.2 ++ [(result.1, issue)])
  | .error .panic => Outcome.panic

abbrev InspectionOrder := FinishOrder (ℕ × Outcome GcRepositoryIssue (Finset Oid))

def additionalRepositories {ε : Type} (kernel : Kernel) (peers : GcPeers) (order : InspectionOrder) (concurrency : ℕ+) (options : GcOptions)
    (keep : Finset Oid) : Outcome ε (Finset Oid × List GcRepositoryIssue) := do
  let results := inspectInBoundedBatches order concurrency (inspectAdditionalRepository kernel peers options.selection)
    (distinctLocations ∅ options.repositories)
  let (keep, issues) ← results.foldlM consumeInspection (keep, [])
  pure (keep, (issues.mergeSort fun left right => left.1 ≤ right.1).map Prod.snd)

/-- The keep set, whether the own history is shallow, and how many repositories are missing from it. -/
def computeKeepSet (kernel : Kernel) (blake3 : ContentHash) (repo : GcRepository) (peers : GcPeers) (order : InspectionOrder) (concurrency : ℕ+)
    (cancellation : Cancellation) (options : GcOptions) (scope : GcScope) : Outcome GcError (Finset Oid × Bool × ℕ) := do
  if cancellation.atStart then Outcome.fail .cancelled
  else do
    let (keep, shallow) ← (markRepository kernel blake3 repo options.history).mapErr fun _ => .failure .keepSet none
    if shallow ∧ ¬options.dryRun ∧ ¬options.unsafeOverride then Outcome.fail (.shallowHistory scope)
    else do
      let (keep, issues) ← additionalRepositories kernel peers order concurrency options keep
      -- Even an override must not sweep from an interrupted keep set.
      if cancellation.afterMarking then Outcome.fail .cancelled
      else if issues.length ≠ 0 ∧ ¬options.dryRun ∧ ¬options.unsafeOverride then Outcome.fail (.incompleteKeepSet scope issues)
      else pure (keep, shallow, issues.length)

/-! ## The local cache -/

/-- The decision on one object of the cache. -/
def decideObject (cancellation : Cancellation) (options : GcOptions) (keep : Finset Oid) (uncertainKeepSet : Bool) (oid : Oid) :
    Except GcError CacheSweepDecision :=
  if cancellation.atDecision oid then .error .cancelled
  else if oid ∈ keep then .ok .keep
  else if uncertainKeepSet ∧ ¬options.unsafeOverride then .ok .uncertain
  else .ok .delete

/-- The cache after the collection, and its report. -/
def gcLocal (kernel : Kernel) (blake3 : ContentHash) (repo : GcRepository) (peers : GcPeers) (order : InspectionOrder) (concurrency : ℕ+)
    (cancellation : Cancellation) (options : GcOptions) (faults : SweepFaults) (cache : Option CacheNamespace) :
    Option CacheNamespace × Outcome GcError GcReport :=
  match computeKeepSet kernel blake3 repo peers order concurrency cancellation options .localCache with
  | .error fault => (cache, .error fault)
  | .ok (keep, shallow, incomplete) =>
    let swept := sweepObjects faults options.dryRun (decideObject cancellation options keep (shallow || incomplete ≠ 0)) cache
    match swept.2 with
    | .error (.enumeration _) => (swept.1, Outcome.fail (.failure .cache none))
    | .error (.decision error) => (swept.1, Outcome.fail error)
    | .ok stats => (swept.1, .ok ⟨stats.deleted, stats.uncertain, incomplete, options.unsafeOverride && incomplete ≠ 0⟩)

/-! ## A remote -/

structure RemoteCandidates where
  oids : Finset Oid
  listed : ℕ
deriving DecidableEq

def RemoteCandidates.record (keep : Finset Oid) (candidates : RemoteCandidates) (oid : Oid) : RemoteCandidates where
  oids := if oid ∈ keep then candidates.oids else insert oid candidates.oids
  listed := candidates.listed + 1

/-- Record the listing batch by batch; an error discards all candidates. -/
def collectRemoteCandidates (keep : Finset Oid) (listing : List (Except GcError (List Oid))) : Except GcError RemoteCandidates :=
  listing.foldlM (fun candidates answer => do
    let batch ← answer
    pure (batch.foldl (RemoteCandidates.record keep) candidates)) ⟨∅, 0⟩

/-- A batch handed to the remote: what is gone, how much of that is confirmed, and whether it failed. -/
structure BatchOutcome where
  removed : List Oid
  confirmed : ℕ
  error : Option GcError

/-- The native deletion of a remote, which deletes in batches and nothing that it was not asked to. -/
structure RemoteDeletion where
  batchSize : ℕ+
  delete : List Oid → BatchOutcome
  removed_mem : ∀ batch, ∀ oid ∈ (delete batch).removed, oid ∈ batch

/-- The objects gone and the confirmed deletions so far. -/
structure DeletionState where
  removed : List Oid
  deleted : ℕ

/-- The batches of one window, up to the first error. -/
def deleteBatches (remote : RemoteDeletion) : DeletionState → List (List Oid) → DeletionState × Except GcError Unit
  | state, [] => (state, .ok ())
  | state, batch :: batches =>
    let outcome := remote.delete batch
    let state : DeletionState := ⟨state.removed ++ outcome.removed, state.deleted + outcome.confirmed⟩
    match outcome.error with
    | some error => (state, .error error)
    | none => deleteBatches remote state batches

/-- Every started window is finished, and the flag is looked at before the next one. -/
def deleteWindows (remote : RemoteDeletion) (cancellation : Cancellation) : ℕ → DeletionState → List (List Oid) →
    DeletionState × Except GcError Unit
  | _, state, [] => (state, .ok ())
  | index, state, window :: windows =>
    if cancellation.atWindow index then (state, .error .cancelled)
    else
      match deleteBatches remote state (chunks remote.batchSize window) with
      | (state, .error error) => (state, .error error)
      | (state, .ok ()) => deleteWindows remote cancellation (index + 1) state windows

def DELETION_WINDOW : ℕ+ := 10000

/-- A failure reports the deletions confirmed before it. -/
def confirmDeletions (deleted : ℕ) : GcError → GcError
  | .failure kind _ => .failure kind (some deleted)
  | error => error

def deleteRemoteCandidates (remote : RemoteDeletion) (cancellation : Cancellation) (candidates : List Oid) :
    List Oid × Except GcError ℕ :=
  let (state, status) := deleteWindows remote cancellation 0 ⟨[], 0⟩ (chunks DELETION_WINDOW candidates)
  (state.removed, status.mapError (confirmDeletions state.deleted) |>.map fun _ => state.deleted)

/-- A remote of the catalog: whether it resolves and opens, what it lists, and how it deletes. -/
structure GcRemote where
  resolved : Except GcError Unit
  opened : Except GcError Unit
  listing : List (Except GcError (List Oid))
  deletion : RemoteDeletion

/-- The objects gone from the remote after the collection, and its report. -/
def gcRemote (kernel : Kernel) (blake3 : ContentHash) (repo : GcRepository) (peers : GcPeers) (order : InspectionOrder) (concurrency : ℕ+)
    (cancellation : Cancellation) (options : GcOptions) (hashOrder : HashOrder Oid) (remote : GcRemote) : List Oid × Outcome GcError GcReport :=
  if ¬options.dryRun ∧ ¬options.unsafeOverride then ([], Outcome.fail .remoteDeletionRequiresUnsafe)
  else
    match remote.resolved with
    | .error error => ([], Outcome.fail error)
    | .ok () =>
      match computeKeepSet kernel blake3 repo peers order concurrency cancellation options .remote with
      | .error fault => ([], .error fault)
      | .ok (keep, shallow, incomplete) =>
        match remote.opened with
        | .error error => ([], Outcome.fail error)
        | .ok () =>
          match collectRemoteCandidates keep remote.listing with
          | .error error => ([], Outcome.fail error)
          | .ok candidates =>
            let report := fun deleted uncertain : ℕ =>
              (⟨deleted, uncertain, incomplete, options.unsafeOverride && incomplete ≠ 0⟩ : GcReport)
            if (shallow ∨ incomplete ≠ 0) ∧ ¬options.unsafeOverride then ([], .ok (report 0 candidates.oids.card))
            else if options.dryRun then ([], .ok (report candidates.oids.card 0))
            else
              match deleteRemoteCandidates remote.deletion cancellation (hashOrder.list candidates.oids) with
              | (removed, .error error) => (removed, Outcome.fail error)
              | (removed, .ok deleted) => (removed, .ok (report deleted 0))

end Gat
