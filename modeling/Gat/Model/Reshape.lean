import Gat.Model.LockTree

/-! # Reshaping a lock

A lock changes its shape through a transaction directory: the new tree is staged there and validated, a record is
written, and the live lock is renamed aside before the staged tree takes its place. Reads of a missing live lock
fail while a record is left. Publishing a complete lock reshapes it first when its shape is another one.
-/

namespace Gat

/-- What `txn.json` holds: nothing, something that is no valid record of its directory, or the prepared shapes. -/
inductive TxnRecord where
  | absent
  | invalid
  | prepared (source target : OnDiskShape)
deriving DecidableEq

/-- A transaction directory. -/
structure TxnDir where
  record : TxnRecord
  staged : LockTree
  backup : LockTree
  replacedLive : LockTree
deriving DecidableEq

abbrev TxnId := Str

/-- The live lock and the transaction directories beside it. -/
structure LockRoot where
  live : LockTree
  txns : SortedMap TxnId TxnDir
deriving DecidableEq

inductive LiveLockState where
  | missing
  | valid (levels : LockShardLevels) (entries : ℕ)
  | loadFailed (error : PersistenceError)
  | neitherFileNorShardTree
deriving DecidableEq

/-- A result as a value, which a panic is not. -/
def Outcome.attempt {ε ε' α : Type} : Outcome ε α → Outcome ε' (Except ε α)
  | .ok value => .ok (.ok value)
  | .error (.error value) => .ok (.error value)
  | .error .panic => Outcome.panic

variable (kernel : Kernel) (blake3 : ContentHash) (first : FirstFile)

namespace LockRoot

variable (root : LockRoot)

/-! ## Ordinary reads -/

/-- A record beside a missing live lock is an interrupted reshape. -/
def failIfPendingReshape : Outcome PersistenceError Unit :=
  forM root.txns.entries fun txn =>
    match txn.2.record with
    | .absent => .ok ()
    | .invalid => Outcome.fail .txnRecordInvalid
    | .prepared _ _ => Outcome.fail .reshapeInterruptedLiveMissing

/-- The shape of the live lock, nothing when nothing has been written. -/
def onDiskShape : Outcome PersistenceError (Option OnDiskShape) :=
  match root.live.onDiskShapeAt first with
  | some shape => .ok (some shape)
  | none => do
    root.failIfPendingReshape
    pure (root.live.onDiskShapeAt first)

/-- The complete lock; a missing one is empty unless a reshape was interrupted. -/
def load : Outcome PersistenceError Lock :=
  match root.live with
  | .missing => do
    root.failIfPendingReshape
    pure ⟨[]⟩
  | live => live.loadTree kernel blake3

/-! ## Maintenance -/

def inspectLive : Outcome PersistenceError LiveLockState :=
  match root.live with
  | .missing => .ok .missing
  | live =>
    match live.onDiskShapeAt first with
    | none => .ok .neitherFileNorShardTree
    | some shape => do
      match ← Outcome.attempt (live.loadShapeAt kernel blake3 shape) with
      | .ok lock => pure (.valid shape lock.entries.length)
      | .error error => pure (.loadFailed error)

/-- Discard the scratch of one transaction that is completed or never had a record. -/
def cleanupCompletedTxnDir (liveValid : Bool) (txns : SortedMap TxnId TxnDir) (txn : TxnId × TxnDir) :
    Outcome PersistenceError (SortedMap TxnId TxnDir) :=
  match txn.2.record with
  | .absent => .ok (txns.erase txn.1)
  | .invalid => Outcome.fail .txnRecordInvalid
  | .prepared _ _ =>
    if liveValid then .ok (txns.erase txn.1)
    else if txn.2.backup ≠ .missing then Outcome.fail .reshapeInterruptedAfterBackup
    else Outcome.fail .reshapeInterruptedLiveMissing

/-- Discard the scratch of every completed transaction before a new one. -/
def cleanupCompletedReshape : Outcome PersistenceError LockRoot :=
  if root.txns.entries = [] then .ok root
  else do
    let liveValid ←
      match ← root.inspectLive kernel blake3 first with
      | .valid _ _ => pure true
      | .missing => pure false
      | .loadFailed error => Outcome.fail error
      | .neitherFileNorShardTree => Outcome.fail .unsupportedOnDiskKind
    let txns ← root.txns.entries.foldlM (cleanupCompletedTxnDir liveValid) root.txns
    pure { root with txns := txns }

/-! ## The transaction -/

/-- Every path with its object. -/
def oidMap (lock : Lock) : SortedMap GatPath Oid :=
  lock.entries.foldl (fun map entry => map.insert entry.path entry.oid) .empty

/-- Write the destination outside the live lock. -/
def stage (lock : Lock) (target : OnDiskShape) : Outcome PersistenceError LockTree :=
  if target.isFlat then saveFileAtomic lock .missing else saveSharded blake3 lock .missing target

/-- The staged tree must have the target shape and the map of the lock before anything live is touched. -/
def validateStaged (lock : Lock) (target : OnDiskShape) (staged : LockTree) : Outcome PersistenceError Unit := do
  let stagedShape := staged.onDiskShapeAt first
  if stagedShape ≠ some target then Outcome.fail (.stagedShapeMismatch stagedShape target)
  else do
    let stagedLock ← (staged.loadShapeAt kernel blake3 target).mapErr .stagedLockInvalid
    if oidMap stagedLock ≠ oidMap lock then Outcome.fail .stagedOidMapMismatch else pure ()

/-- Stage, validate and swap; the transaction directory is removed in the end. -/
def reshapeTransactional (lock : Lock) (target : OnDiskShape) : Outcome PersistenceError LockRoot := do
  let root ← root.cleanupCompletedReshape kernel blake3 first
  match root.live.onDiskShapeAt first with
  | none => Outcome.fail .nothingToReshape
  | some source =>
    if source = target then pure root
    else do
      let staged ← stage blake3 lock target
      validateStaged kernel blake3 first lock target staged
      pure { root with live := staged }

/-! ## Complete publication -/

/-- Publish the complete lock at a depth, reshaping a lock of another shape before the final write. -/
def publishComplete (lock : Lock) (target : OnDiskShape) : Outcome PersistenceError LockRoot := do
  match ← root.onDiskShape first with
  | some shape =>
    if shape ≠ target then do
      let root ← root.reshapeTransactional kernel blake3 first lock target
      let live ← saveForShape blake3 lock root.live target
      pure { root with live := live }
    else do
      let live ← saveForShape blake3 lock root.live shape
      pure { root with live := live }
  | none => do
    let live ← save blake3 lock root.live target
    pure { root with live := live }

/-- Whether the live lock has another shape than the target. -/
def beginReshape (target : OnDiskShape) : Outcome PersistenceError Bool := do
  match ← root.onDiskShape first with
  | some shape => pure (shape ≠ target)
  | none => pure false

/-- Load the complete lock once and reshape it. -/
def applyReshape (target : OnDiskShape) : Outcome PersistenceError LockRoot := do
  let lock ← root.load kernel blake3
  root.reshapeTransactional kernel blake3 first lock target

end LockRoot

end Gat
