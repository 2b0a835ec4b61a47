import Gat.Model.Reshape
import Gat.ToMathlib.Durable

/-! # A reshape step by step

A reshape can be stopped between any two changes that it makes to the files. What it leaves then is found by later
commands: reads fail while the live lock is missing, a later reshape and the clean-up discard what is not needed any more,
and a recovery puts the backup or the staged tree in the place of the live lock.
-/

namespace Gat

namespace TxnDir

/-- A new directory of a transaction. -/
def fresh : TxnDir := ⟨.absent, .missing, .missing, .missing⟩

end TxnDir

namespace LiveLockState

def isValid : LiveLockState → Bool
  | .valid _ _ => true
  | _ => false

end LiveLockState

inductive ReshapeRecoveryChoice where
  | restoreBackup
  | promoteStaged
deriving DecidableEq

/-- What the file system leaves open: the order in which the transaction directories are listed, what is left of a directory at
each step of its removal, the unfinished trees while a lock is staged, and the name of the new transaction. -/
structure ReshapeSchedule where
  list : SortedMap TxnId TxnDir → List (TxnId × TxnDir)
  list_perm : ∀ txns, (list txns).Perm txns.entries
  leavings : TxnId → List TxnDir
  stagings : List LockTree
  txnId : TxnId

namespace LockRoot

/-- A program that changes the files of the lock. -/
abbrev Program (α : Type) := Durable (Fault PersistenceError) LockRoot α

/-! ## Single steps -/

section Steps

variable (root : LockRoot) (id : TxnId)

def txnDir : TxnDir := (root.txns.get? id).getD .fresh

def setTxnDir (dir : TxnDir) : LockRoot := { root with txns := root.txns.insert id dir }

def removeTxnDir : LockRoot := { root with txns := root.txns.erase id }

/-- `rename(live, backup)`. -/
def moveAside : LockRoot := { root.setTxnDir id { root.txnDir id with backup := root.live } with live := .missing }

/-- `rename(live, replaced-live)`. -/
def displace : LockRoot := { root.setTxnDir id { root.txnDir id with replacedLive := root.live } with live := .missing }

/-- `rename(staged, live)`. -/
def promote : LockRoot := { root.setTxnDir id { root.txnDir id with staged := .missing } with live := (root.txnDir id).staged }

/-- `rename(backup, live)`. -/
def restore : LockRoot := { root.setTxnDir id { root.txnDir id with backup := .missing } with live := (root.txnDir id).backup }

end Steps

variable (kernel : Kernel) (blake3 : ContentHash) (first : FirstFile) (schedule : ReshapeSchedule)

/-- An ordinary read, which changes nothing. -/
def loadSteps : Program Lock := do
  let root ← Durable.get
  Durable.raise (root.load kernel blake3)

/-! ## Removing transactions -/

/-- `remove_dir_all`, which takes more than one step. -/
def removeAll (id : TxnId) : Program Unit := do
  forM (schedule.leavings id) fun left => Durable.step fun root => root.setTxnDir id left
  Durable.step fun root => root.removeTxnDir id

def cleanupTxnDir (liveValid : Bool) (txn : TxnId × TxnDir) : Program Unit :=
  match txn.2.record with
  | .absent => removeAll schedule txn.1
  | .invalid => Durable.raise (Outcome.fail .txnRecordInvalid)
  | .prepared _ _ =>
    if liveValid then removeAll schedule txn.1
    else if txn.2.backup ≠ .missing then Durable.raise (Outcome.fail .reshapeInterruptedAfterBackup)
    else Durable.raise (Outcome.fail .reshapeInterruptedLiveMissing)

/-- The steps of `cleanupCompletedReshape`. -/
def cleanupSteps : Program Unit := do
  let root ← Durable.get
  if schedule.list root.txns = [] then pure ()
  else do
    let live ← Durable.raise (root.inspectLive kernel blake3 first)
    let liveValid ← Durable.raise <| match live with
      | .valid _ _ => .ok true
      | .missing => .ok false
      | .loadFailed error => Outcome.fail error
      | .neitherFileNorShardTree => Outcome.fail .unsupportedOnDiskKind
    forM (schedule.list root.txns) (cleanupTxnDir schedule liveValid)

/-- Remove one transaction if nothing in it can be needed. -/
def cleanTxnDirIfDisposable (liveValid : Bool) (txn : TxnId × TxnDir) : Program Unit :=
  match txn.2.record with
  | .absent => removeAll schedule txn.1
  | .invalid => pure ()
  | .prepared _ _ => if liveValid then removeAll schedule txn.1 else pure ()

/-- The clean-up on request, which spares what it cannot judge. -/
def cleanDisposableReshapeScratch : Program Unit := do
  let root ← Durable.get
  if schedule.list root.txns = [] then pure ()
  else do
    let live ← Durable.raise (root.inspectLive kernel blake3 first)
    forM (schedule.list root.txns) (cleanTxnDirIfDisposable schedule live.isValid)

/-! ## The transaction -/

/-- The steps of `reshapeTransactional`. -/
def reshapeSteps (lock : Lock) (target : OnDiskShape) : Program Unit := do
  cleanupSteps kernel blake3 first schedule
  let root ← Durable.get
  match root.live.onDiskShapeAt first with
  | none => Durable.raise (Outcome.fail .nothingToReshape)
  | some source =>
    if source = target then pure ()
    else do
      let id := schedule.txnId
      Durable.step fun root => root.setTxnDir id .fresh
      forM schedule.stagings fun unfinished => Durable.step fun root => root.setTxnDir id { root.txnDir id with staged := unfinished }
      let staged ← Durable.raise (stage blake3 lock target)
      Durable.step fun root => root.setTxnDir id { root.txnDir id with staged := staged }
      Durable.raise (validateStaged kernel blake3 first lock target staged)
      Durable.step fun root => root.setTxnDir id { root.txnDir id with record := .prepared source target }
      Durable.step fun root => root.moveAside id
      Durable.step fun root => root.promote id
      removeAll schedule id

/-! ## Recovery -/

section Recovery

variable (root : LockRoot)

/-- What a recovery would put in the place of the live lock. -/
def candidate (dir : TxnDir) : ReshapeRecoveryChoice → LockTree
  | .restoreBackup => dir.backup
  | .promoteStaged => dir.staged

def readPreparedRecord (dir : TxnDir) : Outcome PersistenceError (OnDiskShape × OnDiskShape) :=
  match dir.record with
  | .absent => Outcome.fail (.io (ascii "reading"))
  | .invalid => Outcome.fail .txnRecordInvalid
  | .prepared source target => .ok (source, target)

/-- The live lock has a shape and loads in it. -/
def liveLoads : Bool :=
  match root.live.onDiskShapeAt first with
  | none => false
  | some shape => (root.live.loadShapeAt kernel blake3 shape).isOk

/-- Put the chosen candidate of a transaction in the place of a live lock that is missing or invalid. -/
def recoverPreparedReshape (id : TxnId) (choice : ReshapeRecoveryChoice) : Program Unit := do
  let root ← Durable.get
  let (source, target) ← Durable.raise (readPreparedRecord (root.txnDir id))
  if root.liveLoads kernel blake3 first then Durable.raise (Outcome.fail .liveAlreadyValid)
  else do
    let expected := match choice with
      | .restoreBackup => source
      | .promoteStaged => target
    let candidate := candidate (root.txnDir id) choice
    let detected := candidate.onDiskShapeAt first
    if detected ≠ some expected then Durable.raise (Outcome.fail (.candidateShapeMismatch detected expected))
    else do
      let _ ← Durable.raise ((candidate.loadShapeAt kernel blake3 expected).mapErr .candidateInvalid)
      if root.live ≠ .missing then
        if (root.txnDir id).replacedLive ≠ .missing then Durable.raise (Outcome.fail .displacedLiveAlreadyExists)
        else Durable.step fun root => root.displace id
      else pure ()
      match choice with
      | .restoreBackup => Durable.step fun root => root.restore id
      | .promoteStaged => Durable.step fun root => root.promote id

end Recovery

/-! ## Inspection -/

inductive PreparedReshapeStatus where
  | cleanablePrepared
  | completedNotCleaned
  | recoveryRequired
  | ambiguousRecovery
  | corruptRecoveryState
deriving DecidableEq

inductive ReshapeTransactionKind where
  | scratchOnly
  | malformed
  | prepared (status : PreparedReshapeStatus)
deriving DecidableEq

def candidateIsValid (tree : LockTree) (expected : OnDiskShape) : Bool :=
  match tree.onDiskShapeAt first with
  | none => false
  | some found => found = expected && (tree.loadShapeAt kernel blake3 expected).isOk

def classifyPrepared (liveIntact backupIsValid stagedIsValid : Bool) : PreparedReshapeStatus :=
  if liveIntact then
    if backupIsValid then .completedNotCleaned else .cleanablePrepared
  else
    match backupIsValid, stagedIsValid with
    | true, true => .ambiguousRecovery
    | true, false => .recoveryRequired
    | false, true => .recoveryRequired
    | false, false => .corruptRecoveryState

def inspectTransaction (liveIntact : Bool) (dir : TxnDir) : ReshapeTransactionKind :=
  match dir.record with
  | .absent => .scratchOnly
  | .invalid => .malformed
  | .prepared source target => .prepared (classifyPrepared liveIntact (candidateIsValid kernel blake3 first dir.backup source)
      (candidateIsValid kernel blake3 first dir.staged target))

/-- The transactions with what is to be done about them. -/
def inspect (root : LockRoot) : Outcome PersistenceError (List (TxnId × ReshapeTransactionKind)) := do
  let live ← root.inspectLive kernel blake3 first
  pure (root.txns.entries.map fun txn => (txn.1, inspectTransaction kernel blake3 first live.isValid txn.2))

end LockRoot

end Gat
