import Gat.Model.LockStore
import Mathlib.Data.Finset.Insert

/-! # Locks in Git history

A commit has no lock, a flat lock blob, or a tree of shard blobs. A walk over selected commits reads every lock of
them, but a lock blob or tree with a content that was met before is skipped.
-/

namespace Gat

abbrev GitObjectId := Str

/-- What an entry of a Git tree says it is. -/
inductive EntryMode where
  | blob
  | blobExecutable
  | tree
  | link
  | commit
deriving DecidableEq

namespace EntryMode

def isBlob : EntryMode → Bool
  | blob | blobExecutable => true
  | _ => false

def isTree : EntryMode → Bool
  | tree => true
  | _ => false

end EntryMode

structure GitTreeEntry where
  filename : Str
  mode : EntryMode
  objectId : GitObjectId
deriving DecidableEq

/-- What the object database answers, nothing for an object that is missing or of another kind. `files` is the
breadth-first traversal of a tree down to everything that is no tree itself. -/
structure GitObjects where
  findCommit : GitObjectId → Option GitObjectId
  findTree : GitObjectId → Option (List GitTreeEntry)
  files : GitObjectId → Option (List GitTreeEntry)
  findBlob : GitObjectId → Option Str

inductive GitHistoryError where
  | selection
  | traversal (action : Str)
  | invalidSnapshot (blob : GitObjectId)
deriving DecidableEq

inductive HistoryVisitError where
  | history (error : GitHistoryError)
  | lock (error : LockDomainError)
deriving DecidableEq

/-- Certify a complete file, then select rows in path order. -/
def visitFilteredMatching (kernel : Kernel) (text : Str) (keep : Str → Bool) : Outcome LockDomainError (List Entry) := do
  let view ← ValidatedLockFile.parse kernel text
  let rows ← view.semanticRows
  pure ((rows.filter fun row => keep row.1.text).map fun row => ⟨row.1, row.2⟩)

/-- `seen_lock_content` of a walk and the rows visited so far. -/
structure HistoryVisit where
  seenLockContent : Finset GitObjectId
  visited : List Entry

/-- The commits of a selection, each once, and whether history beyond them may be missing. -/
structure ResolvedHistory where
  selected : List GitObjectId
  shallow : Bool
deriving DecidableEq

namespace GitObjects

variable (objects : GitObjects) (kernel : Kernel) (keep : Str → Bool)

/-- An object, or the failure of the action that needed it. -/
def require {α : Type} (action : String) (found : Option α) : Outcome HistoryVisitError α :=
  match found with
  | some value => .ok value
  | none => Outcome.fail (.history (.traversal (ascii action)))

/-- The entry `gat.lock` in the tree of a commit. -/
def lockEntry (commit : GitObjectId) : Outcome HistoryVisitError (Option GitTreeEntry) := do
  let treeId ← require "reading commit during history walk" (objects.findCommit commit)
  let tree ← require "reading commit tree" (objects.findTree treeId)
  pure (tree.find? fun entry => entry.filename = ascii "gat.lock")

def visitLockBlob (blob : GitObjectId) : Outcome HistoryVisitError (List Entry) := do
  let text ← require "reading gat.lock blob" (objects.findBlob blob)
  if Utf8.Valid text then (visitFilteredMatching kernel text keep).mapErr .lock
  else Outcome.fail (.history (.invalidSnapshot blob))

/-- One file of a sharded lock. -/
def visitShard (visit : HistoryVisit) (file : GitTreeEntry) : Outcome HistoryVisitError HistoryVisit :=
  if file.mode.isBlob ∧ file.objectId ∉ visit.seenLockContent then do
    let rows ← objects.visitLockBlob kernel keep file.objectId
    pure ⟨insert file.objectId visit.seenLockContent, visit.visited ++ rows⟩
  else pure visit

/-- The files below a sharded lock. -/
def shardFiles (tree : GitObjectId) : Outcome HistoryVisitError (List GitTreeEntry) := do
  let _ ← require "reading sharded gat.lock tree" (objects.findTree tree)
  require "traversing sharded gat.lock tree" (objects.files tree)

/-- The lock of one commit. Only a blob or a tree has rows. -/
def visitCommit (visit : HistoryVisit) (commit : GitObjectId) : Outcome HistoryVisitError HistoryVisit := do
  match ← objects.lockEntry commit with
  | none => pure visit
  | some entry =>
    if entry.objectId ∈ visit.seenLockContent then pure visit
    else
      let visit : HistoryVisit := { visit with seenLockContent := insert entry.objectId visit.seenLockContent }
      if entry.mode.isBlob then do
        let rows ← objects.visitLockBlob kernel keep entry.objectId
        pure { visit with visited := visit.visited ++ rows }
      else if entry.mode.isTree then do
        let files ← objects.shardFiles entry.objectId
        files.foldlM (objects.visitShard kernel keep) visit
      else pure visit

/-- The selected rows of every distinct historical lock. -/
def visitHistoryLockEntries (selected : List GitObjectId) : Outcome HistoryVisitError (List Entry) := do
  let visit ← selected.foldlM (objects.visitCommit kernel keep) ⟨∅, []⟩
  pure visit.visited

/-! ## Without skipping -/

/-- The blobs that make up the lock of a commit. -/
def lockBlobs (commit : GitObjectId) : Outcome HistoryVisitError (List GitObjectId) := do
  match ← objects.lockEntry commit with
  | none => pure []
  | some entry =>
    if entry.mode.isBlob then pure [entry.objectId]
    else if entry.mode.isTree then do
      let files ← objects.shardFiles entry.objectId
      pure ((files.filter fun file => file.mode.isBlob).map GitTreeEntry.objectId)
    else pure []

/-- Every selected lock consists of blobs, or is a tree of them, and no lock blob is a lock tree. -/
structure Regular (selected : List GitObjectId) : Prop where
  mode : ∀ commit ∈ selected, ∀ entry, objects.lockEntry commit = .ok (some entry) → entry.mode.isBlob ∨ entry.mode.isTree
  apart : ∀ commit ∈ selected, ∀ entry, objects.lockEntry commit = .ok (some entry) → entry.mode.isTree →
    ∀ other ∈ selected, ∀ blobs, objects.lockBlobs other = .ok blobs → entry.objectId ∉ blobs

end GitObjects

end Gat
