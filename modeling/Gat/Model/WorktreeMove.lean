import Gat.Model.WorktreeMutation

/-! # Moving a path

A move takes a file that it replaces aside, into a temporary directory next to it, and keeps it there until the move is
committed or rolled back. The file system may take names that differ, for instance in case, for the same entry; a tree has one
name for each entry. Every call may fail for reasons of its own.
-/

namespace Gat

/-- The calls of a move, each of which happens at most once in an operation. -/
inductive MoveCall where
  | inspectAncestor (path : GatPath) (ancestor : TreePath)
  | createDirectory (path : TreePath) (again : Bool)
  | probeDirectory (path : TreePath) (again : Bool)
  | inspect (path : GatPath)
  | canonicalize (path : GatPath)
  | prepareBackup
  | rename (src dst : TreePath)
  | removeFile (path : TreePath)
  | removeDirectory (path : TreePath)

inductive MovePathError where
  | restoreDestination (backup : TreePath) (source : IoError)
  | path (source : WorktreePathError)
  | createParent (path : GatPath) (source : IoError)
  | rename (src dst : GatPath) (source : IoError)

inductive RollbackMoveError where
  | path (source : WorktreePathError)
  | restoreDestination (backup : TreePath) (source : IoError)
  | rename (src dst : GatPath) (source : IoError)

/-- A completed rename whose replaced destination is kept. -/
structure PendingMove where
  src : GatPath
  dst : GatPath
  backup : Option TreePath

/-- The file system that a move runs on: which name stands for an entry, which calls fail, and the random name of a temporary
directory. -/
structure MoveHost where
  fold : Str → Str
  faults : MoveCall → Bool
  temporary : Str

namespace MoveHost

variable (host : MoveHost)

/-- The entry that a path names. -/
def address (path : GatPath) : TreePath := path.treePath.map host.fold

/-- A call fails for its own reasons or as the tree has it. -/
def attempt {α : Type} (call : MoveCall) (result : Except FileTree.Failure α) : Except IoError α :=
  if host.faults call then .error .fault else result.mapError .failure

def confineMutation (tree : WorktreeTree) (path : GatPath) : Except WorktreePathError Unit :=
  (ancestors (host.address path)).forM fun ancestor =>
    checkAncestor (host.faults (.inspectAncestor path ancestor)) tree (host.address path) ancestor

def isDirectory (tree : WorktreeTree) (path : TreePath) (again : Bool) : Bool :=
  match host.attempt (.probeDirectory path again) (tree.lookup path) with
  | .ok .directory => true
  | _ => false

/-- `create_dir_all`: what exists is accepted, and what is missing is created from the root down. -/
def createDirAll (tree : WorktreeTree) (path : TreePath) : WorktreeTree × Except IoError Unit :=
  match host.attempt (.createDirectory path false) (tree.makeDirectory path) with
  | .ok after => (after, .ok ())
  | .error source =>
    if source = .failure .notFound ∧ path ≠ [] then
      match createDirAll tree path.dropLast with
      | (tree, .error source) => (tree, .error source)
      | (tree, .ok ()) =>
        match host.attempt (.createDirectory path true) (tree.makeDirectory path) with
        | .ok after => (after, .ok ())
        | .error source => (tree, if host.isDirectory tree path true then .ok () else .error source)
    else (tree, if host.isDirectory tree path false then .ok () else .error source)
termination_by path.length
decreasing_by
  cases path with
  | nil => simp_all
  | cons name path => simp

/-- Whether two files are one entry. -/
def sameEntry (tree : WorktreeTree) (src dst : GatPath) (leaf : WorktreeLeaf) : Bool :=
  match leaf, host.attempt (.inspect src) (tree.lookup (host.address src)) with
  | .symlink _, _ => false
  | _, .error _ => false
  | _, .ok (.leaf (.symlink _)) => false
  | _, .ok _ =>
    match host.attempt (.canonicalize src) (tree.lookup (host.address src)), host.attempt (.canonicalize dst) (tree.lookup (host.address dst)) with
    | .ok _, .ok _ => host.address src = host.address dst
    | _, _ => false

/-- Whether there is a destination to take aside. -/
def needsBackup (tree : WorktreeTree) (src dst : GatPath) : Except MovePathError Bool :=
  match host.attempt (.inspect dst) (tree.lookup (host.address dst)) with
  | .ok .directory => .error (.rename src dst (.failure .isDirectory))
  | .ok (.leaf leaf) => .ok (!host.sameEntry tree src dst leaf)
  | .error (.failure .notFound) => .ok false
  | .error source => .error (.path (.io (ascii "inspecting move destination") (host.address dst) source))

/-- Remove the temporary directory, if that works. -/
def discard (tree : WorktreeTree) (directory : TreePath) : WorktreeTree :=
  match host.attempt (.removeDirectory directory) (tree.removeDirectory directory) with
  | .ok after => after
  | .error _ => tree

def backupDirectory (dst : GatPath) : TreePath := (host.address dst).dropLast ++ [host.fold (ascii ".gat-move-" ++ host.temporary)]

def backupPath (dst : GatPath) : TreePath := host.backupDirectory dst ++ [host.fold (ascii "destination")]

/-- Take the destination aside. -/
def moveAside (tree : WorktreeTree) (dst : GatPath) : WorktreeTree × Except MovePathError TreePath :=
  match host.attempt .prepareBackup (tree.makeDirectory (host.backupDirectory dst)) with
  | .error source => (tree, .error (.path (.io (ascii "preparing move backup") (host.address dst) source)))
  | .ok prepared =>
    match host.attempt (.rename (host.address dst) (host.backupPath dst)) (prepared.rename (host.address dst) (host.backupPath dst)) with
    | .ok aside => (aside, .ok (host.backupPath dst))
    | .error source =>
      (host.discard prepared (host.backupDirectory dst), .error (.path (.io (ascii "backing up move destination") (host.address dst) source)))

def restoreMoveDestination (tree : WorktreeTree) (backup dst : TreePath) : WorktreeTree × Except IoError Unit :=
  match host.attempt (.rename backup dst) (tree.rename backup dst) with
  | .error source => (tree, .error source)
  | .ok restored => (host.discard restored backup.dropLast, .ok ())

/-- The rename itself. A destination that was taken aside returns when it fails. -/
def finishMove (tree : WorktreeTree) (src dst : GatPath) (backup : Option TreePath) : WorktreeTree × Except MovePathError PendingMove :=
  match host.attempt (.rename (host.address src) (host.address dst)) (tree.rename (host.address src) (host.address dst)), backup with
  | .ok moved, _ => (moved, .ok ⟨src, dst, backup⟩)
  | .error source, none => (tree, .error (.rename src dst source))
  | .error source, some backup =>
    match host.restoreMoveDestination tree backup (host.address dst) with
    | (restored, .ok ()) => (restored, .error (.rename src dst source))
    | (tree, .error failed) => (tree, .error (.restoreDestination backup failed))

def movePath (tree : WorktreeTree) (src dst : GatPath) : WorktreeTree × Except MovePathError PendingMove :=
  match host.confineMutation tree src, host.confineMutation tree dst with
  | .error source, _ => (tree, .error (.path source))
  | .ok (), .error source => (tree, .error (.path source))
  | .ok (), .ok () =>
    match host.createDirAll tree (host.address dst).dropLast with
    | (tree, .error source) => (tree, .error (.createParent dst source))
    | (tree, .ok ()) =>
      if src = dst then
        match host.attempt (.inspect src) (tree.lookup (host.address src)) with
        | .ok _ => (tree, .ok ⟨src, dst, none⟩)
        | .error source => (tree, .error (.rename src dst source))
      else
        match host.needsBackup tree src dst with
        | .error error => (tree, .error error)
        | .ok false => host.finishMove tree src dst none
        | .ok true =>
          match host.moveAside tree dst with
          | (tree, .error error) => (tree, .error error)
          | (tree, .ok backup) => host.finishMove tree src dst (some backup)

/-- Cleaning up is best effort; what it leaves is an extra copy. -/
def commit (tree : WorktreeTree) (pending : PendingMove) : WorktreeTree :=
  match pending.backup with
  | none => tree
  | some backup =>
    match host.attempt (.removeFile backup) (tree.removeFile backup) with
    | .ok after => host.discard after backup.dropLast
    | .error _ => host.discard tree backup.dropLast

def rollback (tree : WorktreeTree) (pending : PendingMove) : WorktreeTree × Except RollbackMoveError Unit :=
  match host.confineMutation tree pending.src, host.confineMutation tree pending.dst with
  | .error source, _ => (tree, .error (.path source))
  | .ok (), .error source => (tree, .error (.path source))
  | .ok (), .ok () =>
    match host.attempt (.rename (host.address pending.dst) (host.address pending.src))
        (tree.rename (host.address pending.dst) (host.address pending.src)), pending.backup with
    | .error source, _ => (tree, .error (.rename pending.src pending.dst source))
    | .ok back, none => (back, .ok ())
    | .ok back, some backup =>
      match host.restoreMoveDestination back backup (host.address pending.dst) with
      | (restored, .ok ()) => (restored, .ok ())
      | (tree, .error source) => (tree, .error (.restoreDestination backup source))

end MoveHost

end Gat
