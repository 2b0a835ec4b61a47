import Gat.Model.LexicalPath
import Gat.ToMathlib.FileTree

/-! # Changing the working tree

Files are removed and moved below the repository root, which is the root of a directory tree. Every path is checked for
symbolic links among its ancestors right before it is touched. Any call may fail for reasons of its own. Removals run
concurrently, a call at a time; afterwards the directories above the removed files are pruned, deepest first.
-/

namespace Gat

/-- What a path of the working tree names when it names no directory. -/
inductive WorktreeLeaf where
  | file (bytes : Str)
  | symlink (target : Str)
  | other
deriving DecidableEq

abbrev WorktreeTree := FileTree Str WorktreeLeaf

/-- Names below the repository root. -/
abbrev TreePath := List Str

def GatPath.treePath (path : GatPath) : TreePath := path.text.splitOn Byte.slash

/-- An error of a call: that of the tree, or one of its own. -/
inductive IoError where
  | failure (kind : FileTree.Failure)
  | fault
deriving DecidableEq

inductive WorktreePathError where
  | symlinkAncestor (path ancestor : TreePath)
  | io (operation : Str) (path : TreePath) (source : IoError)
deriving DecidableEq

/-- One step of the search for symbolic links above a path. -/
def checkAncestor (fault : Bool) (tree : WorktreeTree) (path ancestor : TreePath) : Except WorktreePathError Unit :=
  if fault then .error (.io (ascii "reading") ancestor .fault)
  else
    match tree.lookup ancestor with
    | .ok (.leaf (.symlink _)) => .error (.symlinkAncestor path ancestor)
    | .ok _ => .ok ()
    | .error .notFound => .ok ()
    | .error failure => .error (.io (ascii "reading") ancestor (.failure failure))

/-- The directories above a path, from the root down. -/
def ancestors (path : TreePath) : List TreePath := path.inits.dropLast

/-! ## Removing files -/

inductive RemovePathError where
  | path (source : WorktreePathError)
  | delete (path : TreePath) (source : IoError)
  | prune (path : TreePath) (source : IoError)
deriving DecidableEq

/-- How far the removal of one path has come. -/
inductive RemoveJob where
  | checking (remaining : List TreePath)
  | removing
  | done (result : Except RemovePathError (Option TreePath))

/-- The next call of one removal. -/
def RemoveJob.step (path : TreePath) (fault : Bool) (tree : WorktreeTree) : RemoveJob → WorktreeTree × RemoveJob
  | .checking [] => (tree, .removing)
  | .checking (ancestor :: remaining) =>
    match checkAncestor fault tree path ancestor with
    | .ok () => (tree, .checking remaining)
    | .error error => (tree, .done (.error (.path error)))
  | .removing =>
    if fault then (tree, .done (.error (.delete path .fault)))
    else
      match tree.removeFile path with
      | .ok after => (after, .done (.ok (some path)))
      | .error .notFound => (tree, .done (.ok none))
      | .error failure => (tree, .done (.error (.delete path (.failure failure))))
  | .done result => (tree, .done result)

def RemoveJob.result? : RemoveJob → Option (Except RemovePathError (Option TreePath))
  | .done result => some result
  | _ => none

/-- The working tree with all removals, in input order. -/
structure Removal where
  tree : WorktreeTree
  jobs : List (TreePath × RemoveJob)

def Removal.start (paths : List GatPath) (tree : WorktreeTree) : Removal :=
  ⟨tree, paths.map fun path => (path.treePath, .checking (ancestors path.treePath))⟩

/-- The job with the index makes its next call, which may be at fault. -/
def Removal.step (removal : Removal) (turn : ℕ × Bool) : Removal :=
  match removal.jobs[turn.1]? with
  | none => removal
  | some (path, job) =>
    let (tree, job) := job.step path turn.2 removal.tree
    ⟨tree, removal.jobs.set turn.1 (path, job)⟩

/-- Run the removals in the given interleaving; there is no result before all of them have ended. -/
def removeFiles (schedule : List (ℕ × Bool)) (paths : List GatPath) (tree : WorktreeTree) :
    Option (WorktreeTree × List (Except RemovePathError (Option TreePath))) := do
  let removal := schedule.foldl Removal.step (Removal.start paths tree)
  let results ← removal.jobs.mapM fun job => job.2.result?
  return (removal.tree, results)

/-! ## Pruning -/

/-- Collect the directories above a removed path, as far as they are not yet collected. -/
def collectAncestors (candidates : Finset TreePath) (path : TreePath) : Finset TreePath :=
  if path.dropLast = [] then candidates
  else if path.dropLast ∈ candidates then candidates
  else collectAncestors (insert path.dropLast candidates) path.dropLast
termination_by path.length
decreasing_by
  cases path with
  | nil => simp at *
  | cons name path => simp

def blockParent (dir : TreePath) (blocked : Finset TreePath) : Finset TreePath :=
  if dir.dropLast = [] then blocked else insert dir.dropLast blocked

/-- Remove empty candidates in order. A directory that is not empty blocks the one above. -/
def pruneLoop (faults : TreePath → Bool) : WorktreeTree → Finset TreePath → List TreePath → WorktreeTree × Except RemovePathError Unit
  | tree, _, [] => (tree, .ok ())
  | tree, blocked, dir :: rest =>
    if dir ∈ blocked then pruneLoop faults tree (blockParent dir blocked) rest
    else if faults dir then (tree, .error (.prune dir .fault))
    else
      match tree.removeDirectory dir with
      | .ok after => pruneLoop faults after blocked rest
      | .error .notFound => pruneLoop faults tree blocked rest
      | .error .notEmpty | .error .notDirectory => pruneLoop faults tree (blockParent dir blocked) rest
      | .error failure => (tree, .error (.prune dir (.failure failure)))

def pruneTouchedAncestorDirs (order : HashOrder TreePath) (faults : TreePath → Bool) (tree : WorktreeTree) (deleted : List TreePath) :
    WorktreeTree × Except RemovePathError Unit :=
  let candidates := deleted.foldl collectAncestors ∅
  let ordered := (order.list candidates).mergeSort fun left right => right.length ≤ left.length
  pruneLoop faults tree ∅ ordered

/-- Remove the files, then prune, unless a removal failed. -/
def removeAndPrune (schedule : List (ℕ × Bool)) (order : HashOrder TreePath) (faults : TreePath → Bool) (paths : List GatPath)
    (tree : WorktreeTree) : Option (WorktreeTree × Except RemovePathError Unit) := do
  let (tree, results) ← removeFiles schedule paths tree
  match results.mapM id with
  | .error error => return (tree, .error error)
  | .ok deleted => return pruneTouchedAncestorDirs order faults tree (deleted.filterMap id)

end Gat
