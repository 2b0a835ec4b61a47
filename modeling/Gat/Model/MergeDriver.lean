import Gat.Model.LockMerge
import Gat.Model.LockStore

/-! # The merge driver

Git runs the driver on the three stages of one lock file. The driver reads them, merges, and replaces the
file of our side as its last step. A file changed on one side only is not given to the driver.
-/

namespace Gat

inductive MergeDriverError where
  | read (stage : Side)
  | parse (stage : Side) (source : LockDomainError)
  | semanticConflict (conflict : MergeConflict)
  | invalidMerge (source : LockDomainError)
  | publish
deriving DecidableEq

/-- Read one stage; a missing or empty file is an absent side. -/
def readStage (kernel : Kernel) (stage : Side) (file : Option Str) : Outcome MergeDriverError Lock :=
  match file with
  | none => .ok ⟨[]⟩
  | some text =>
    if ¬Utf8.Valid text then Outcome.fail (.read stage)
    else if text = [] then .ok ⟨[]⟩
    else (Lock.parse kernel text).mapErr (.parse stage)

/-- The merged lock of three stages. -/
def mergeStages (kernel : Kernel) (ancestor ours theirs : Option Str) : Outcome MergeDriverError Lock := do
  let ancestorLock ← readStage kernel .ancestor ancestor
  let oursLock ← readStage kernel .ours ours
  let theirsLock ← readStage kernel .theirs theirs
  match mergeThreeWay ancestorLock oursLock theirsLock with
  | .ok merged => .ok merged
  | .error conflict => Outcome.fail (.semanticConflict conflict)

/-- The text to publish: the lock is validated before anything is written. -/
def publishedText (lock : Lock) : Outcome MergeDriverError Str := do
  lock.validate.mapErr .invalidMerge
  lock.toText

/-- Run the driver and give our file afterwards. The final replacement is atomic: it may fail, and then it
leaves the file alone. -/
def mergeDriver (kernel : Kernel) (writable : Bool) (ancestor ours theirs : Option Str) :
    Outcome MergeDriverError Unit × Option Str :=
  match (do publishedText (← mergeStages kernel ancestor ours theirs) : Outcome MergeDriverError Str) with
  | .error fault => (.error fault, ours)
  | .ok text => if writable then (.ok (), some text) else (Outcome.fail .publish, ours)

/-- Git's rule for one file: a side equal to the ancestor yields to the other, and the driver merges
the rest. -/
def mergeFile (kernel : Kernel) (writable : Bool) (ancestor ours theirs : Option Str) :
    Outcome MergeDriverError Unit × Option Str :=
  if ours = ancestor then (.ok (), theirs)
  else if theirs = ancestor then (.ok (), ours)
  else mergeDriver kernel writable ancestor ours theirs

/-- The shard files that some version has. -/
def shardIds (ancestor ours theirs : ShardFiles) : List LockShardId :=
  ((ancestor.entries ++ ours.entries ++ theirs.entries).map Prod.fst).dedup

/-- Git's rule for one shard of three locks. -/
def mergeShard (kernel : Kernel) (writable : LockShardId → Bool) (ancestor ours theirs : ShardFiles)
    (id : LockShardId) : Outcome MergeDriverError Unit × Option Str :=
  mergeFile kernel (writable id) (ancestor.get? id) (ours.get? id) (theirs.get? id)

/-- The shard files after every shard has been merged. -/
def mergeShards (kernel : Kernel) (writable : LockShardId → Bool) (ancestor ours theirs : ShardFiles) : ShardFiles :=
  (shardIds ancestor ours theirs).foldl (fun files id =>
    files.alter id fun _ => (mergeShard kernel writable ancestor ours theirs id).2) ours

/-- The conflicts a failed merge names. -/
def MergeDriverError.conflicts : MergeDriverError → List Conflict
  | .semanticConflict (.paths conflicts) => conflicts
  | _ => []

end Gat
