import Gat.Model.LockCodec
import Gat.ToMathlib.SortedMap

/-! # Three-way merge

Three locks are merged path by path over one ordered union. Equal sides keep their value and a side
equal to the ancestor yields to the other. The resolved entries are then searched for a file that is
also a directory prefix.
-/

namespace Gat

structure Conflict where
  path : GatPath
  ancestor : Option Oid
  ours : Option Oid
  theirs : Option Oid
deriving DecidableEq

inductive MergeConflict where
  | paths (conflicts : List Conflict)
  | directoryPrefix (ancestor descendant : Str)
deriving DecidableEq

/-- The three optional values of one path. -/
structure Versions where
  ancestor : Option Oid
  ours : Option Oid
  theirs : Option Oid
deriving DecidableEq

/-- The index of a version in the merge's array. -/
inductive Side where
  | ancestor
  | ours
  | theirs
deriving DecidableEq

def Versions.none : Versions := ⟨.none, .none, .none⟩

def Versions.record (versions : Versions) (oid : Oid) : Side → Versions
  | .ancestor => { versions with ancestor := some oid }
  | .ours => { versions with ours := some oid }
  | .theirs => { versions with theirs := some oid }

/-- Record every entry of one side in the union. -/
def recordSide (paths : SortedMap GatPath Versions) (side : Side) (lock : Lock) : SortedMap GatPath Versions :=
  lock.entries.foldl (fun paths entry =>
    paths.alter entry.path fun versions => some ((versions.getD Versions.none).record entry.oid side)) paths

/-- The ordered union of the three locks. -/
def unionOf (ancestor ours theirs : Lock) : SortedMap GatPath Versions :=
  recordSide (recordSide (recordSide SortedMap.empty .ancestor ancestor) .ours ours) .theirs theirs

/-- The resolved value of a path, or nothing when its versions conflict. -/
def Versions.resolve (versions : Versions) : Option (Option Oid) :=
  if versions.ours = versions.theirs then some versions.ours
  else if versions.ours = versions.ancestor then some versions.theirs
  else if versions.theirs = versions.ancestor then some versions.ours
  else .none

/-- The loop body of the merge over the accumulated entries and conflicts. -/
def mergeStep (state : List Entry × List Conflict) (row : GatPath × Versions) : List Entry × List Conflict :=
  match row.2.resolve with
  | some (some oid) => (state.1 ++ [⟨row.1, oid⟩], state.2)
  | some .none => state
  | .none => (state.1, state.2 ++ [⟨row.1, row.2.ancestor, row.2.ours, row.2.theirs⟩])

/-- The first entry that is a directory prefix of another, with the first such other. -/
def directoryPrefixConflict : List Entry → Option (Str × Str)
  | [] => none
  | entry :: remaining =>
    let path := entry.path.text
    -- a successor outside the prefix range rules out every later key
    if remaining.head?.any fun next => path.isPrefixOf next.path.text then
      let next := partitionPoint remaining fun candidate => candidate.path.text < path ++ [Byte.slash]
      match remaining[next]? with
      | some candidate =>
        if isDirectoryPrefix path candidate.path.text then some (path, candidate.path.text)
        else directoryPrefixConflict remaining
      | none => directoryPrefixConflict remaining
    else directoryPrefixConflict remaining

/-- Resolve per-path changes, then certify the combined map. -/
def mergeThreeWay (ancestor ours theirs : Lock) : Except MergeConflict Lock :=
  let (entries, conflicts) := (unionOf ancestor ours theirs).entries.foldl mergeStep ([], [])
  if conflicts ≠ [] then .error (.paths conflicts)
  else
    match directoryPrefixConflict entries with
    | some (ancestor, descendant) => .error (.directoryPrefix ancestor descendant)
    | none => .ok ⟨entries⟩

end Gat
