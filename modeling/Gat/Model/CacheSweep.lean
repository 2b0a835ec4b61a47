import Gat.Model.LockReader

/-! # Sweeping the cache

The cache keeps an object at `blake3/xx/yy/oid`, where the two directories spell the first two bytes of the object id.
A sweep lists these directories, asks for a decision on every canonical name, and unlinks what is to be deleted. What
is not canonical is left alone, and a directory that has become empty is removed.
-/

namespace Gat

/-- A name in a directory, which need not be text. -/
abbrev FileName := Str

/-- `OsStr::to_str`. -/
def FileName.toStr (name : FileName) : Option Str := if Utf8.Valid name then some name else none

def parseFanoutSegment : Str → Option UInt8
  | [high, low] => do
    let highValue ← nibble high
    let lowValue ← nibble low
    some (highValue * 16 + lowValue)
  | _ => none

/-- The two directory bytes, spelled. -/
structure ObjectFanout where
  spelled : Str
deriving DecidableEq

namespace ObjectFanout

def new (first second : UInt8) : ObjectFanout :=
  ⟨[hexDigit (first >>> 4), hexDigit (first &&& 0xF), hexDigit (second >>> 4), hexDigit (second &&& 0xF)]⟩

def parseLeaf (fanout : ObjectFanout) (name : Str) : Option Oid :=
  if width : name.length = 64 then
    if fanout.spelled <+: name then decodeHash ⟨name, width⟩ else none
  else none

end ObjectFanout

/-- The two directories and the name of an object below the namespace. -/
def objectKey (oid : Oid) : FileName × FileName × FileName :=
  (oid.encodeHex.take 2, (oid.encodeHex.drop 2).take 2, oid.encodeHex)

/-- What a name in a fan-out directory leads to. -/
inductive CacheNode (α : Type) where
  | other
  | directory (entries : List (FileName × α))
deriving DecidableEq

/-- The lowest level: something that can be unlinked, or a directory. -/
inductive CacheLeaf where
  | file (bytes : Str)
  | directory
deriving DecidableEq

abbrev CacheDirectory (α : Type) := List (FileName × α)

/-- The namespace directory of the cache. -/
abbrev CacheNamespace := CacheDirectory (CacheNode (CacheNode CacheLeaf))

inductive CacheSweepDecision where
  | keep
  | delete
  | uncertain
deriving DecidableEq

structure CacheSweepStats where
  deleted : ℕ
  uncertain : ℕ
deriving DecidableEq

namespace CacheSweepStats

def zero : CacheSweepStats := ⟨0, 0⟩

def add (left right : CacheSweepStats) : CacheSweepStats := ⟨left.deleted + right.deleted, left.uncertain + right.uncertain⟩

end CacheSweepStats

inductive CacheEnumerationError where
  | io (operation : Str)
  | proof
deriving DecidableEq

/-- A sweep stops at an I/O error of its own or at an error of the decision. -/
inductive SweepError (ε : Type) where
  | enumeration (error : CacheEnumerationError)
  | decision (error : ε)
deriving DecidableEq

/-- Which calls of the file system and of the proof store fail. Names lead from the namespace downwards. -/
structure SweepFaults where
  readNamespace : Bool
  stat : List FileName → Bool
  read : List FileName → Bool
  prepare : Oid → Bool
  unlink : Oid → Bool
  record : Oid → Bool
  removeDirectory : List FileName → Bool
  flush : Bool

def SweepFaults.none : SweepFaults where
  readNamespace := false
  stat _ := false
  read _ := false
  prepare _ := false
  unlink _ := false
  record _ := false
  removeDirectory _ := false
  flush := false

/-- What the loop over one directory leaves in it, with the counts of a complete loop. -/
structure Swept (ε α : Type) where
  entries : CacheDirectory α
  stats : CacheSweepStats
  nonempty : Bool
  status : Except (SweepError ε) Unit

namespace Swept

variable {ε α : Type}

/-- The entry stays. -/
def left (entry : FileName × α) (nonempty : Bool) (stats : CacheSweepStats) : Swept ε α := ⟨[entry], stats, nonempty, .ok ()⟩

/-- The entry is gone. -/
def gone (stats : CacheSweepStats) : Swept ε α := ⟨[], stats, false, .ok ()⟩

def failed (entries : CacheDirectory α) (error : SweepError ε) : Swept ε α := ⟨entries, .zero, true, .error error⟩

end Swept

/-- A loop over a directory, which stops at the first error. -/
def sweepEntries {ε α : Type} (visit : FileName × α → Swept ε α) : CacheDirectory α → Swept ε α
  | [] => ⟨[], .zero, false, .ok ()⟩
  | entry :: rest =>
    let first := visit entry
    match first.status with
    | .error error => Swept.failed (first.entries ++ rest) error
    | .ok () =>
      let others := sweepEntries visit rest
      ⟨first.entries ++ others.entries, first.stats.add others.stats, first.nonempty || others.nonempty, others.status⟩

variable {ε : Type} (faults : SweepFaults) (dryRun : Bool) (decide : Oid → Except ε CacheSweepDecision)

/-- Unlink one object. The proof storage is prepared before and told after. -/
def sweepRemove (entry : FileName × CacheLeaf) (oid : Oid) : Swept ε CacheLeaf :=
  if faults.prepare oid then Swept.failed [entry] (.enumeration (.io (ascii "prepare")))
  else if faults.unlink oid ∨ entry.2 = .directory then Swept.failed [entry] (.enumeration (.io (ascii "remove")))
  else if faults.record oid then Swept.failed [] (.enumeration .proof)
  else Swept.gone ⟨1, 0⟩

def sweepLeaf (fanout : ObjectFanout) (entry : FileName × CacheLeaf) : Swept ε CacheLeaf :=
  match entry.1.toStr.bind fanout.parseLeaf with
  | none => Swept.left entry true .zero
  | some oid =>
    match decide oid with
    | .error error => Swept.failed [entry] (.decision error)
    | .ok .keep => Swept.left entry true .zero
    | .ok .uncertain => Swept.left entry true ⟨0, 1⟩
    | .ok .delete => if dryRun then Swept.left entry true ⟨1, 0⟩ else sweepRemove faults entry oid

/-- Remove a directory if the loop over it left nothing; one that is not empty is tolerated. -/
def removeDirIfEmpty {α : Type} (path : List FileName) (name : FileName) (swept : Swept ε α) : Swept ε (CacheNode α) :=
  if swept.nonempty then Swept.left (name, .directory swept.entries) true swept.stats
  else if swept.entries ≠ [] then Swept.left (name, .directory swept.entries) false swept.stats
  else if faults.removeDirectory path then Swept.failed [(name, .directory swept.entries)] (.enumeration (.io (ascii "remove")))
  else Swept.gone swept.stats

/-- The common part of both directory levels: a canonical name of a readable directory is swept. -/
def sweepDirectory {α : Type} (path : List FileName) (visit : FileName × α → Swept ε α) (entry : FileName × CacheNode α) :
    Swept ε (CacheNode α) :=
  if faults.stat path then Swept.failed [entry] (.enumeration (.io (ascii "stat")))
  else
    match entry.2 with
    | .other => Swept.left entry true .zero
    | .directory entries =>
      if faults.read path then Swept.failed [entry] (.enumeration (.io (ascii "read")))
      else
        let swept := sweepEntries visit entries
        match swept.status with
        | .error error => Swept.failed [(entry.1, .directory swept.entries)] error
        | .ok () =>
          if dryRun then Swept.left (entry.1, .directory swept.entries) false swept.stats
          else removeDirIfEmpty faults path entry.1 swept

/-- A second-level directory. -/
def sweepFanout (l1 : FileName) (first : UInt8) (entry : FileName × CacheNode CacheLeaf) : Swept ε (CacheNode CacheLeaf) :=
  match entry.1.toStr.bind parseFanoutSegment with
  | none => Swept.left entry true .zero
  | some second => sweepDirectory faults dryRun [l1, entry.1] (sweepLeaf faults dryRun decide (ObjectFanout.new first second)) entry

/-- A first-level directory, one unit of the parallel sweep. -/
def sweepEntry (entry : FileName × CacheNode (CacheNode CacheLeaf)) : Swept ε (CacheNode (CacheNode CacheLeaf)) :=
  match entry.1.toStr.bind parseFanoutSegment with
  | none => Swept.left entry true .zero
  | some first => sweepDirectory faults dryRun [entry.1] (sweepFanout faults dryRun decide entry.1 first) entry

/-- The counts of all parts, or the first error in listing order. -/
def sweepResult {α : Type} (flushed : Except CacheEnumerationError Unit) : CacheSweepStats → List (Swept ε α) →
    Except (SweepError ε) CacheSweepStats
  | stats, [] =>
    match flushed with
    | .ok () => .ok stats
    | .error error => .error (.enumeration error)
  | stats, part :: parts =>
    match part.status with
    | .ok () => sweepResult flushed (stats.add part.stats) parts
    | .error error => .error error

/-- Sweep the namespace, which may be missing. Every part runs to its own end. -/
def sweepObjects (cache : Option CacheNamespace) : Option CacheNamespace × Except (SweepError ε) CacheSweepStats :=
  match cache with
  | none => (none, if faults.readNamespace then .error (.enumeration (.io (ascii "read"))) else .ok .zero)
  | some entries =>
    if faults.readNamespace then (cache, .error (.enumeration (.io (ascii "read"))))
    else
      let parts := entries.map (sweepEntry faults dryRun decide)
      let flushed := if faults.flush then .error .proof else .ok ()
      (some (parts.flatMap Swept.entries), sweepResult flushed .zero parts)

end Gat
