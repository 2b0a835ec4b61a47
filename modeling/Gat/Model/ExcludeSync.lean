import Gat.Model.ExcludeBody
import Gat.Model.ManagedBlock
import Gat.Model.Sync

/-! # Keeping the managed exclusions current

The store records what the block was generated from, how many rules it has, the identity of its text and a stat proof of
the file. A sync accepts the block when the record matches, first by the proof and then by the identity, and rebuilds it
otherwise. Mutations and removals write the same file behind the record. Between a read of the file and the check before
its replacement another program may write it.
-/

namespace Gat

/-- What stands at `.git/info/exclude`. A regular file that is not text cannot be read. -/
inductive InfoExcludeLeaf where
  | missing
  | regular (contents : Str) (stat : StatProof)
  | unreadable (stat : StatProof)
  | special
deriving DecidableEq

/-- `observe_regular_file_no_follow`. -/
def InfoExcludeLeaf.observe : InfoExcludeLeaf → Option StatProof
  | regular _ stat => some stat
  | unreadable stat => some stat
  | missing => none
  | special => none

inductive InfoExcludeError where
  | read
  | notRegularFile
  | write
  | remove
  | concurrentModification (attempts : ℕ)
deriving DecidableEq

/-- What a caller derives from one reading. -/
inductive InfoExcludeMutation where
  | unchanged
  | replace (contents : Str)
  | remove
deriving DecidableEq

structure InfoExcludeUpdate where
  changed : Bool
  proof : Option StatProof
deriving DecidableEq

/-- One coherent reading. -/
inductive ExcludeSource where
  | missing
  | present (value : Str) (proof : StatProof)
deriving DecidableEq

namespace ExcludeSource

def contents : ExcludeSource → Str
  | missing => []
  | present value _ => value

/-- `source_is_current`. -/
def isCurrent : ExcludeSource → InfoExcludeLeaf → Bool
  | missing, leaf => leaf = .missing
  | present _ prior, leaf => leaf.observe = some prior

end ExcludeSource

def acquire : InfoExcludeLeaf → Except InfoExcludeError ExcludeSource
  | .missing => .ok .missing
  | .regular contents stat => .ok (.present contents stat)
  | .unreadable _ => .error .read
  | .special => .error .notRegularFile

/-- What the file system does to one operation: the file that stands there when the source is checked again, by the number of
attempts that remain, the stat of a replaced file unless the write fails, and whether a removal succeeds. -/
structure ExcludeFs where
  race : ℕ → InfoExcludeLeaf → InfoExcludeLeaf
  written : Option StatProof
  removes : Bool

def CONCURRENT_MODIFICATION_RETRIES : ℕ := 3

section Mutate

variable (fs : ExcludeFs) (dryRun : Bool) (derive' : Str → Outcome InfoExcludeError InfoExcludeMutation)

/-- The attempts that remain; the last one ends the loop. -/
def mutateFrom : ℕ → InfoExcludeLeaf → InfoExcludeLeaf × Outcome InfoExcludeError InfoExcludeUpdate
  | 0, leaf => (leaf, Outcome.panic)
  | remaining + 1, leaf =>
    match acquire leaf with
    | .error fault => (leaf, Outcome.fail fault)
    | .ok source =>
      match derive' source.contents with
      | .error fault => (leaf, .error fault)
      | .ok mutation =>
        if mutation = .unchanged then (leaf, .ok ⟨false, none⟩)
        else if dryRun then (leaf, .ok ⟨true, none⟩)
        else
          let current := fs.race remaining leaf
          if !source.isCurrent current then
            if remaining = 0 then (current, Outcome.fail (.concurrentModification CONCURRENT_MODIFICATION_RETRIES)) else mutateFrom remaining current
          else
            match mutation with
            | .unchanged => (current, Outcome.panic)
            | .replace contents =>
              match fs.written with
              | some stat => (.regular contents stat, .ok ⟨true, some stat⟩)
              | none => (current, Outcome.fail .write)
            | .remove => if fs.removes then (.missing, .ok ⟨true, none⟩) else (current, Outcome.fail .remove)

/-- Derive a mutation from one reading of the file and carry it out when the file is still the one that was read. -/
def mutateInfoExclude (leaf : InfoExcludeLeaf) : InfoExcludeLeaf × Outcome InfoExcludeError InfoExcludeUpdate :=
  mutateFrom fs dryRun derive' CONCURRENT_MODIFICATION_RETRIES leaf

end Mutate

/-! ## Rendering and removal -/

structure SyncStatus where
  changed : Bool
  count : ℕ
deriving DecidableEq

section Render

variable (blake3 : ContentHash) (fs : ExcludeFs)

def renderMutation (body existing : Str) : Outcome InfoExcludeError InfoExcludeMutation := do
  let updated ← ManagedBlock.upsert BEGIN END existing body
  pure (if updated = existing then .unchanged else .replace updated)

/-- Install a body in the managed block. -/
def renderWithProof (body : ExcludeBody) (dryRun : Bool) (leaf : InfoExcludeLeaf) :
    InfoExcludeLeaf × Outcome InfoExcludeError (SyncStatus × List.Vector UInt8 32 × InfoExcludeUpdate) :=
  let (leaf, result) := mutateInfoExclude fs dryRun (renderMutation body.body) leaf
  (leaf, result.map fun update => (⟨update.changed, body.count⟩, blake3 body.body, update))

def removeMutation (existing : Str) : Outcome InfoExcludeError InfoExcludeMutation := do
  match ← ManagedBlock.remove BEGIN END existing with
  | none => pure .unchanged
  | some updated => pure (if (Utf8.chars updated).all charIsWhitespace then .remove else .replace updated)

/-- Remove the managed block, and the file with it when nothing else is there. -/
def removeManagedBlock (leaf : InfoExcludeLeaf) : InfoExcludeLeaf × Outcome InfoExcludeError Bool :=
  let (leaf, result) := mutateInfoExclude fs false removeMutation leaf
  (leaf, result.map InfoExcludeUpdate.changed)

end Render

/-! ## The record -/

/-- The columns of `reconciliation_meta` for the block. -/
structure ExcludeRecord where
  fingerprint : Option (List.Vector UInt8 32)
  count : ℕ
  blockIdentity : Option (List.Vector UInt8 32)
  proof : Option StatProof
deriving DecidableEq

namespace ExcludeRecord

def empty : ExcludeRecord := ⟨none, 0, none, none⟩

end ExcludeRecord

inductive InfoExcludeVerification where
  | stale
  | current (refreshedProof : Option StatProof)
deriving DecidableEq

/-- Accept the recorded block by the stat of its file, or by the identity of the block that the file holds. -/
def verifyInfoExclude (blake3 : ContentHash) (record : ExcludeRecord) (leaf : InfoExcludeLeaf) :
    Outcome InfoExcludeError InfoExcludeVerification :=
  if record.proof.isSome ∧ leaf.observe = record.proof then .ok (.current none)
  else
    match acquire leaf with
    | .error fault => Outcome.fail fault
    | .ok .missing => .ok .stale
    | .ok (.present value proof) => do
      let identity := (← ManagedBlock.extractBody BEGIN END value).map blake3
      pure (if identity.isSome ∧ identity = record.blockIdentity then .current (some proof) else .stale)

/-- `u64::to_le_bytes`. -/
def toLeBytes (value : ℕ) : Str := (List.range 8).map fun place => UInt8.ofNat (value / 256 ^ place)

/-- What the block is generated from, with every pattern framed by its length. -/
def fingerprintInput (desired : List.Vector UInt8 32) (patterns : List GitIgnorePattern) : Str :=
  ascii "gat-excludes-v4\x00" ++ desired.toList ++ patterns.flatMap fun pattern => toLeBytes pattern.text.length ++ pattern.text

def fingerprint (blake3 : ContentHash) (desired : List.Vector UInt8 32) (patterns : List GitIgnorePattern) : List.Vector UInt8 32 :=
  blake3 (fingerprintInput desired patterns)

/-- A count as a column keeps it. -/
def saturateI64 (count : ℕ) : ℕ := min count (2 ^ 63 - 1)

/-- The part of the state store that a sync of the block reads. -/
structure ExcludeStore where
  table : StateTable
  desiredFingerprint : List.Vector UInt8 32
  record : ExcludeRecord

inductive ExcludesError where
  | state
  | infoExclude (fault : InfoExcludeError)
deriving DecidableEq

/-- Calls of the store that fail. -/
structure StoreFaults where
  fingerprint : Bool
  record : Bool
  refresh : Bool
  rows : Bool
  output : Bool

section Sync

variable (blake3 : ContentHash) (search : IgnoreSearch) (printable : Char → Bool) (patterns : List GitIgnorePattern) (faults : StoreFaults)
  (fs : ExcludeFs)

/-- Generate the block again and record what it was generated from. -/
def rebuildExclude (store : ExcludeStore) (leaf : InfoExcludeLeaf) : (ExcludeStore × InfoExcludeLeaf) × Outcome ExcludesError SyncStatus :=
  if faults.rows then ((store, leaf), Outcome.fail .state)
  else
    match (bodyFromStore search printable patterns store.table : Except Empty ExcludeBody) with
    | .error fault => nomatch fault
    | .ok body =>
      match renderWithProof blake3 fs body false leaf with
      | (leaf, .error .panic) => ((store, leaf), Outcome.panic)
      | (leaf, .error (.error fault)) => ((store, leaf), Outcome.fail (.infoExclude fault))
      | (leaf, .ok (status, identity, update)) =>
        if faults.output then ((store, leaf), Outcome.fail .state)
        else
          (({ store with record := ⟨some (fingerprint blake3 store.desiredFingerprint patterns), saturateI64 status.count, some identity, update.proof⟩ }, leaf),
            .ok status)

def syncFromStoreFastPath (store : ExcludeStore) (leaf : InfoExcludeLeaf) : (ExcludeStore × InfoExcludeLeaf) × Outcome ExcludesError SyncStatus :=
  if faults.fingerprint ∨ faults.record then ((store, leaf), Outcome.fail .state)
  else if store.record.fingerprint = some (fingerprint blake3 store.desiredFingerprint patterns) then
    match verifyInfoExclude blake3 store.record leaf with
    | .error .panic => ((store, leaf), Outcome.panic)
    | .error (.error fault) => ((store, leaf), Outcome.fail (.infoExclude fault))
    | .ok .stale => rebuildExclude blake3 search printable patterns faults fs store leaf
    | .ok (.current none) => ((store, leaf), .ok ⟨false, store.record.count⟩)
    | .ok (.current (some proof)) =>
      if faults.refresh then ((store, leaf), Outcome.fail .state)
      else (({ store with record := { store.record with proof := some proof } }, leaf), .ok ⟨false, store.record.count⟩)
  else rebuildExclude blake3 search printable patterns faults fs store leaf

end Sync

end Gat
