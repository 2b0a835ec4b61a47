import Gat.Model.Sync

/-! # Working-tree identity

A file is known by its content identifier. A stat proof recorded with an identifier preserves it without
reading the file, another size refutes it, and everything else is decided by hashing once.
-/

namespace Gat

inductive WorktreeStatusKind where
  | absent
  | matching
  | differs
deriving DecidableEq

structure WorktreeFileStatus where
  kind : WorktreeStatusKind
  proofRefresh : Option StatProof
deriving DecidableEq

namespace WorktreeFileStatus

def absent : WorktreeFileStatus := ⟨.absent, none⟩

def matching (proofRefresh : Option StatProof) : WorktreeFileStatus := ⟨.matching, proofRefresh⟩

def differs : WorktreeFileStatus := ⟨.differs, none⟩

def intoStateRefresh (status : WorktreeFileStatus) (path : GatPath) : Option StateMutation :=
  status.proofRefresh.map (StateMutation.refreshStat path)

end WorktreeFileStatus

/-- A node of the working tree as it can be observed: the stat of a regular file, when it makes a proof,
and its digest with the proof of a coherent read. -/
inductive WorktreeNode (ε : Type) where
  | absent
  | symlink (target : Except ε Str)
  | file (observed : Option StatProof) (hashed : Except ε (Oid × StatProof))
  | other

/-- What a run observes of the working tree and where the cache keeps an object. A run looks at a path
at most once before it changes that path, so one observation for each path describes any run. -/
structure Worktree (ε : Type) where
  inspect : GatPath → Except ε (WorktreeNode ε)
  cachePath : Oid → Str

inductive IdentityCheck where
  | proven
  | sizeMismatch
  | hashed (oid : Oid) (agrees : Bool) (proof : StatProof)

/-- Decide whether a regular file still has the expected content. -/
def checkKnownOid {ε : Type} (expected : Oid) (prior observed : Option StatProof) (hashed : Except ε (Oid × StatProof)) :
    Except ε IdentityCheck :=
  let hash := hashed.map fun read => IdentityCheck.hashed read.1 (expected = read.1) read.2
  match prior, observed with
  | some prior, some current =>
    if current = prior then .ok .proven
    else if current.size ≠ prior.size then .ok .sizeMismatch
    else hash
  | _, _ => hash

namespace Worktree

variable {ε : Type}

/-- The status of the node at a path against an expected object. -/
def statusOf (worktree : Worktree ε) (path : GatPath) (expected : Oid) (prior : Option StatProof) (trustState : Bool) :
    Except ε WorktreeFileStatus := do
  if trustState then return .matching none
  match ← worktree.inspect path with
  | .absent => return .absent
  | .symlink target => return if (← target) = worktree.cachePath expected then .matching none else .differs
  | .other => return .differs
  | .file observed hashed =>
    match ← checkKnownOid expected prior observed hashed with
    | .proven => return .matching none
    | .hashed _ true proof => return .matching (some proof)
    | .sizeMismatch | .hashed _ false _ => return .differs

def fileStatus (worktree : Worktree ε) (prior : MaterializedRow) (trustState : Bool) : Except ε WorktreeFileStatus :=
  worktree.statusOf prior.path prior.oid prior.proof trustState

def fileStatusWithoutPrior (worktree : Worktree ε) (path : GatPath) (expected : Oid) (trustState : Bool) :
    Except ε WorktreeFileStatus :=
  worktree.statusOf path expected none trustState

end Worktree

end Gat
