import Gat.Model.PathPolicy

/-! # Admission of transfers

A coordinator asks for a job slot and room for its payload at once. The counters are kept for the whole process and for
each remote with a live lease, and remotes that were refused wait in a queue.
-/

namespace Gat

/-- The key order of the map of remotes, which no result depends on. -/
instance : LinearOrder RemoteId := LinearOrder.lift' RemoteId.id fun left right same => by
  cases left
  cases right
  exact congrArg RemoteId.mk same

def GLOBAL_BYTES : ℕ := 256 * 1024 * 1024

def REMOTE_BYTES : ℕ := 128 * 1024 * 1024

structure RemoteConcurrency where
  global : ℕ
  perRemote : ℕ
  global_pos : 0 < global
  perRemote_pos : 0 < perRemote
deriving DecidableEq

/-- Reserved jobs and bytes. -/
@[ext] structure Usage where
  jobs : ℕ
  bytes : ℕ
deriving DecidableEq

namespace Usage

def zero : Usage := ⟨0, 0⟩

def reserve (usage : Usage) (bytes : ℕ) : Usage := ⟨usage.jobs + 1, usage.bytes + bytes⟩

/-- Give a reservation back, which fails where a counter would underflow. -/
def release (usage : Usage) (bytes : ℕ) : Option Usage :=
  if 1 ≤ usage.jobs ∧ bytes ≤ usage.bytes then some ⟨usage.jobs - 1, usage.bytes - bytes⟩ else none

end Usage

/-- A granted reservation. Its constructor asserts that the payload fits its remote. -/
structure TransferLease where
  remote : RemoteId
  bytes : ℕ
  fits : bytes ≤ REMOTE_BYTES
deriving DecidableEq

structure Admission where
  limits : RemoteConcurrency
  total : Usage
  remotes : SortedMap RemoteId Usage
  waiting : List (RemoteId × ℕ)

namespace Admission

def new (limits : RemoteConcurrency) : Admission := ⟨limits, .zero, .empty, []⟩

/-- The drop of a lease. It fails where a counter underflows or the remote has no counters. -/
def drop (admission : Admission) (lease : TransferLease) : Option Admission := do
  let total ← admission.total.release lease.bytes
  let remote ← admission.remotes.get? lease.remote
  let remote ← remote.release lease.bytes
  pure { admission with
    total
    remotes := if remote.jobs = 0 then admission.remotes.erase lease.remote else admission.remotes.insert lease.remote remote }

/-- Take a remote out of the queue, and tell whether waiting coordinators are woken. -/
def forgetWaiter (admission : Admission) (remote : RemoteId) : Admission × Bool :=
  let waiting := admission.waiting.filter fun waiter => waiter.1 ≠ remote
  ({ admission with waiting }, waiting.length ≠ admission.waiting.length)

/-- Queue a remote with its cost, or change the cost that it is queued with. -/
def register (remote : RemoteId) (bytes : ℕ) : List (RemoteId × ℕ) → List (RemoteId × ℕ)
  | [] => [(remote, bytes)]
  | waiter :: rest => if waiter.1 = remote then (waiter.1, bytes) :: rest else waiter :: register remote bytes rest

/-- The remote of a waiter has a free slot, and room for what the waiter asks. -/
def hasLocalRoom (admission : Admission) (waiter : RemoteId × ℕ) : Bool :=
  match admission.remotes.get? waiter.1 with
  | none => true
  | some usage => usage.jobs < admission.limits.perRemote && usage.bytes + waiter.2 ≤ REMOTE_BYTES

def tryAcquire (admission : Admission) (remote : RemoteId) (bytes : ℕ) (fits : bytes ≤ REMOTE_BYTES) :
    Option TransferLease × Admission :=
  let waiting := register remote bytes admission.waiting
  -- a remote without room keeps its place, and the first one with room is the only one that may go
  let eligible := waiting.find? admission.hasLocalRoom
  if eligible ≠ some (remote, bytes) ∨ admission.limits.global ≤ admission.total.jobs ∨ GLOBAL_BYTES < admission.total.bytes + bytes then
    (none, { admission with waiting })
  else
    (some ⟨remote, bytes, fits⟩, { admission with
      waiting := waiting.filter fun waiter => waiter.1 ≠ remote
      total := admission.total.reserve bytes
      remotes := admission.remotes.insert remote (((admission.remotes.get? remote).getD .zero).reserve bytes) })

end Admission

/-! ## Coordinators -/

/-- The admission that all coordinators share, and their live leases. -/
structure Transfers where
  admission : Admission
  leases : List TransferLease

/-- What coordinators can reach. Each call holds the lock of the admission, and a lease is dropped once. -/
inductive Transfers.Reached (limits : RemoteConcurrency) : Transfers → Prop
  | new : Reached limits ⟨.new limits, []⟩
  | tryAcquire {admission leases} (remote : RemoteId) (bytes : ℕ) (fits : bytes ≤ REMOTE_BYTES)
    (reached : Reached limits ⟨admission, leases⟩) :
    Reached limits ⟨(admission.tryAcquire remote bytes fits).2, (admission.tryAcquire remote bytes fits).1.toList ++ leases⟩
  | forgetWaiter {admission leases} (remote : RemoteId) (reached : Reached limits ⟨admission, leases⟩) :
    Reached limits ⟨(admission.forgetWaiter remote).1, leases⟩
  | drop {admission next leases lease} (live : lease ∈ leases) (dropped : admission.drop lease = some next)
    (reached : Reached limits ⟨admission, leases⟩) : Reached limits ⟨next, leases.erase lease⟩

end Gat
