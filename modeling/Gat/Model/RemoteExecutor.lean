import Gat.Model.Admission
import Mathlib.Data.List.FinRange

/-! # Transfer windows

A window runs its jobs through the shared admission. One coordinator scans the queues of the remotes, starts what it is
granted and waits for a job to complete, while other coordinators use the same admission. Its jobs are fixed, so an index
of a job is in range by its type.
-/

namespace Gat

/-! ## Other coordinators -/

/-- The shared admission, with the live leases that other coordinators hold. -/
structure SharedAdmission where
  admission : Admission
  others : List TransferLease

/-- What other coordinators do. They drop no lease but their own. -/
inductive SharedAdmission.Moves : SharedAdmission → SharedAdmission → Prop
  | tryAcquire (shared : SharedAdmission) (remote : RemoteId) (bytes : ℕ) (fits : bytes ≤ REMOTE_BYTES) :
    Moves shared ⟨(shared.admission.tryAcquire remote bytes fits).2, (shared.admission.tryAcquire remote bytes fits).1.toList ++ shared.others⟩
  | forgetWaiter (shared : SharedAdmission) (remote : RemoteId) :
    Moves shared ⟨(shared.admission.forgetWaiter remote).1, shared.others⟩
  | drop {shared : SharedAdmission} {lease : TransferLease} {next : Admission} (live : lease ∈ shared.others)
    (dropped : shared.admission.drop lease = some next) : Moves shared ⟨next, shared.others.erase lease⟩

/-! ## The queues of a window -/

/-- A job with the remote of its handle and the payload that it reserves. -/
structure RemoteJob where
  remote : RemoteId
  bytes : ℕ
  fits : bytes ≤ REMOTE_BYTES

/-- Append an index to the queue of its remote. -/
def pushIndex {ι : Type} (remote : RemoteId) (index : ι) : List (RemoteId × List ι) → List (RemoteId × List ι)
  | [] => [(remote, [index])]
  | queue :: rest => if queue.1 = remote then (queue.1, queue.2 ++ [index]) :: rest else queue :: pushIndex remote index rest

/-- The indices of the jobs of each remote, in the order in which the remotes first occur. -/
def remoteQueues (jobs : List RemoteJob) : List (RemoteId × List (Fin jobs.length)) :=
  (List.finRange jobs.length).foldl (fun queues index => pushIndex (jobs.get index).remote index queues) []

/-! ## The coordinator -/

/-- Where the coordinator is: at the top of its loop, at a queue of a scan, waiting, or done. -/
inductive WindowPhase where
  | top
  | scan (position : ℕ) (admitted : Bool)
  | select
  | returned
deriving DecidableEq

/-- The variables of the coordinator, with the order in which it has started jobs. -/
structure TransferWindow (jobs : List RemoteJob) (ρ : Type) where
  shared : SharedAdmission
  isCancelled : Bool
  phase : WindowPhase
  queues : List (RemoteId × List (Fin jobs.length))
  active : List (Fin jobs.length × TransferLease)
  results : Fin jobs.length → Option ρ
  frontier : ℕ
  started : List (Fin jobs.length)

namespace TransferWindow

variable {jobs : List RemoteJob} {ρ : Type}

def init (jobs : List RemoteJob) (ρ : Type) (shared : SharedAdmission) (isCancelled : Bool) : TransferWindow jobs ρ where
  shared
  isCancelled
  phase := .top
  queues := remoteQueues jobs
  active := []
  results _ := none
  frontier := jobs.length
  started := []

def forgetWaiter (window : TransferWindow jobs ρ) (remote : RemoteId) : TransferWindow jobs ρ :=
  { window with shared := { window.shared with admission := (window.shared.admission.forgetWaiter remote).1 } }

/-- The jobs that are queued get the cancelled result. -/
def drain (window : TransferWindow jobs ρ) (cancelled : ρ) : TransferWindow jobs ρ :=
  let forgotten := window.queues.foldl (fun window queue => window.forgetWaiter queue.1) window
  { forgotten with
    queues := window.queues.map fun queue => (queue.1, [])
    results := fun index => if index ∈ window.queues.flatMap Prod.snd then some cancelled else window.results index }

/-- The top of the loop. A window without a cancelled result does not notice the cancellation. -/
def enter (window : TransferWindow jobs ρ) (cancelled : Option ρ) : TransferWindow jobs ρ :=
  let drained :=
    match cancelled with
    | some result => if window.isCancelled then window.drain result else window
    | none => window
  { drained with phase := .scan 0 false }

/-- One queue of a scan. A scan that has started a job is followed by another one. -/
def visit (window : TransferWindow jobs ρ) (position : ℕ) (admitted : Bool) : TransferWindow jobs ρ :=
  match window.queues[position]? with
  | none => { window with
      queues := window.queues.filter fun queue => queue.2 ≠ []
      phase := if admitted then .scan 0 false else .select }
  | some (_, []) => { window with phase := .scan (position + 1) admitted }
  | some (remote, index :: rest) =>
    if window.frontier ≤ index then
      { window.forgetWaiter remote with
        queues := window.queues.set position (remote, [])
        phase := .scan (position + 1) admitted }
    else
      match window.shared.admission.tryAcquire remote (jobs.get index).bytes (jobs.get index).fits with
      | (none, admission) => { window with
          shared := { window.shared with admission }
          phase := .scan (position + 1) admitted }
      | (some lease, admission) => { window with
          shared := { window.shared with admission }
          queues := window.queues.set position (remote, rest)
          active := (index, lease) :: window.active
          phase := .scan (position + 1) true
          started := window.started ++ [index] }

/-- A job has completed and has dropped its lease. -/
def complete (window : TransferWindow jobs ρ) (failed : ρ → Bool) (index : Fin jobs.length) (lease : TransferLease) (admission : Admission)
    (result : ρ) : TransferWindow jobs ρ :=
  { window with
    shared := { window.shared with admission }
    phase := .top
    active := window.active.erase (index, lease)
    results := Function.update window.results index (some result)
    frontier := if failed result then min window.frontier index else window.frontier }

/-- One step of a window, of its cancellation or of another coordinator. `work` is what the jobs result in. -/
inductive Step (failed : ρ → Bool) (cancelled : Option ρ) (work : Fin jobs.length → ρ) : TransferWindow jobs ρ → TransferWindow jobs ρ → Prop
  | others {window : TransferWindow jobs ρ} {shared : SharedAdmission} (moves : window.shared.Moves shared) :
    Step failed cancelled work window { window with shared }
  | cancel (window : TransferWindow jobs ρ) : Step failed cancelled work window { window with isCancelled := true }
  | enter {window : TransferWindow jobs ρ} (top : window.phase = .top) : Step failed cancelled work window (window.enter cancelled)
  | visit {window : TransferWindow jobs ρ} {position : ℕ} {admitted : Bool} (scanning : window.phase = .scan position admitted) :
    Step failed cancelled work window (window.visit position admitted)
  | complete {window : TransferWindow jobs ρ} {index : Fin jobs.length} {lease : TransferLease} {admission : Admission}
    (waiting : window.phase = .select) (running : (index, lease) ∈ window.active)
    (dropped : window.shared.admission.drop lease = some admission) :
    Step failed cancelled work window (window.complete failed index lease admission (work index))
  /-- A refresh of the display, a cancellation or a change of the admission. -/
  | wake {window : TransferWindow jobs ρ} (waiting : window.phase = .select) : Step failed cancelled work window { window with phase := .top }
  | finish {window : TransferWindow jobs ρ} (waiting : window.phase = .select) (idle : window.active = []) (drained : window.queues = []) :
    Step failed cancelled work window { window with phase := .returned }

/-- The states of a window that starts while other coordinators hold some leases. -/
inductive Reached (limits : RemoteConcurrency) (failed : ρ → Bool) (cancelled : Option ρ) (work : Fin jobs.length → ρ) :
    TransferWindow jobs ρ → Prop
  | start {admission : Admission} {others : List TransferLease} (isCancelled : Bool) (reached : Transfers.Reached limits ⟨admission, others⟩) :
    Reached limits failed cancelled work (init jobs ρ ⟨admission, others⟩ isCancelled)
  | step {before after : TransferWindow jobs ρ} (reached : Reached limits failed cancelled work before)
    (step : Step failed cancelled work before after) : Reached limits failed cancelled work after

end TransferWindow

/-! ## What callers make of the results -/

section Callers

variable {ι ε α : Type}

/-- The loop of `download_window` over its jobs: the first error, or the publications. -/
def collectPublications : List (ι × Option (Except ε α)) → Except (ι × ε) (List α)
  | [] => .ok []
  | (_, none) :: rest => collectPublications rest
  | (_, some (.ok publication)) :: rest => (publication :: ·) <$> collectPublications rest
  | (index, some (.error source)) :: _ => .error (index, source)

/-- The slots of a window with the jobs that they belong to. -/
def slots {count : ℕ} (results : Fin count → Option (Except ε α)) : List (Fin count × Option (Except ε α)) :=
  (List.finRange count).map fun index => (index, results index)

def isErr (result : Except ε α) : Bool :=
  match result with
  | .ok _ => false
  | .error _ => true

end Callers

end Gat
