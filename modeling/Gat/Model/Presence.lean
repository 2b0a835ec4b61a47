import Gat.Model.Admission
import Gat.ToMathlib.RoundRobin
import Mathlib.Data.List.FinRange

/-! # Presence checks

A window asks its remotes which objects they have. Requests are admitted in a fair order, grouped into batches whose
workers answer over a channel, and reported as they complete. After the first error nothing more is admitted.
-/

namespace Gat

inductive PresenceProbeError (σ : Type) where
  | cancelled
  | task
  | incomplete
  | file (source : σ)
  | remote (source : σ)
deriving DecidableEq

/-! ## Batches -/

/-- Why a worker has not answered all its checks. -/
inductive WorkerFailure where
  | cancelled
  | task
deriving DecidableEq

inductive WorkerState where
  | queued
  | running
  | finished (failure : Option WorkerFailure)
deriving DecidableEq

/-- A batch with the indices that it has not reported, the checks that its worker has not made and the answers in between.
It keeps all its leases until it has reported the last index. -/
structure FileBatch (ι σ : Type) where
  indices : List ι
  checks : List ι
  channel : List (Except (PresenceProbeError σ) Bool)
  worker : WorkerState
  leases : List ι

/-- The worker of a batch between two of its sends. -/
inductive FileBatch.Works {ι σ : Type} (isCancelled : Bool) (probe : ι → Except σ Bool) : FileBatch ι σ → FileBatch ι σ → Prop
  | start {batch : FileBatch ι σ} (queued : batch.worker = .queued) : Works isCancelled probe batch { batch with worker := .running }
  | discard {batch : FileBatch ι σ} (queued : batch.worker = .queued) (cancelled : isCancelled = true) :
    Works isCancelled probe batch { batch with worker := .finished (some .cancelled), checks := [] }
  | check {batch : FileBatch ι σ} {index : ι} {rest : List ι} (running : batch.worker = .running) (next : batch.checks = index :: rest) :
    Works isCancelled probe batch { batch with checks := rest, channel := batch.channel ++ [(probe index).mapError .file] }
  | skip {batch : FileBatch ι σ} {index : ι} {rest : List ι} (running : batch.worker = .running) (next : batch.checks = index :: rest)
    (cancelled : isCancelled = true) :
    Works isCancelled probe batch { batch with checks := rest, channel := batch.channel ++ [.error .cancelled] }
  | finish {batch : FileBatch ι σ} (running : batch.worker = .running) (done : batch.checks = []) :
    Works isCancelled probe batch { batch with worker := .finished none }
  | crash {batch : FileBatch ι σ} (started : ∀ failure, batch.worker ≠ .finished failure) :
    Works isCancelled probe batch { batch with worker := .finished (some .task), checks := [] }

/-- The outcomes of an admitted group: those of a batch, or the one of a network check. -/
inductive PresenceStream (ι σ : Type) where
  | single (index : ι)
  | file (batch : FileBatch ι σ)

namespace PresenceStream

variable {ι σ : Type}

def remaining : PresenceStream ι σ → List ι
  | single index => [index]
  | file batch => batch.indices

def leases : PresenceStream ι σ → List ι
  | single index => [index]
  | file batch => batch.leases

/-- What a batch reports once its channel is closed. -/
def closedError : Option WorkerFailure → PresenceProbeError σ
  | some .cancelled => .cancelled
  | some .task => .task
  | none => .incomplete

/-- A batch without its first index, or nothing after the last one. -/
def advance (batch : FileBatch ι σ) (rest : List ι) (channel : List (Except (PresenceProbeError σ) Bool)) : Option (PresenceStream ι σ) :=
  if rest.isEmpty then none else some (file { batch with indices := rest, channel })

/-- A stream reports its next index. The last one and a closed channel wait for the worker. -/
inductive Reports (isCancelled : Bool) (probe : ι → Except σ Bool) :
    PresenceStream ι σ → ι → Except (PresenceProbeError σ) Bool → Option (PresenceStream ι σ) → Prop
  | single (index : ι) : Reports isCancelled probe (single index) index ((probe index).mapError .remote) none
  | singleCancelled (index : ι) (cancelled : isCancelled = true) : Reports isCancelled probe (single index) index (.error .cancelled) none
  | message {batch : FileBatch ι σ} {index : ι} {rest : List ι} {message : Except (PresenceProbeError σ) Bool}
    {channel : List (Except (PresenceProbeError σ) Bool)} (next : batch.indices = index :: rest) (sent : batch.channel = message :: channel)
    (drained : rest = [] → ∃ failure, batch.worker = .finished failure) :
    Reports isCancelled probe (file batch) index message (advance batch rest channel)
  | closed {batch : FileBatch ι σ} {index : ι} {rest : List ι} {failure : Option WorkerFailure} (next : batch.indices = index :: rest)
    (empty : batch.channel = []) (finished : batch.worker = .finished failure) :
    Reports isCancelled probe (file batch) index (.error (closedError failure)) (advance batch rest [])

end PresenceStream

/-- Start a group, which is not empty and fits the batch limit of its client. A limit of one is a network client. -/
def presenceStream {ι σ : Type} (batchLimit : ℕ) (entries : List ι) : Option (PresenceStream ι σ) :=
  if entries.length ≤ batchLimit then
    match entries with
    | [] => none
    | index :: _ => if batchLimit = 1 then some (.single index) else some (.file ⟨entries, entries, [], .queued, entries⟩)
  else none

/-! ## The window -/

/-- The requests of a window, with the probe of each request and the limits that it runs under. -/
structure PresenceWindow (σ : Type) where
  count : ℕ
  remoteOf : Fin count → RemoteId
  probe : Fin count → Except σ Bool
  batchLimit : RemoteId → ℕ
  batchLimit_pos : ∀ remote, 0 < batchLimit remote
  capacity : ℕ
  capacity_pos : 0 < capacity
  limits : RemoteConcurrency

/-- Interleave the requests of all remotes. -/
def fairRequestOrder {ι : Type} (byRemote : SortedMap RemoteId (List ι)) : List ι := (byRemote.entries.map Prod.snd).roundRobin

namespace PresenceWindow

variable {σ : Type}

def byRemote (window : PresenceWindow σ) : SortedMap RemoteId (List (Fin window.count)) :=
  (List.finRange window.count).foldl
    (fun byRemote index => byRemote.alter (window.remoteOf index) fun indices => some (indices.getD [] ++ [index])) .empty

end PresenceWindow

/-- A free permit for a remote, as its semaphore and the global one count them. -/
def tryPresence (limits : RemoteConcurrency) (held : List RemoteId) (remote : RemoteId) : Bool :=
  held.count remote < limits.perRemote && held.length < limits.global

/-- What the coordinator does with requests, in order. -/
inductive PresenceEvent (ι σ : Type) where
  | admitted (index : ι)
  | answered (index : ι) (present : Bool)
  | failed (index : ι) (error : PresenceProbeError σ)
  | cancelled (index : ι)
deriving DecidableEq

/-- Where the coordinator is: at the top of its loop, admitting, waiting for a permit, waiting for an outcome, draining ready
outcomes, or done. -/
inductive DrivePhase (ι : Type) where
  | top
  | fill (remaining : ℕ) (groups : SortedMap RemoteId (List ι))
  | acquire (index : ι)
  | wait
  | ready
  | returned

def retainFirstError {ι σ : Type} [LT ι] [DecidableLT ι] (first : Option (ι × PresenceProbeError σ)) (index : ι)
    (error : PresenceProbeError σ) : Option (ι × PresenceProbeError σ) :=
  match first with
  | none => some (index, error)
  | some earliest => if index < earliest.1 then some (index, error) else first

/-- The variables of the coordinator, with what it has done. -/
structure PresenceDrive {σ : Type} (window : PresenceWindow σ) where
  isCancelled : Bool
  others : List RemoteId
  phase : DrivePhase (Fin window.count)
  pending : List (Fin window.count)
  active : List (PresenceStream (Fin window.count) σ)
  activeEntries : ℕ
  firstError : Option (Fin window.count × PresenceProbeError σ)
  log : List (PresenceEvent (Fin window.count) σ)

namespace PresenceDrive

variable {σ : Type} {window : PresenceWindow σ}

def init (window : PresenceWindow σ) (others : List RemoteId) (isCancelled : Bool) : PresenceDrive window where
  isCancelled
  others
  phase := .top
  pending := fairRequestOrder window.byRemote
  active := []
  activeEntries := 0
  firstError := none
  log := []

/-- The admitted requests that are not launched yet. -/
def groupsOf {ι : Type} : DrivePhase ι → List ι
  | .fill _ groups => groups.entries.flatMap Prod.snd
  | _ => []

/-- The remotes of all live leases. -/
def held (drive : PresenceDrive window) : List RemoteId :=
  ((groupsOf drive.phase ++ drive.active.flatMap PresenceStream.leases).map window.remoteOf) ++ drive.others

/-- Leave the loop when nothing is active. -/
def await (drive : PresenceDrive window) : PresenceDrive window :=
  { drive with phase := if drive.activeEntries = 0 then .returned else .wait }

/-- The top of the loop. A cancellation is charged to the first pending request. -/
def enter (drive : PresenceDrive window) : PresenceDrive window :=
  if drive.pending = [] ∧ drive.activeEntries = 0 then { drive with phase := .returned }
  else
    let drive :=
      match drive.isCancelled, drive.pending.min? with
      | true, some index => { drive with
          pending := []
          firstError := retainFirstError drive.firstError index .cancelled
          log := drive.log ++ [PresenceEvent.cancelled index] }
      | _, _ => drive
    if drive.firstError.isNone then { drive with phase := .fill drive.pending.length .empty }
    else await { drive with pending := [] }

/-- Launch what is grouped, and wait for a permit when nothing is active. -/
def launch (drive : PresenceDrive window) (groups : SortedMap RemoteId (List (Fin window.count))) : Option (PresenceDrive window) := do
  let streams ← groups.entries.mapM fun group => presenceStream (window.batchLimit group.1) group.2
  let drive := { drive with active := drive.active ++ streams }
  match drive.pending with
  | index :: rest => if drive.activeEntries = 0 then pure { drive with pending := rest, phase := .acquire index } else pure drive.await
  | [] => pure drive.await

/-- One request of the admission loop. A refused request goes to the end. It fails where the assertion of a stream does. -/
def admitNext (drive : PresenceDrive window) (remaining : ℕ) (groups : SortedMap RemoteId (List (Fin window.count))) :
    Option (PresenceDrive window) :=
  match remaining, drive.pending with
  | remaining + 1, index :: rest =>
    if drive.activeEntries = window.capacity then drive.launch groups
    else
      let remote := window.remoteOf index
      if tryPresence window.limits drive.held remote then do
        let entries := (groups.get? remote).getD [] ++ [index]
        let admitted := { drive with
          pending := rest
          activeEntries := drive.activeEntries + 1
          log := drive.log ++ [PresenceEvent.admitted index] }
        if entries.length = window.batchLimit remote then
          let stream ← presenceStream (window.batchLimit remote) entries
          pure { admitted with active := drive.active ++ [stream], phase := .fill remaining (groups.erase remote) }
        else pure { admitted with phase := .fill remaining (groups.insert remote entries) }
      else pure { drive with pending := rest ++ [index], phase := .fill remaining groups }
  | _, _ => drive.launch groups

/-- The permit that the coordinator has waited for. -/
def acquired (drive : PresenceDrive window) (index : Fin window.count) : Option (PresenceDrive window) := do
  let stream ← presenceStream (window.batchLimit (window.remoteOf index)) [index]
  pure { drive with active := drive.active ++ [stream], activeEntries := 1, log := drive.log ++ [PresenceEvent.admitted index], phase := .wait }

/-- A cancellation while the coordinator waits for a permit ends the loop. -/
def refused (drive : PresenceDrive window) (index : Fin window.count) : PresenceDrive window :=
  await { drive with firstError := retainFirstError drive.firstError index .cancelled, log := drive.log ++ [PresenceEvent.cancelled index] }

/-- Report an outcome. -/
def handle (drive : PresenceDrive window) (index : Fin window.count) (result : Except (PresenceProbeError σ) Bool)
    (active : List (PresenceStream (Fin window.count) σ)) : PresenceDrive window :=
  let drive := { drive with active, activeEntries := drive.activeEntries - 1, phase := .ready }
  match result with
  | .ok present => { drive with log := drive.log ++ [PresenceEvent.answered index present] }
  | .error error => { drive with
      firstError := retainFirstError drive.firstError index error
      log := drive.log ++ [PresenceEvent.failed index error] }

/-- One step of the coordinator, of a worker, of the cancellation or of another window that uses the permits. -/
inductive Step : PresenceDrive window → PresenceDrive window → Prop
  | take {drive : PresenceDrive window} {remote : RemoteId} (free : tryPresence window.limits drive.held remote) :
    Step drive { drive with others := remote :: drive.others }
  | give {drive : PresenceDrive window} (remote : RemoteId) : Step drive { drive with others := drive.others.erase remote }
  | cancel (drive : PresenceDrive window) : Step drive { drive with isCancelled := true }
  | work {drive : PresenceDrive window} {before after : List (PresenceStream (Fin window.count) σ)} {batch next : FileBatch (Fin window.count) σ}
    (running : drive.active = before ++ .file batch :: after) (works : batch.Works drive.isCancelled window.probe next) :
    Step drive { drive with active := before ++ .file next :: after }
  | enter {drive : PresenceDrive window} (top : drive.phase = .top) : Step drive drive.enter
  | fill {drive next : PresenceDrive window} {remaining : ℕ} {groups : SortedMap RemoteId (List (Fin window.count))}
    (admitting : drive.phase = .fill remaining groups) (admitted : drive.admitNext remaining groups = some next) : Step drive next
  | acquire {drive next : PresenceDrive window} {index : Fin window.count} (waiting : drive.phase = .acquire index)
    (free : tryPresence window.limits drive.held (window.remoteOf index)) (acquired : drive.acquired index = some next) : Step drive next
  | refuse {drive : PresenceDrive window} {index : Fin window.count} (waiting : drive.phase = .acquire index)
    (cancelled : drive.isCancelled = true) : Step drive (drive.refused index)
  | report {drive : PresenceDrive window} {before after : List (PresenceStream (Fin window.count) σ)}
    {stream : PresenceStream (Fin window.count) σ} {index : Fin window.count} {result : Except (PresenceProbeError σ) Bool}
    {rest : Option (PresenceStream (Fin window.count) σ)} (waiting : drive.phase = .wait ∨ drive.phase = .ready)
    (running : drive.active = before ++ stream :: after) (reports : stream.Reports drive.isCancelled window.probe index result rest) :
    Step drive (drive.handle index result (before ++ rest.toList ++ after))
  | refill {drive : PresenceDrive window} (ready : drive.phase = .ready) : Step drive { drive with phase := .top }

/-- The states of a check that starts while other windows hold some permits. -/
inductive Reached (window : PresenceWindow σ) : PresenceDrive window → Prop
  | start (others : List RemoteId) (isCancelled : Bool) : Reached window (init window others isCancelled)
  | step {before after : PresenceDrive window} (reached : Reached window before) (step : Step before after) : Reached window after

end PresenceDrive

end Gat
