import Gat.Model.Presence

/-! # The publication pipeline

Presence checks, cache verifications and uploads of a window run at once and complete in any order. An object that a remote
misses waits for the verification of its content, which obligations with the same content share, and is then uploaded.
After an error only earlier obligations go on.
-/

namespace Gat

/-- The key order of the map of verifications, byte by byte. -/
instance : LinearOrder Oid := LinearOrder.lift' Oid.bytes fun _ _ same => Oid.ext same

def VERIFICATION_BATCH_SIZE : ℕ := 128

inductive PublishStatus where
  | alreadyPresent
  | uploaded
  | cacheMissing
  | cacheCorrupt
deriving DecidableEq

inductive CacheRejection where
  | missing
  | corrupt
deriving DecidableEq

def CacheRejection.status : CacheRejection → PublishStatus
  | missing => .cacheMissing
  | corrupt => .cacheCorrupt

/-- The verified state of a cached object. -/
inductive VerifiedCacheEntry where
  | valid
  | rejected (rejection : CacheRejection)
deriving DecidableEq

inductive PublishError (ε : Type) where
  | presence (source : ε)
  | upload (source : ε)
  | verification (source : ε)
deriving DecidableEq

/-- The obligations that wait for a verification, at least one. -/
structure WaitingObligations (ι : Type) where
  first : ι
  additional : List ι

namespace WaitingObligations

variable {ι : Type}

def push (waiting : WaitingObligations ι) (index : ι) : WaitingObligations ι := { waiting with additional := waiting.additional ++ [index] }

def toList (waiting : WaitingObligations ι) : List ι := waiting.first :: waiting.additional

def minimum [Min ι] (waiting : WaitingObligations ι) : ι := waiting.additional.foldl min waiting.first

end WaitingObligations

inductive VerificationState (ι : Type) where
  | running (waiting : WaitingObligations ι)
  | valid
  | invalid (rejection : CacheRejection)

inductive VerificationAction where
  | wait
  | upload
  | reject (rejection : CacheRejection)
deriving DecidableEq

inductive QueueKind where
  | presence
  | upload
deriving DecidableEq

/-- The obligations of a window, with the result of every probe, verification and upload. -/
structure PublishWindow (ε : Type) where
  count : ℕ
  remoteOf : Fin count → RemoteId
  oidOf : Fin count → Oid
  probe : Fin count → Except ε Bool
  verify : Oid → Except ε VerifiedCacheEntry
  upload : Fin count → Except ε Unit
  cost : Fin count → ℕ
  cost_fits : ∀ index, cost index ≤ REMOTE_BYTES
  batchLimit : RemoteId → ℕ
  batchLimit_pos : ∀ remote, 0 < batchLimit remote
  presence : RemoteConcurrency
  transfer : RemoteConcurrency

structure PipelineState {ε : Type} (window : PublishWindow ε) where
  pendingPresence : SortedMap RemoteId (List (Fin window.count))
  readyUploads : SortedMap RemoteId (List (Fin window.count))
  remoteOrder : List RemoteId
  nextRemote : ℕ
  lastAdmittedByRemote : SortedMap RemoteId QueueKind
  verification : SortedMap Oid (VerificationState (Fin window.count))
  pendingVerification : List Oid
  verificationActive : Bool
  statuses : Fin window.count → Option PublishStatus
  error : Option (Fin window.count × PublishError ε)

namespace PipelineState

variable {ε : Type} {window : PublishWindow ε}

/-- Queue an obligation for its remote, and list a remote when its queue begins. -/
def enqueuePresence (window : PublishWindow ε) (queued : SortedMap RemoteId (List (Fin window.count)) × List RemoteId)
    (index : Fin window.count) : SortedMap RemoteId (List (Fin window.count)) × List RemoteId :=
  let remote := window.remoteOf index
  let queue := (queued.1.get? remote).getD []
  (queued.1.insert remote (queue ++ [index]), if queue.isEmpty then queued.2 ++ [remote] else queued.2)

def new (window : PublishWindow ε) : PipelineState window :=
  let queued := (List.finRange window.count).foldl (enqueuePresence window) (.empty, [])
  { pendingPresence := queued.1
    readyUploads := .empty
    remoteOrder := queued.2
    nextRemote := 0
    lastAdmittedByRemote := .empty
    verification := .empty
    pendingVerification := []
    verificationActive := false
    statuses _ := none
    error := none }

def registerVerification (state : PipelineState window) (oid : Oid) (index : Fin window.count) : VerificationAction × PipelineState window :=
  match state.verification.get? oid with
  | none => (.wait, { state with
      verification := state.verification.insert oid (.running ⟨index, []⟩)
      pendingVerification := state.pendingVerification ++ [oid] })
  | some (.running waiting) => (.wait, { state with verification := state.verification.insert oid (.running (waiting.push index)) })
  | some .valid => (.upload, state)
  | some (.invalid rejection) => (.reject rejection, state)

/-- Keep the error of the least obligation. A new one prunes the queues at and beyond it. -/
def recordError (state : PipelineState window) (index : Fin window.count) (error : PublishError ε) : PipelineState window :=
  if state.error.all fun current => index < current.1 then { state with
    error := some (index, error)
    pendingPresence := state.pendingPresence.mapValues fun _ queue => queue.filter (· < index)
    readyUploads := state.readyUploads.mapValues fun _ queue => queue.filter (· < index) }
  else state

/-- A running verification that an obligation before the given one waits for. -/
def awaitedBefore (state : PipelineState window) (frontier : Fin window.count) (oid : Oid) : Bool :=
  match state.verification.get? oid with
  | some (.running waiting) => waiting.toList.any (· < frontier)
  | _ => false

def takeVerificationBatch (state : PipelineState window) : List Oid × PipelineState window :=
  let pending :=
    match state.error with
    | some (frontier, _) => state.pendingVerification.filter (state.awaitedBefore frontier)
    | none => state.pendingVerification
  (pending.take VERIFICATION_BATCH_SIZE, { state with pendingVerification := pending.drop VERIFICATION_BATCH_SIZE })

/-- The first obligation that waits for one of the verifications. It fails where nothing does. -/
def verificationErrorIndex (state : PipelineState window) (oids : List Oid) : Option (Fin window.count) :=
  (oids.filterMap fun oid => match state.verification.get? oid with
    | some (.running waiting) => some waiting.minimum
    | _ => none).min?

def retryEarlierVerification (state : PipelineState window) (oids : List Oid) (errorIndex : Fin window.count) : PipelineState window :=
  { state with pendingVerification := state.pendingVerification ++ oids.filter (state.awaitedBefore errorIndex) }

def enqueueUpload (state : PipelineState window) (index : Fin window.count) : PipelineState window :=
  if state.error.any fun frontier => frontier.1 ≤ index then state
  else
    let remote := window.remoteOf index
    { state with readyUploads := state.readyUploads.insert remote ((state.readyUploads.get? remote).getD [] ++ [index]) }

/-- Set a terminal status. It fails where the obligation has one. -/
def completeObligation (state : PipelineState window) (index : Fin window.count) (status : PublishStatus) : Option (PipelineState window) :=
  if state.statuses index = none then some { state with statuses := Function.update state.statuses index (some status) } else none

/-! ## Completions -/

def presenceCompleted (state : PipelineState window) (index : Fin window.count) (result : Except ε Bool) : Option (PipelineState window) :=
  match result with
  | .ok true => state.completeObligation index .alreadyPresent
  | .ok false =>
    match state.registerVerification (window.oidOf index) index with
    | (.wait, state) => some state
    | (.upload, state) => some (state.enqueueUpload index)
    | (.reject rejection, state) => state.completeObligation index rejection.status
  | .error source => some (state.recordError index (.presence source))

def uploadCompleted (state : PipelineState window) (index : Fin window.count) (result : Except ε Unit) : Option (PipelineState window) :=
  match result with
  | .ok _ => state.completeObligation index .uploaded
  | .error source => some (state.recordError index (.upload source))

/-- One object of a committed batch. It fails where nothing waits for the object. -/
def commitEntry (state : PipelineState window) (verified : Oid × VerifiedCacheEntry) : Option (PipelineState window) :=
  match state.verification.get? verified.1 with
  | some (.running waiting) =>
    let state := { state with verification := state.verification.erase verified.1 }
    match verified.2 with
    | .valid =>
      let state := waiting.toList.foldl enqueueUpload state
      some { state with verification := state.verification.insert verified.1 .valid }
    | .rejected rejection => do
      let state ← waiting.toList.foldlM (fun state index => state.completeObligation index rejection.status) state
      some { state with verification := state.verification.insert verified.1 (.invalid rejection) }
  | _ => none

/-- A batch has been verified, or has failed at one of its objects. -/
def verificationCompleted (state : PipelineState window) (oids : List Oid) (result : Except (Option Oid × ε) (List VerifiedCacheEntry)) :
    Option (PipelineState window) := do
  let state := { state with verificationActive := false }
  let errorIndex ← state.verificationErrorIndex oids
  match result with
  | .ok verified => if verified.length = oids.length then (oids.zip verified).foldlM commitEntry state else none
  | .error (failed, source) =>
    let errorIndex ← match failed with
      | some oid => state.verificationErrorIndex [oid]
      | none => some errorIndex
    let state := state.recordError errorIndex (.verification source)
    some (state.retryEarlierVerification oids errorIndex)

end PipelineState

def selectQueueKind (canAdmitPresence canAdmitUpload : Bool) (lastAdmitted : Option QueueKind) : Option QueueKind :=
  match canAdmitPresence, canAdmitUpload with
  | false, false => none
  | true, false => some .presence
  | false, true => some .upload
  | true, true =>
    match lastAdmitted with
    | some .presence => some .upload
    | _ => some .presence

/-! ## The coordinator -/

/-- Work in flight: a presence batch with the outcomes that it still owes, an upload with its lease, or a verification. -/
inductive PublishWork (ι : Type) where
  | presence (remaining leases : List ι)
  | upload (index : ι) (lease : TransferLease)
  | verification (oids : List Oid)

/-- Where the coordinator is: at a remote of a scan, waiting, between completions, or done. -/
inductive PublishPhase (ι : Type) where
  | scan (offset : ℕ) (groups : SortedMap RemoteId (List ι))
  | wait
  | drain
  | returned

/-- What has been started and verified, in order. -/
inductive PublishEvent (ι : Type) where
  | verifying (oid : Oid)
  | verified (oid : Oid)
  | uploading (index : ι)
deriving DecidableEq

structure PublishRun {ε : Type} (window : PublishWindow ε) where
  state : PipelineState window
  admission : Admission
  inFlight : List (PublishWork (Fin window.count))
  phase : PublishPhase (Fin window.count)
  log : List (PublishEvent (Fin window.count))

namespace PublishRun

variable {ε : Type} {window : PublishWindow ε}

def init (window : PublishWindow ε) : PublishRun window := ⟨.new window, .new window.transfer, [], .scan 0 .empty, []⟩

/-- The queue of a remote, empty when it has none. -/
def queueOf (queues : SortedMap RemoteId (List (Fin window.count))) (remote : RemoteId) : List (Fin window.count) := (queues.get? remote).getD []

/-- The remotes of all live presence leases. -/
def heldPresence (run : PublishRun window) (groups : SortedMap RemoteId (List (Fin window.count))) : List RemoteId :=
  (groups.entries.flatMap Prod.snd ++ run.inFlight.flatMap fun work => match work with
    | .presence _ leases => leases
    | _ => []).map window.remoteOf

/-- Admit the head of a presence queue, if there is a free permit, and launch its batch when it is full. -/
def admitPresence (run : PublishRun window) (groups : SortedMap RemoteId (List (Fin window.count))) (remote : RemoteId) :
    Option (PublishRun window × SortedMap RemoteId (List (Fin window.count))) :=
  match queueOf run.state.pendingPresence remote with
  | [] => none
  | index :: rest =>
    if tryPresence window.presence (run.heldPresence groups) remote then
      let run := { run with state := { run.state with pendingPresence := run.state.pendingPresence.insert remote rest } }
      let entries := queueOf groups remote ++ [index]
      if entries.length = window.batchLimit remote then
        some ({ run with inFlight := run.inFlight ++ [.presence entries entries] }, groups.erase remote)
      else some (run, groups.insert remote entries)
    else none

/-- Try to admit the head of an upload queue, and tell whether it was. -/
def admitUpload (run : PublishRun window) (remote : RemoteId) : Bool × PublishRun window :=
  match queueOf run.state.readyUploads remote with
  | [] => (false, run)
  | index :: rest =>
    match run.admission.tryAcquire remote (window.cost index) (window.cost_fits index) with
    | (none, admission) => (false, { run with admission })
    | (some lease, admission) => (true, { run with
        admission
        state := { run.state with readyUploads := run.state.readyUploads.insert remote rest }
        inFlight := run.inFlight ++ [.upload index lease]
        log := run.log ++ [.uploading index] })

/-- Admitted work starts the next scan behind its remote. -/
def admitted (run : PublishRun window) (groups : SortedMap RemoteId (List (Fin window.count))) (remote : RemoteId) (position : ℕ)
    (kind : QueueKind) : PublishRun window :=
  { run with
    state := { run.state with
      nextRemote := (position + 1) % run.state.remoteOrder.length
      lastAdmittedByRemote := run.state.lastAdmittedByRemote.insert remote kind }
    phase := .scan 0 groups }

/-- The remote that a scan is at. -/
def scanned (run : PublishRun window) (offset : ℕ) : Option RemoteId :=
  run.state.remoteOrder[(run.state.nextRemote + offset) % run.state.remoteOrder.length]?

/-- One remote of a scan: admit work of its preferred kind, else of the other, else go on. -/
def visit (run : PublishRun window) (offset : ℕ) (groups : SortedMap RemoteId (List (Fin window.count))) (remote : RemoteId) :
    PublishRun window :=
  let position := (run.state.nextRemote + offset) % run.state.remoteOrder.length
  let presence := queueOf run.state.pendingPresence remote ≠ []
  let upload := queueOf run.state.readyUploads remote ≠ []
  let run := if upload then run else { run with admission := (run.admission.forgetWaiter remote).1 }
  let skip (run : PublishRun window) : PublishRun window := { run with phase := .scan (offset + 1) groups }
  match selectQueueKind presence upload (run.state.lastAdmittedByRemote.get? remote) with
  | none => skip run
  | some .presence =>
    match run.admitPresence groups remote with
    | some (next, groups) => next.admitted groups remote position .presence
    | none =>
      match run.admitUpload remote with
      | (true, next) => next.admitted groups remote position .upload
      | (false, next) => skip next
  | some .upload =>
    match run.admitUpload remote with
    | (true, next) => next.admitted groups remote position .upload
    | (false, next) =>
      match next.admitPresence groups remote with
      | some (next, groups) => next.admitted groups remote position .presence
      | none => skip next

/-- The end of a scan without work: launch the partial batches. -/
def launch (run : PublishRun window) (groups : SortedMap RemoteId (List (Fin window.count))) : PublishRun window :=
  { run with
    inFlight := run.inFlight ++ groups.entries.map fun group => .presence group.2 group.2
    phase := .wait }

/-- What the coordinator does after the completions: start a verification when none is active, and scan again. -/
def turn (run : PublishRun window) : PublishRun window :=
  if run.state.verificationActive then { run with phase := .scan 0 .empty }
  else
    let taken := run.state.takeVerificationBatch
    if taken.1.isEmpty then { run with state := taken.2, phase := .scan 0 .empty }
    else { run with
      state := { taken.2 with verificationActive := true }
      inFlight := run.inFlight ++ [.verification taken.1]
      phase := .scan 0 .empty
      log := run.log ++ taken.1.map .verifying }

/-- A presence batch without its first outcome, or nothing after the last one. -/
def advance {ι : Type} (rest leases : List ι) : List (PublishWork ι) := if rest.isEmpty then [] else [.presence rest leases]

/-- What a step is about. -/
inductive Event (ι : Type) where
  | visit (remote : RemoteId)
  | launch
  | turn
  | presence (index : ι)
  | upload (index : ι)
  | verification
  | finish

/-- One step of the coordinator. Work in flight completes in any order, and a failed batch fails at any of its failing objects. -/
inductive Step : PublishRun window → Event (Fin window.count) → PublishRun window → Prop
  | visit {run : PublishRun window} {offset : ℕ} {groups : SortedMap RemoteId (List (Fin window.count))} {remote : RemoteId}
    (scanning : run.phase = .scan offset groups) (more : offset < run.state.remoteOrder.length) (here : run.scanned offset = some remote) :
    Step run (.visit remote) (run.visit offset groups remote)
  | launch {run : PublishRun window} {offset : ℕ} {groups : SortedMap RemoteId (List (Fin window.count))} (scanning : run.phase = .scan offset groups)
    (all : run.state.remoteOrder.length ≤ offset) : Step run .launch (run.launch groups)
  | turn {run : PublishRun window} (draining : run.phase = .drain) : Step run .turn run.turn
  | presence {run : PublishRun window} {before after : List (PublishWork (Fin window.count))} {index : Fin window.count}
    {rest leases : List (Fin window.count)} {state : PipelineState window} (waiting : run.phase = .wait ∨ run.phase = .drain)
    (running : run.inFlight = before ++ .presence (index :: rest) leases :: after)
    (completed : run.state.presenceCompleted index (window.probe index) = some state) :
    Step run (.presence index) { run with state, inFlight := before ++ advance rest leases ++ after, phase := .drain }
  | upload {run : PublishRun window} {before after : List (PublishWork (Fin window.count))} {index : Fin window.count} {lease : TransferLease}
    {admission : Admission} {state : PipelineState window} (waiting : run.phase = .wait ∨ run.phase = .drain)
    (running : run.inFlight = before ++ .upload index lease :: after) (dropped : run.admission.drop lease = some admission)
    (completed : run.state.uploadCompleted index (window.upload index) = some state) :
    Step run (.upload index) { run with state, admission, inFlight := before ++ after, phase := .drain }
  | verified {run : PublishRun window} {before after : List (PublishWork (Fin window.count))} {oids : List Oid}
    {entries : List VerifiedCacheEntry} {state : PipelineState window} (waiting : run.phase = .wait ∨ run.phase = .drain)
    (running : run.inFlight = before ++ .verification oids :: after)
    (verified : List.Forall₂ (fun oid entry => window.verify oid = .ok entry) oids entries)
    (completed : run.state.verificationCompleted oids (.ok entries) = some state) :
    Step run .verification { run with state, inFlight := before ++ after, phase := .drain, log := run.log ++ oids.map .verified }
  | failed {run : PublishRun window} {before after : List (PublishWork (Fin window.count))} {oids : List Oid} {oid : Oid} {source : ε}
    {state : PipelineState window} (waiting : run.phase = .wait ∨ run.phase = .drain)
    (running : run.inFlight = before ++ .verification oids :: after) (member : oid ∈ oids) (failed : window.verify oid = .error source)
    (completed : run.state.verificationCompleted oids (.error (some oid, source)) = some state) :
    Step run .verification { run with state, inFlight := before ++ after, phase := .drain }
  | finish {run : PublishRun window} (waiting : run.phase = .wait) (idle : run.inFlight = []) : Step run .finish { run with phase := .returned }

/-- The states of a run whose steps are all allowed. -/
inductive Reached (window : PublishWindow ε) (allowed : PublishRun window → Event (Fin window.count) → Prop) : PublishRun window → Prop
  | init : Reached window allowed (init window)
  | step {before after : PublishRun window} {event : Event (Fin window.count)} (reached : Reached window allowed before)
    (allows : allowed before event) (step : Step before event after) : Reached window allowed after

/-- The terminal statuses, or the error. It fails where an obligation has no status. -/
def result (run : PublishRun window) : Option (Except (Fin window.count × PublishError ε) (List PublishStatus)) :=
  match run.state.error with
  | some error => some (.error error)
  | none => Except.ok <$> (List.finRange window.count).mapM run.state.statuses

end PublishRun

end Gat
