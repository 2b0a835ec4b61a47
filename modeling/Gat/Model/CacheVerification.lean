import Gat.Model.Sync

/-! # Verification of cached objects

A client remembers what it has verified. Batches are verified outside of it, by tickets that carry the generation they were
prepared in, and a proof index spares the hash of a file that has not changed. Publications forget what they change.
-/

namespace Gat

variable {β : Type}

def TRANSACTION_CHUNK : ℕ := 4096

/-- What stands at the path of an object. A regular file may have no usable modification time. -/
inductive CacheFile (β : Type) where
  | absent
  | special
  | unreadable
  | regular (stat : Option StatProof) (bytes : β)

inductive CacheObservation where
  | missing
  | corrupt
  | valid (size : UInt64)
deriving DecidableEq

def CacheObservation.status : CacheObservation → ObjectVerification
  | missing => .missing
  | corrupt => .corrupt
  | valid _ => .valid

/-- A pending change of the proof index. -/
inductive CachePublication where
  | upsert (oid : Oid) (proof : StatProof)
  | remove (oid : Oid)
deriving DecidableEq

namespace CachePublication

def oid : CachePublication → Oid
  | upsert oid _ => oid
  | remove oid => oid

def proof : CachePublication → Option StatProof
  | upsert _ proof => some proof
  | remove _ => none

end CachePublication

/-- The stat and content step of a verification. It fails where the file cannot be read or has no stat. -/
def verifyObjectPathFs (hash : β → Oid) (file : CacheFile β) (oid : Oid) (prior : Option StatProof) :
    Option (CacheObservation × Option CachePublication) :=
  match file with
  | .absent => some (.missing, none)
  | .unreadable => none
  | .special => some (.corrupt, some (.remove oid))
  | .regular stat bytes =>
    if prior.isSome ∧ stat = prior then stat.map fun current => (.valid current.size, none)
    else stat.map fun proof => if hash bytes = oid then (.valid proof.size, some (.upsert oid proof)) else (.corrupt, some (.remove oid))

/-! ## The proof index -/

abbrev ProofIndex := Oid → Option StatProof

/-- The last publication of each object. -/
def coalesce : List CachePublication → List CachePublication
  | [] => []
  | delta :: deltas => if delta.oid ∈ deltas.map CachePublication.oid then coalesce deltas else delta :: coalesce deltas

def applyPublication (index : ProofIndex) (delta : CachePublication) : ProofIndex := Function.update index delta.oid delta.proof

/-- One transaction, which removes first. -/
def applyGroup (index : ProofIndex) (group : List CachePublication) : ProofIndex :=
  (group.filter fun delta => delta.proof.isSome).foldl applyPublication
    ((group.filter fun delta => delta.proof.isNone).foldl applyPublication index)

/-- The transactions that succeed before one fails. -/
def applyTransactions (index : ProofIndex) : ℕ → List CachePublication → ProofIndex
  | 0, _ => index
  | count + 1, deltas => applyTransactions (applyGroup index (deltas.take TRANSACTION_CHUNK)) count (deltas.drop TRANSACTION_CHUNK)

/-- What applying publications makes of the index. The map of the last ones has any order, and an index that is disabled or fails
applies only some transactions. -/
def ApplyMany (index : ProofIndex) (deltas : List CachePublication) (next : ProofIndex) : Prop :=
  ∃ order count, order.Perm (coalesce deltas) ∧ next = applyTransactions index count order

/-! ## Tickets -/

/-- The token of a generation: its client, and how often that client has forgotten something. -/
structure Generation where
  client : ℕ
  number : ℕ
deriving DecidableEq

/-- An object to verify, with its prior proof and, when it is done, what was observed. -/
structure PendingObject where
  oid : Oid
  prior : Option StatProof
  outcome : Option (CacheObservation × Option CachePublication)

/-- A batch between its preparation and its commit. -/
structure CacheTicket where
  generation : Generation
  oids : List Oid
  known : Oid → Option CacheObservation
  pending : List PendingObject

structure CacheClient where
  generation : Generation
  memo : Oid → Option CacheObservation

namespace CacheClient

/-- Forget what is remembered of objects, and invalidate the outstanding tickets. -/
def forgetMemo (client : CacheClient) (oids : List Oid) : CacheClient where
  generation := if oids.isEmpty then client.generation else { client.generation with number := client.generation.number + 1 }
  memo oid := if oid ∈ oids then none else client.memo oid

/-- Prepare a batch. Priors are looked up in the index unless that fails. -/
def prepareVerification (client : CacheClient) (priors : ProofIndex) (oids : List Oid) : CacheTicket where
  generation := client.generation
  oids := oids
  known oid := if oid ∈ oids then client.memo oid else none
  pending := (oids.filter fun oid => (client.memo oid).isNone).eraseDups.map fun oid => ⟨oid, priors oid, none⟩

end CacheClient

namespace CacheTicket

/-- Everything has been observed. -/
def Completed (ticket : CacheTicket) : Prop := ∀ object ∈ ticket.pending, object.outcome.isSome

/-- The observations of a batch. -/
def results (ticket : CacheTicket) : List (Oid × CacheObservation) :=
  ticket.pending.filterMap fun object => object.outcome.map fun outcome => (object.oid, outcome.1)

/-- The proof changes of a batch. -/
def deltas (ticket : CacheTicket) : List CachePublication :=
  ticket.pending.filterMap fun object => object.outcome.bind Prod.snd

end CacheTicket

def remember (memo : Oid → Option CacheObservation) (result : Oid × CacheObservation) : Oid → Option CacheObservation :=
  Function.update memo result.1 (some result.2)

/-- Remember the observations of a batch, and answer each requested object. -/
def CacheClient.commitVerification (client : CacheClient) (ticket : CacheTicket) : CacheClient × List ObjectVerification :=
  let memo := ticket.results.foldl remember client.memo
  ({ client with memo }, ticket.oids.map fun oid => (((ticket.known oid).or (memo oid)).getD .missing).status)

/-! ## Runs of a client -/

/-- What the coordinator is doing. -/
inductive CachePhase where
  | idle
  | committing (ticket : CacheTicket)
  | verifying (oid : Oid) (prior : Option StatProof)
  | window (oids : List Oid) (pending : List PendingObject)

/-- A client with its files, its index and its outstanding tickets. For each object, what has stood at its path since its last publication. -/
structure CacheRun (β : Type) where
  files : Oid → CacheFile β
  seen : Oid → List (CacheFile β)
  index : ProofIndex
  client : CacheClient
  tickets : List CacheTicket
  phase : CachePhase

namespace CacheRun

/-- A stat proof matches only the bytes it was taken from: the files of an object with one stat have one content. -/
def Stable (contents : Oid → StatProof → β) (oid : Oid) (file : CacheFile β) : Prop :=
  ∀ stat bytes, file = .regular (some stat) bytes → bytes = contents oid stat

/-- A proof is of bytes that hash to the object. -/
def Proves (hash : β → Oid) (contents : Oid → StatProof → β) (oid : Oid) (proof : Option StatProof) : Prop :=
  ∀ stat, proof = some stat → hash (contents oid stat) = oid

/-- One object of a batch is observed. -/
def Observes (hash : β → Oid) (files : Oid → CacheFile β) (pending next : List PendingObject) : Prop :=
  ∃ before object after outcome, pending = before ++ object :: after ∧ object.outcome = none ∧
    verifyObjectPathFs hash (files object.oid) object.oid object.prior = some outcome ∧
    next = before ++ { object with outcome := some outcome } :: after

/-- What is read of the index: its proofs, or nothing when reading fails. -/
def Reads (index priors : ProofIndex) : Prop := priors = index ∨ priors = fun _ => none

/-- What a step reports: nothing, or a status for each requested object. -/
inductive Event where
  | silent
  | verdicts (oids : List Oid) (statuses : List ObjectVerification)

variable (hash : β → Oid) (contents : Oid → StatProof → β)

/-- One step of a client, its workers, its files or other users of the index. Work may fail at any time. -/
inductive Step : CacheRun β → Event → CacheRun β → Prop
  | change {run : CacheRun β} (files : Oid → CacheFile β) (stable : ∀ oid, Stable contents oid (files oid)) :
    Step run .silent { run with files, seen := fun oid => files oid :: run.seen oid }
  | share {run : CacheRun β} (index : ProofIndex) (proves : ∀ oid, Proves hash contents oid (index oid)) : Step run .silent { run with index }
  | prepare {run : CacheRun β} (oids : List Oid) {priors : ProofIndex} (idle : run.phase = .idle) (reads : Reads run.index priors) :
    Step run .silent { run with tickets := run.tickets ++ [run.client.prepareVerification priors oids] }
  | foreign {run : CacheRun β} (ticket : CacheTicket) (other : ticket.generation.client ≠ run.client.generation.client) :
    Step run .silent { run with tickets := run.tickets ++ [ticket] }
  | observe {run : CacheRun β} {before after : List CacheTicket} {ticket : CacheTicket} {pending : List PendingObject}
    (here : run.tickets = before ++ ticket :: after) (observes : Observes hash run.files ticket.pending pending) :
    Step run .silent { run with tickets := before ++ { ticket with pending } :: after }
  | drop {run : CacheRun β} {before after : List CacheTicket} {ticket : CacheTicket} (here : run.tickets = before ++ ticket :: after) :
    Step run .silent { run with tickets := before ++ after }
  | commit {run : CacheRun β} {before after : List CacheTicket} {ticket : CacheTicket} {priors : ProofIndex} (idle : run.phase = .idle)
    (here : run.tickets = before ++ ticket :: after) (completed : ticket.Completed) (reads : Reads run.index priors) :
    Step run .silent { run with
      tickets := before ++ after
      phase := .committing (if ticket.generation = run.client.generation then ticket else run.client.prepareVerification priors ticket.oids) }
  | recheck {run : CacheRun β} {ticket : CacheTicket} {pending : List PendingObject} (committing : run.phase = .committing ticket)
    (observes : Observes hash run.files ticket.pending pending) : Step run .silent { run with phase := .committing { ticket with pending } }
  | committed {run : CacheRun β} {ticket : CacheTicket} {index : ProofIndex} (committing : run.phase = .committing ticket)
    (completed : ticket.Completed) (applied : ApplyMany run.index ticket.deltas index) :
    Step run (.verdicts ticket.oids (run.client.commitVerification ticket).2)
      { run with client := (run.client.commitVerification ticket).1, index, phase := .idle }
  | remembered {run : CacheRun β} {oid : Oid} {observation : CacheObservation} (idle : run.phase = .idle)
    (found : run.client.memo oid = some observation) : Step run (.verdicts [oid] [observation.status]) run
  | verify {run : CacheRun β} {oid : Oid} {priors : ProofIndex} (idle : run.phase = .idle) (unknown : run.client.memo oid = none)
    (reads : Reads run.index priors) : Step run .silent { run with phase := .verifying oid (priors oid) }
  | verified {run : CacheRun β} {oid : Oid} {prior : Option StatProof} {observation : CacheObservation} {delta : Option CachePublication}
    {index : ProofIndex} (verifying : run.phase = .verifying oid prior)
    (observed : verifyObjectPathFs hash (run.files oid) oid prior = some (observation, delta)) (applied : ApplyMany run.index delta.toList index) :
    Step run (.verdicts [oid] [observation.status])
      { run with client := { run.client with memo := Function.update run.client.memo oid (some observation) }, index, phase := .idle }
  | open {run : CacheRun β} (oids : List Oid) {priors : ProofIndex} (idle : run.phase = .idle) (reads : Reads run.index priors) :
    Step run .silent { run with phase := .window oids (oids.map fun oid => ⟨oid, priors oid, none⟩) }
  | look {run : CacheRun β} {oids : List Oid} {pending next : List PendingObject} (opened : run.phase = .window oids pending)
    (observes : Observes hash run.files pending next) : Step run .silent { run with phase := .window oids next }
  | shut {run : CacheRun β} {oids : List Oid} {pending : List PendingObject} {outcomes : List (CacheObservation × Option CachePublication)}
    {index : ProofIndex} (opened : run.phase = .window oids pending) (all : pending.mapM PendingObject.outcome = some outcomes)
    (applied : ApplyMany run.index (outcomes.filterMap Prod.snd) index) :
    Step run (.verdicts oids (outcomes.map fun outcome => outcome.1.status)) { run with index, phase := .idle }
  | fail {run : CacheRun β} : Step run .silent { run with phase := .idle }
  | publish {run : CacheRun β} (receipts : List CachePublication) {index : ProofIndex} (idle : run.phase = .idle)
    (proves : ∀ receipt ∈ receipts, Proves hash contents receipt.oid receipt.proof) (applied : ApplyMany run.index receipts index) :
    Step run .silent { run with
      client := run.client.forgetMemo (receipts.map CachePublication.oid)
      index
      seen := fun oid => if oid ∈ receipts.map CachePublication.oid then [run.files oid] else run.seen oid }
  | removeProofs {run : CacheRun β} (oids : List Oid) {index : ProofIndex} (idle : run.phase = .idle)
    (applied : ApplyMany run.index (oids.map .remove) index) :
    Step run .silent { run with
      client := run.client.forgetMemo oids
      index
      seen := fun oid => if oid ∈ oids then [run.files oid] else run.seen oid }

/-- A client before its first operation, over files and an index that others may have used. -/
structure Opened (run : CacheRun β) : Prop where
  stable : ∀ oid, Stable contents oid (run.files oid)
  seen : ∀ oid, run.seen oid = [run.files oid]
  proves : ∀ oid, Proves hash contents oid (run.index oid)
  memo : ∀ oid, run.client.memo oid = none
  tickets : run.tickets = []
  phase : run.phase = .idle

inductive Reached : CacheRun β → Prop
  | opened {run : CacheRun β} (opened : Opened hash contents run) : Reached run
  | step {before after : CacheRun β} {event : Event} (reached : Reached before) (step : Step hash contents before event after) : Reached after

end CacheRun

end Gat
