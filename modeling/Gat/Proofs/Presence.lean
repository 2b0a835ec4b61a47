import Gat.Model.Presence
import Gat.ToMathlib.KeyedFold
import Mathlib.Data.List.Induction

/-! # The accounts of a presence check

Every request is pending, admitted, reported or given up. The channel of a batch holds the answers of its first indices, so
that a message is the answer of the index that it is reported with.
-/

namespace Gat

/-! ## Batches -/

section Batch

variable {ι σ : Type} {probe : ι → Except σ Bool} {isCancelled : Bool}

/-- A sent message is the answer of its check, or says that the check was not made. -/
def OwnAnswer (probe : ι → Except σ Bool) (index : ι) (message : Except (PresenceProbeError σ) Bool) : Prop :=
  message = (probe index).mapError .file ∨ message = .error .cancelled

theorem OwnAnswer.eq_ok {index : ι} {present : Bool} (own : OwnAnswer probe index (.ok present)) : probe index = .ok present := by
  rcases own with same | same
  · cases answer : probe index with
    | error source =>
      rw [answer] at same
      cases same
    | ok value =>
      rw [answer] at same
      cases same
      rfl
  · cases same

/-- The channel answers the first indices, and a working batch still checks all others. -/
structure FileBatch.Aligned (probe : ι → Except σ Bool) (batch : FileBatch ι σ) (first rest : List ι) : Prop where
  indices : batch.indices = first ++ rest
  sent : List.Forall₂ (OwnAnswer probe) first batch.channel
  working : (∀ failure, batch.worker ≠ .finished failure) → batch.checks = rest
  finished : batch.worker = .finished none → rest = []

/-- A batch with some alignment, or a network check. -/
def PresenceStream.Valid (probe : ι → Except σ Bool) : PresenceStream ι σ → Prop
  | .single _ => True
  | .file batch => ∃ first rest, batch.Aligned probe first rest

/-- A worker only sends, so the indices and their answers stay aligned. -/
theorem FileBatch.Works.aligned {batch next : FileBatch ι σ} (works : batch.Works isCancelled probe next) {first rest : List ι}
    (aligned : batch.Aligned probe first rest) : next.indices = batch.indices ∧ ∃ first rest, next.Aligned probe first rest := by
  have sends {index : ι} {later : List ι} {message : Except (PresenceProbeError σ) Bool} (running : batch.worker = .running)
      (isNext : batch.checks = index :: later) (own : OwnAnswer probe index message) :
      ∃ first rest, FileBatch.Aligned probe { batch with checks := later, channel := batch.channel ++ [message] } first rest := by
    have working := aligned.working fun failure finished => nomatch running.symm.trans finished
    refine ⟨first ++ [index], later, ?_, ?_, fun _ => rfl, fun finished => nomatch running.symm.trans finished⟩
    · dsimp only
      rw [aligned.indices, ← working, isNext, List.append_assoc, List.singleton_append]
    · exact List.rel_append aligned.sent (.cons own .nil)
  cases works with
  | start queued =>
    exact ⟨rfl, first, rest, aligned.indices, aligned.sent, fun _ => aligned.working fun _ finished => (nomatch queued.symm.trans finished), nofun⟩
  | discard => exact ⟨rfl, first, rest, aligned.indices, aligned.sent, fun unfinished => absurd rfl (unfinished _), nofun⟩
  | check running isNext => exact ⟨rfl, sends running isNext (.inl rfl)⟩
  | skip running isNext _ => exact ⟨rfl, sends running isNext (.inr rfl)⟩
  | finish running done =>
    refine ⟨rfl, first, rest, aligned.indices, aligned.sent, fun unfinished => absurd rfl (unfinished _), fun _ => ?_⟩
    exact (aligned.working fun _ finished => nomatch running.symm.trans finished).symm.trans done
  | crash => exact ⟨rfl, first, rest, aligned.indices, aligned.sent, fun unfinished => absurd rfl (unfinished _), nofun⟩

/-- A stream reports its own next index, with its own answer. -/
theorem PresenceStream.Reports.spec {stream : PresenceStream ι σ} {index : ι} {result : Except (PresenceProbeError σ) Bool}
    {rest : Option (PresenceStream ι σ)} (reports : stream.Reports isCancelled probe index result rest) (valid : stream.Valid probe) :
    stream.remaining = index :: rest.toList.flatMap remaining ∧ (∀ present, result = .ok present → probe index = .ok present) ∧
      ∀ later ∈ rest, later.Valid probe := by
  have advances (batch : FileBatch ι σ) (later : List ι) (channel : List (Except (PresenceProbeError σ) Bool)) :
      (advance batch later channel).toList.flatMap remaining = later := by
    cases later with
    | nil => rfl
    | cons head later => exact List.append_nil _
  have keeps {batch : FileBatch ι σ} (first later : List ι) {channel : List (Except (PresenceProbeError σ) Bool)}
      (aligned : FileBatch.Aligned probe { batch with indices := first ++ later, channel } first later) :
      ∀ stream ∈ advance batch (first ++ later) channel, stream.Valid probe := by
    intro stream isLater
    unfold advance at isLater
    split_ifs at isLater
    · cases isLater
    · cases isLater
      exact ⟨first, later, aligned⟩
  cases reports with
  | single =>
    refine ⟨rfl, fun present same => ?_, nofun⟩
    cases answer : probe index with
    | error source =>
      rw [answer] at same
      cases same
    | ok value =>
      rw [answer] at same
      cases same
      rfl
  | singleCancelled => exact ⟨rfl, nofun, nofun⟩
  | @message batch _ later message channel isNext sent _ =>
    obtain ⟨first, unsent, aligned⟩ := valid
    have answers := aligned.sent
    rw [sent] at answers
    obtain ⟨head, first, own, others, rfl⟩ := List.forall₂_cons_right_iff.mp answers
    have split := isNext.symm.trans aligned.indices
    rw [List.cons_append, List.cons.injEq] at split
    obtain ⟨rfl, rfl⟩ := split
    refine ⟨isNext.trans (congrArg (index :: ·) (advances ..).symm), fun present same => (same ▸ own).eq_ok, ?_⟩
    exact keeps _ _ ⟨rfl, others, aligned.working, aligned.finished⟩
  | @closed batch _ later failure isNext empty finished =>
    obtain ⟨first, unsent, aligned⟩ := valid
    have answers := aligned.sent
    rw [empty] at answers
    cases answers
    have split := isNext.symm.trans aligned.indices
    rw [List.nil_append] at split
    refine ⟨isNext.trans (congrArg (index :: ·) (advances ..).symm), nofun, ?_⟩
    refine keeps [] _ ⟨rfl, .nil, fun unfinished => absurd finished (unfinished _), fun complete => ?_⟩
    have all := aligned.finished complete
    rw [← split] at all
    cases all

/-- A group that is not empty and fits the limit becomes a stream of its indices. -/
theorem presenceStream_spec (probe : ι → Except σ Bool) {batchLimit : ℕ} {entries : List ι} (nonempty : entries ≠ [])
    (fits : entries.length ≤ batchLimit) :
    ∃ stream : PresenceStream ι σ, presenceStream batchLimit entries = some stream ∧ stream.remaining = entries ∧ stream.Valid probe := by
  unfold presenceStream
  rw [if_pos fits]
  cases entries with
  | nil => exact absurd rfl nonempty
  | cons index rest =>
    dsimp only
    split_ifs with single
    · rw [single, List.length_cons] at fits
      have last : rest = [] := List.eq_nil_of_length_eq_zero (by omega)
      exact ⟨_, rfl, last ▸ rfl, trivial⟩
    · exact ⟨_, rfl, rfl, [], index :: rest, rfl, .nil, fun _ => rfl, nofun⟩

end Batch

/-! ## What has been done -/

namespace PresenceEvent

variable {ι σ : Type}

def admitted? : PresenceEvent ι σ → Option ι
  | admitted index => some index
  | _ => none

def outcome? : PresenceEvent ι σ → Option ι
  | answered index _ => some index
  | failed index _ => some index
  | _ => none

def error? : PresenceEvent ι σ → Option (ι × PresenceProbeError σ)
  | failed index error => some (index, error)
  | cancelled index => some (index, .cancelled)
  | _ => none

/-- Nothing is admitted after an error. -/
def Stopped (log : List (PresenceEvent ι σ)) : Prop := log.Pairwise fun earlier later => earlier.error?.isSome → later.admitted? = none

end PresenceEvent

section Errors

variable {ι σ : Type} [LinearOrder ι]

/-- The error that is left of errors in order. -/
def retained (errors : List (ι × PresenceProbeError σ)) : Option (ι × PresenceProbeError σ) :=
  errors.foldl (fun first error => retainFirstError first error.1 error.2) none

theorem retained_concat (errors : List (ι × PresenceProbeError σ)) (index : ι) (error : PresenceProbeError σ) :
    retained (errors ++ [(index, error)]) = retainFirstError (retained errors) index error := by
  rw [retained, List.foldl_append]
  rfl

theorem retainFirstError_ne_none (first : Option (ι × PresenceProbeError σ)) (index : ι) (error : PresenceProbeError σ) :
    retainFirstError first index error ≠ none := by
  unfold retainFirstError
  split
  · nofun
  · split_ifs <;> nofun

/-- Nothing is left of no errors, and of other errors the first one with the least index. -/
theorem retained_spec (errors : List (ι × PresenceProbeError σ)) :
    (retained errors = none ↔ errors = []) ∧ ∀ error, retained errors = some error → error ∈ errors ∧ ∀ other ∈ errors, error.1 ≤ other.1 := by
  induction errors using List.reverseRecOn with
  | nil => exact ⟨iff_of_true rfl rfl, nofun⟩
  | append_singleton errors last ih =>
    rw [retained_concat]
    cases before : retained errors with
    | none =>
      have empty := ih.1.mp before
      subst empty
      refine ⟨iff_of_false nofun (by simp), fun error same => ?_⟩
      obtain rfl : last = error := Option.some.inj same
      simp
    | some earliest =>
      obtain ⟨member, least⟩ := ih.2 earliest before
      unfold retainFirstError
      dsimp only
      split_ifs with earlier
      · refine ⟨iff_of_false nofun (by simp), fun error same => ?_⟩
        obtain rfl : last = error := Option.some.inj same
        refine ⟨by simp, fun other isOther => ?_⟩
        rcases List.mem_append.mp isOther with old | new
        · exact earlier.le.trans (least other old)
        · rw [List.mem_singleton.mp new]
      · refine ⟨iff_of_false nofun (by simp), fun error same => ?_⟩
        obtain rfl : earliest = error := Option.some.inj same
        refine ⟨List.mem_append_left _ member, fun other isOther => ?_⟩
        rcases List.mem_append.mp isOther with old | new
        · exact least other old
        · rw [List.mem_singleton.mp new]
          exact not_lt.mp earlier

end Errors

/-! ## The accounts -/

namespace PresenceDrive

variable {σ : Type} {window : PresenceWindow σ}

/-- The request that the coordinator waits to admit. -/
def acquiring {ι : Type} : DrivePhase ι → List ι
  | .acquire index => [index]
  | _ => []

/-- The admitted requests without an outcome. -/
def inFlight (drive : PresenceDrive window) : List (Fin window.count) :=
  groupsOf drive.phase ++ drive.active.flatMap PresenceStream.remaining

def admissions (drive : PresenceDrive window) : List (Fin window.count) := drive.log.filterMap PresenceEvent.admitted?

def outcomes (drive : PresenceDrive window) : List (Fin window.count) := drive.log.filterMap PresenceEvent.outcome?

def errors (drive : PresenceDrive window) : List (Fin window.count × PresenceProbeError σ) := drive.log.filterMap PresenceEvent.error?

/-- How often a request is still to be admitted, in flight or done. -/
def places (drive : PresenceDrive window) (index : Fin window.count) : ℕ :=
  drive.pending.count index + (acquiring drive.phase).count index + drive.inFlight.count index + drive.outcomes.count index

/-- Groups are neither empty nor full. -/
def GroupsFit (window : PresenceWindow σ) (groups : SortedMap RemoteId (List (Fin window.count))) : Prop :=
  ∀ remote group, groups.get? remote = some group → group ≠ [] ∧ group.length < window.batchLimit remote

/-- What holds of the variables of a check between any two steps. -/
structure Accounts (drive : PresenceDrive window) : Prop where
  atMostOnce : ∀ index, drive.places index ≤ 1
  complete : drive.firstError = none → ∀ index, 1 ≤ drive.places index
  drained : ∀ index, drive.admissions.count index = drive.inFlight.count index + drive.outcomes.count index
  entries : drive.activeEntries = drive.inFlight.length
  error : drive.firstError = retained drive.errors
  stopped : PresenceEvent.Stopped drive.log
  own : ∀ index present, .answered index present ∈ drive.log → window.probe index = .ok present
  valid : ∀ stream ∈ drive.active, stream.Valid window.probe
  admitting : ∀ remaining groups, drive.phase = .fill remaining groups → drive.firstError = none ∧ GroupsFit window groups
  waiting : ∀ index, drive.phase = .acquire index → drive.firstError = none ∧ drive.activeEntries = 0
  settled : drive.phase = .returned → drive.activeEntries = 0 ∧ (drive.firstError = none → drive.pending = [])

namespace Accounts

variable {drive : PresenceDrive window}

/-- Without errors a request may still be admitted. -/
theorem admissible (accounts : Accounts drive) (clean : drive.firstError = none) (index : Fin window.count) :
    PresenceEvent.Stopped (drive.log ++ [.admitted index]) := by
  refine List.pairwise_append.mpr ⟨accounts.stopped, List.pairwise_singleton .., fun earlier member _ _ isError => ?_⟩
  have none : drive.errors = [] := (retained_spec _).1.mp (accounts.error.symm.trans clean)
  obtain ⟨error, isError⟩ := Option.isSome_iff_exists.mp isError
  have listed : error ∈ drive.errors := List.mem_filterMap.mpr ⟨earlier, member, isError⟩
  rw [none] at listed
  cases listed

/-- Another event than an admission may follow anything. -/
theorem followed (accounts : Accounts drive) {event : PresenceEvent (Fin window.count) σ} (other : event.admitted? = none) :
    PresenceEvent.Stopped (drive.log ++ [event]) := by
  refine List.pairwise_append.mpr ⟨accounts.stopped, List.pairwise_singleton .., fun earlier _ later last _ => ?_⟩
  rw [List.mem_singleton.mp last]
  exact other

/-- Only the accounts matter. -/
theorem keep (accounts : Accounts drive) (others : List RemoteId) (isCancelled : Bool) : Accounts { drive with others, isCancelled } where
  __ := accounts

/-- Requests move between the places of one kind. -/
theorem move (accounts : Accounts drive) {phase : DrivePhase (Fin window.count)} {pending : List (Fin window.count)}
    {active : List (PresenceStream (Fin window.count) σ)} (queued : (pending ++ acquiring phase).Perm (drive.pending ++ acquiring drive.phase))
    (inFlight : (groupsOf phase ++ active.flatMap PresenceStream.remaining).Perm drive.inFlight)
    (valid : ∀ stream ∈ active, stream.Valid window.probe)
    (admitting : ∀ remaining groups, phase = .fill remaining groups → drive.firstError = none ∧ GroupsFit window groups)
    (waiting : ∀ index, phase = .acquire index → drive.firstError = none ∧ drive.activeEntries = 0)
    (settled : phase = .returned → drive.activeEntries = 0 ∧ (drive.firstError = none → pending = [])) :
    Accounts { drive with phase, pending, active } := by
  have places (index : Fin window.count) : places { drive with phase, pending, active } index = drive.places index := by
    have queuedCount := queued.count_eq index
    have inFlightCount := inFlight.count_eq index
    rw [List.count_append, List.count_append] at queuedCount
    unfold PresenceDrive.places
    rw [queuedCount]
    exact congrArg (_ + · + _) inFlightCount
  exact { accounts with
    atMostOnce := fun index => (places index).trans_le (accounts.atMostOnce index)
    complete := fun clean index => (accounts.complete clean index).trans_eq (places index).symm
    drained := fun index => (accounts.drained index).trans (congrArg (· + _) (inFlight.count_eq index).symm)
    entries := accounts.entries.trans inFlight.length_eq.symm
    valid, admitting, waiting, settled }

/-- A request is admitted and is in flight from then on. -/
theorem requested (accounts : Accounts drive) (clean : drive.firstError = none) {index : Fin window.count} {phase : DrivePhase (Fin window.count)}
    {pending : List (Fin window.count)} {active : List (PresenceStream (Fin window.count) σ)}
    (queued : (index :: (pending ++ acquiring phase)).Perm (drive.pending ++ acquiring drive.phase))
    (inFlight : (groupsOf phase ++ active.flatMap PresenceStream.remaining).Perm (index :: drive.inFlight))
    (valid : ∀ stream ∈ active, stream.Valid window.probe)
    (admitting : ∀ remaining groups, phase = .fill remaining groups → GroupsFit window groups) (notWaiting : acquiring phase = [])
    (notSettled : phase ≠ .returned) :
    Accounts { drive with
      phase
      pending
      active
      activeEntries := drive.activeEntries + 1
      log := drive.log ++ [.admitted index] } := by
  set next : PresenceDrive window := { drive with
    phase
    pending
    active
    activeEntries := drive.activeEntries + 1
    log := drive.log ++ [.admitted index] }
  have outcomes : next.outcomes = drive.outcomes := (List.filterMap_append ..).trans (List.append_nil _)
  have admissions : next.admissions = drive.admissions ++ [index] := List.filterMap_append ..
  have errors : next.errors = drive.errors := (List.filterMap_append ..).trans (List.append_nil _)
  have places (other : Fin window.count) : next.places other = drive.places other := by
    have queuedCount := queued.count_eq other
    have inFlightCount : next.inFlight.count other = _ := inFlight.count_eq other
    rw [List.count_cons, List.count_append, List.count_append] at queuedCount
    rw [List.count_cons] at inFlightCount
    unfold PresenceDrive.places
    rw [outcomes, inFlightCount]
    change pending.count other + (acquiring phase).count other + _ + _ = _
    omega
  refine ⟨fun other => (places other).trans_le (accounts.atMostOnce other), fun _ other => ?_, fun other => ?_, ?_, ?_,
    accounts.admissible clean index, fun other present member => ?_, valid, fun remaining groups same => ⟨clean, admitting remaining groups same⟩,
    fun other same => ?_, fun same => absurd same notSettled⟩
  · exact (accounts.complete clean other).trans_eq (places other).symm
  · have drained := accounts.drained other
    have inFlightCount : next.inFlight.count other = _ := inFlight.count_eq other
    rw [List.count_cons] at inFlightCount
    rw [admissions, outcomes, inFlightCount, List.count_append, List.count_singleton]
    omega
  · have length : next.inFlight.length = _ := inFlight.length_eq
    rw [length, List.length_cons, ← accounts.entries]
  · rw [errors]
    exact accounts.error
  · rcases List.mem_append.mp member with old | new
    · exact accounts.own other present old
    · cases List.mem_singleton.mp new
  · rw [show phase = .acquire other from same] at notWaiting
    cases notWaiting

/-- An outcome is reported for a request that was in flight. -/
theorem report (accounts : Accounts drive) (outside : acquiring drive.phase = []) {index : Fin window.count}
    {active : List (PresenceStream (Fin window.count) σ)} (inFlight : drive.inFlight.Perm (index :: active.flatMap PresenceStream.remaining))
    (valid : ∀ stream ∈ active, stream.Valid window.probe) {result : Except (PresenceProbeError σ) Bool}
    (own : ∀ present, result = .ok present → window.probe index = .ok present) : Accounts (drive.handle index result active) := by
  have phase : (drive.handle index result active).phase = .ready := by cases result <;> rfl
  have outcomes : (drive.handle index result active).outcomes = drive.outcomes ++ [index] := by
    cases result <;> exact List.filterMap_append ..
  have admissions : (drive.handle index result active).admissions = drive.admissions := by
    cases result <;> exact (List.filterMap_append ..).trans (List.append_nil _)
  have pending : (drive.handle index result active).pending = drive.pending := by cases result <;> rfl
  have flying : (drive.handle index result active).inFlight = active.flatMap PresenceStream.remaining := by cases result <;> rfl
  have count (other : Fin window.count) := inFlight.count_eq other
  simp only [List.count_cons] at count
  have places (other : Fin window.count) : (drive.handle index result active).places other = drive.places other := by
    unfold PresenceDrive.places
    rw [outcomes, pending, flying, phase, outside, count other, List.count_append, List.count_singleton]
    change _ + 0 + _ + _ = _ + 0 + _ + _
    omega
  refine ⟨fun other => (places other).trans_le (accounts.atMostOnce other), fun clean other => ?_, fun other => ?_, ?_, ?_, ?_, ?_, ?_,
    fun _ _ same => (nomatch phase.symm.trans same), fun _ same => (nomatch phase.symm.trans same), fun same => (nomatch phase.symm.trans same)⟩
  · refine (accounts.complete ?_ other).trans_eq (places other).symm
    cases result with
    | ok => exact clean
    | error => exact absurd clean (retainFirstError_ne_none _ _ _)
  · rw [admissions, outcomes, flying, accounts.drained other, count other, List.count_append, List.count_singleton]
    omega
  · have length := inFlight.length_eq
    rw [← accounts.entries, List.length_cons] at length
    rw [flying]
    cases result <;> exact Nat.sub_eq_of_eq_add length
  · cases result with
    | ok => exact accounts.error.trans (congrArg retained ((List.filterMap_append ..).trans (List.append_nil _)).symm)
    | error error =>
      have errors : (drive.handle index (.error error) active).errors = drive.errors ++ [(index, error)] := List.filterMap_append ..
      rw [errors, retained_concat, ← accounts.error]
      rfl
  · cases result <;> exact accounts.followed rfl
  · intro other present member
    cases result with
    | ok value =>
      rcases List.mem_append.mp member with old | new
      · exact accounts.own other present old
      · cases List.mem_singleton.mp new
        exact own present rfl
    | error =>
      rcases List.mem_append.mp member with old | new
      · exact accounts.own other present old
      · cases List.mem_singleton.mp new
  · cases result <;> exact valid

/-- A pending request is given up with everything behind it. -/
theorem giveUp (accounts : Accounts drive) (inside : groupsOf drive.phase = []) (index : Fin window.count) {pending : List (Fin window.count)}
    (fewer : pending.Sublist drive.pending) : Accounts { drive with
      phase := .top
      pending
      firstError := retainFirstError drive.firstError index .cancelled
      log := drive.log ++ [.cancelled index] } := by
  set next : PresenceDrive window := { drive with
    phase := .top
    pending
    firstError := retainFirstError drive.firstError index .cancelled
    log := drive.log ++ [.cancelled index] }
  have outcomes : next.outcomes = drive.outcomes := (List.filterMap_append ..).trans (List.append_nil _)
  have admissions : next.admissions = drive.admissions := (List.filterMap_append ..).trans (List.append_nil _)
  have errors : next.errors = drive.errors ++ [(index, .cancelled)] := List.filterMap_append ..
  have inFlight : next.inFlight = drive.inFlight := by
    rw [PresenceDrive.inFlight, PresenceDrive.inFlight, inside]
    rfl
  refine ⟨fun other => ?_, fun clean => absurd clean (retainFirstError_ne_none _ _ _), fun other => ?_, inFlight ▸ accounts.entries, ?_,
    accounts.followed rfl, fun other present member => ?_, accounts.valid, nofun, nofun, nofun⟩
  · refine le_trans ?_ (accounts.atMostOnce other)
    have count := fewer.count_le other
    unfold PresenceDrive.places
    rw [outcomes, inFlight]
    change pending.count other + 0 + _ + _ ≤ _
    omega
  · rw [admissions, outcomes, inFlight]
    exact accounts.drained other
  · rw [errors, retained_concat, ← accounts.error]
  · rcases List.mem_append.mp member with old | new
    · exact accounts.own other present old
    · cases List.mem_singleton.mp new

/-- A worker changes nothing that is reported. -/
theorem work (accounts : Accounts drive) {before after : List (PresenceStream (Fin window.count) σ)} {batch next : FileBatch (Fin window.count) σ}
    {isCancelled : Bool} (running : drive.active = before ++ .file batch :: after) (works : batch.Works isCancelled window.probe next) :
    Accounts { drive with active := before ++ .file next :: after } := by
  obtain ⟨first, rest, aligned⟩ := accounts.valid (.file batch) (running ▸ List.mem_append_right _ (List.mem_cons_self ..))
  obtain ⟨indices, realigned⟩ := works.aligned aligned
  refine accounts.move (List.Perm.refl _) ?_ (fun stream member => ?_) accounts.admitting accounts.waiting accounts.settled
  · simp only [PresenceDrive.inFlight, running, List.flatMap_append, List.flatMap_cons, PresenceStream.remaining, indices]
    exact List.Perm.refl _
  · rcases List.mem_append.mp member with isBefore | isAfter
    · exact accounts.valid stream (running ▸ List.mem_append_left _ isBefore)
    · rcases List.mem_cons.mp isAfter with rfl | isAfter
      · exact realigned
      · exact accounts.valid stream (running ▸ List.mem_append_right _ (List.mem_cons_of_mem _ isAfter))

/-- The coordinator is at another place without requests. -/
theorem rephase (accounts : Accounts drive) {phase : DrivePhase (Fin window.count)}
    (before : acquiring drive.phase = [] ∧ groupsOf drive.phase = []) (after : acquiring phase = [] ∧ groupsOf phase = [])
    (admitting : ∀ remaining groups, phase = .fill remaining groups → drive.firstError = none ∧ GroupsFit window groups)
    (settled : phase = .returned → drive.activeEntries = 0 ∧ (drive.firstError = none → drive.pending = [])) :
    Accounts { drive with phase } := by
  refine accounts.move ?_ ?_ accounts.valid admitting (fun index same => ?_) settled
  · rw [before.1, after.1]
  · rw [PresenceDrive.inFlight, before.2, after.2]
  · rw [same] at after
    cases after.1

/-- The coordinator waits for what is active, or leaves the loop. -/
theorem await (accounts : Accounts drive) (before : acquiring drive.phase = [] ∧ groupsOf drive.phase = [])
    (pending : drive.activeEntries = 0 → drive.firstError = none → drive.pending = []) : Accounts drive.await := by
  unfold PresenceDrive.await
  split_ifs with idle
  · exact accounts.rephase before ⟨rfl, rfl⟩ nofun fun _ => ⟨idle, pending idle⟩
  · exact accounts.rephase before ⟨rfl, rfl⟩ nofun nofun

/-- Pending requests are given up after an error. -/
theorem clear (accounts : Accounts drive) (known : drive.firstError ≠ none) : Accounts { drive with pending := [] } where
  __ := accounts
  atMostOnce index := by
    refine le_trans ?_ (accounts.atMostOnce index)
    change 0 + _ + _ + _ ≤ _ + _ + _ + _
    exact Nat.add_le_add_right (Nat.add_le_add_right (Nat.add_le_add_right (Nat.zero_le _) _) _) _
  complete clean := absurd clean known
  settled returned := ⟨(accounts.settled returned).1, fun _ => rfl⟩

theorem enter (accounts : Accounts drive) (top : drive.phase = .top) : Accounts drive.enter := by
  have outside : acquiring drive.phase = [] ∧ groupsOf drive.phase = [] := by
    rw [top]
    exact ⟨rfl, rfl⟩
  unfold PresenceDrive.enter
  split_ifs with finished
  · exact accounts.rephase outside ⟨rfl, rfl⟩ nofun fun _ => ⟨finished.2, fun _ => finished.1⟩
  · dsimp only
    split
    · next index _ _ =>
      have kept := accounts.giveUp outside.2 index (List.nil_sublist drive.pending)
      rw [if_neg (by rw [Option.isNone_iff_eq_none]; exact retainFirstError_ne_none _ _ _)]
      exact kept.await ⟨rfl, rfl⟩ fun _ _ => rfl
    · split_ifs with clean
      · refine accounts.rephase outside ⟨rfl, rfl⟩ (fun remaining groups same => ⟨Option.isNone_iff_eq_none.mp clean, ?_⟩) nofun
        cases same
        exact fun remote group bound => nomatch (SortedMap.get?_empty remote).symm.trans bound
      · exact (accounts.clear fun none => clean (Option.isNone_iff_eq_none.mpr none)).await outside fun _ _ => rfl

/-- What is grouped is launched as it is. -/
theorem streams_of_groups {groups : List (RemoteId × List (Fin window.count))}
    (fit : ∀ group ∈ groups, group.2 ≠ [] ∧ group.2.length < window.batchLimit group.1) :
    ∃ streams : List (PresenceStream (Fin window.count) σ),
      groups.mapM (fun group => presenceStream (window.batchLimit group.1) group.2) = some streams ∧
      streams.flatMap PresenceStream.remaining = groups.flatMap Prod.snd ∧ ∀ stream ∈ streams, stream.Valid window.probe := by
  induction groups with
  | nil => exact ⟨[], rfl, rfl, nofun⟩
  | cons group rest ih =>
    rw [List.forall_mem_cons] at fit
    obtain ⟨stream, started, remaining, valid⟩ := presenceStream_spec window.probe fit.1.1 fit.1.2.le
    obtain ⟨streams, launched, flat, all⟩ := ih fit.2
    refine ⟨stream :: streams, ?_, ?_, List.forall_mem_cons.mpr ⟨valid, all⟩⟩
    · rw [List.mapM_cons, started, launched]
      rfl
    · rw [List.flatMap_cons, remaining, flat, List.flatMap_cons]

theorem exists_launch (accounts : Accounts drive) {remaining : ℕ} {groups : SortedMap RemoteId (List (Fin window.count))}
    (admitting : drive.phase = .fill remaining groups) : ∃ next, drive.launch groups = some next ∧ Accounts next := by
  obtain ⟨clean, fit⟩ := accounts.admitting remaining groups admitting
  have filling : ∀ group ∈ groups.entries, group.2 ≠ [] ∧ group.2.length < window.batchLimit group.1 := fun group member =>
    fit group.1 group.2 (SortedMap.get?_of_mem member)
  obtain ⟨streams, launched, flat, valid⟩ := streams_of_groups filling
  have kept : Accounts { drive with active := drive.active ++ streams, phase := .top } := by
    refine accounts.move ?_ ?_ (List.forall_mem_append.mpr ⟨accounts.valid, valid⟩) nofun nofun nofun
    · rw [admitting]
      exact List.Perm.refl _
    · rw [PresenceDrive.inFlight, admitting, List.flatMap_append, flat]
      change (drive.active.flatMap PresenceStream.remaining ++ groups.entries.flatMap Prod.snd).Perm _
      exact List.perm_append_comm
  unfold PresenceDrive.launch
  rw [launched]
  dsimp only [Option.bind_eq_bind, Option.bind_some, Option.pure_def]
  split
  · next index rest pending =>
    split_ifs with idle
    · refine ⟨_, rfl, kept.move ?_ (List.Perm.refl _) kept.valid nofun (fun other same => ⟨clean, idle⟩) nofun⟩
      rw [show drive.pending = index :: rest from pending]
      exact List.perm_append_comm.trans (List.Perm.of_eq (List.append_nil _).symm)
    · exact ⟨_, rfl, kept.await ⟨rfl, rfl⟩ fun other => absurd other idle⟩
  · next pending => exact ⟨_, rfl, kept.await ⟨rfl, rfl⟩ fun _ _ => pending⟩

theorem exists_admitNext (accounts : Accounts drive) {remaining : ℕ} {groups : SortedMap RemoteId (List (Fin window.count))}
    (admitting : drive.phase = .fill remaining groups) : ∃ next, drive.admitNext remaining groups = some next ∧ Accounts next := by
  obtain ⟨clean, fit⟩ := accounts.admitting remaining groups admitting
  unfold PresenceDrive.admitNext
  split
  · next remaining index rest pending =>
    dsimp only
    set remote := window.remoteOf index
    set entries := (groups.get? remote).getD [] ++ [index] with isEntries
    have inFlight : drive.inFlight.Perm ((groups.get? remote).getD [] ++ ((groups.erase remote).items ++
        drive.active.flatMap PresenceStream.remaining)) := by
      rw [PresenceDrive.inFlight, admitting, ← List.append_assoc]
      exact (groups.items_perm remote).append_right _
    -- the request joins the group of its remote
    have joined : (index :: drive.inFlight).Perm (entries ++ ((groups.erase remote).items ++ drive.active.flatMap PresenceStream.remaining)) := by
      refine (inFlight.cons index).trans ?_
      rw [isEntries, List.append_assoc]
      exact List.perm_middle.symm
    have queued : (index :: (rest ++ [])).Perm (drive.pending ++ acquiring drive.phase) := by
      rw [pending, admitting]
      exact List.Perm.refl _
    have fits : entries.length ≤ window.batchLimit remote := by
      rw [isEntries, List.length_append, List.length_singleton]
      cases grouped : groups.get? remote with
      | none => exact window.batchLimit_pos remote
      | some group => exact (fit remote group grouped).2
    have nonempty : entries ≠ [] := List.append_ne_nil_of_right_ne_nil _ (List.cons_ne_nil _ _)
    split_ifs with full free complete
    · exact accounts.exists_launch admitting
    · obtain ⟨stream, started, remaining, valid⟩ := presenceStream_spec window.probe nonempty fits
      rw [started]
      refine ⟨_, rfl, accounts.requested clean queued ?_ ?_ (fun _ _ same => ?_) rfl nofun⟩
      · rw [List.flatMap_append, List.flatMap_singleton, remaining]
        refine List.Perm.trans ?_ joined.symm
        change ((groups.erase remote).items ++ (drive.active.flatMap PresenceStream.remaining ++ entries)).Perm _
        rw [← List.append_assoc]
        exact List.perm_append_comm
      · exact List.forall_mem_append.mpr ⟨accounts.valid, List.forall_mem_singleton.mpr valid⟩
      · cases same
        intro other group bound
        rw [SortedMap.get?_erase] at bound
        split_ifs at bound
        exact fit other group bound
    · refine ⟨_, rfl, accounts.requested clean queued ?_ accounts.valid (fun _ _ same => ?_) rfl nofun⟩
      · refine List.Perm.trans ?_ joined.symm
        rw [← List.append_assoc]
        exact (groups.items_insert_perm remote entries).append_right _
      · cases same
        intro other group bound
        rw [SortedMap.get?_insert] at bound
        split_ifs at bound with same
        · cases bound
          exact same ▸ ⟨nonempty, lt_of_le_of_ne fits complete⟩
        · exact fit other group bound
    · refine ⟨_, rfl, accounts.move ?_ ?_ accounts.valid (fun _ _ same => ?_) nofun nofun⟩
      · rw [admitting, show drive.pending = index :: rest from pending]
        exact (List.perm_append_singleton ..).append_right _
      · rw [PresenceDrive.inFlight, admitting]
        exact List.Perm.refl _
      · cases same
        exact ⟨clean, fit⟩
  · exact accounts.exists_launch admitting

theorem exists_acquired (accounts : Accounts drive) {index : Fin window.count} (waiting : drive.phase = .acquire index) :
    ∃ next, drive.acquired index = some next ∧ Accounts next := by
  obtain ⟨clean, idle⟩ := accounts.waiting index waiting
  obtain ⟨stream, started, remaining, valid⟩ := presenceStream_spec window.probe (List.cons_ne_nil index []) (window.batchLimit_pos _)
  have kept : Accounts { drive with
      phase := .wait
      pending := drive.pending
      active := drive.active ++ [stream]
      activeEntries := drive.activeEntries + 1
      log := drive.log ++ [.admitted index] } := by
    refine accounts.requested clean ?_ ?_ (List.forall_mem_append.mpr ⟨accounts.valid, List.forall_mem_singleton.mpr valid⟩) nofun rfl nofun
    · rw [waiting]
      exact (List.Perm.of_eq (List.append_nil _)).cons index |>.trans (List.perm_append_singleton ..).symm
    · rw [PresenceDrive.inFlight, waiting, List.flatMap_append, List.flatMap_singleton, remaining]
      exact List.perm_append_singleton ..
  unfold PresenceDrive.acquired
  rw [started]
  refine ⟨_, rfl, ?_⟩
  rw [idle] at kept
  exact kept

theorem refused (accounts : Accounts drive) {index : Fin window.count} (waiting : drive.phase = .acquire index) : Accounts (drive.refused index) := by
  have kept := accounts.giveUp (by rw [waiting]; rfl) index (List.Sublist.refl drive.pending)
  exact kept.await ⟨rfl, rfl⟩ fun _ clean => absurd clean (retainFirstError_ne_none _ _ _)

theorem reports (accounts : Accounts drive) (waiting : drive.phase = .wait ∨ drive.phase = .ready)
    {before after : List (PresenceStream (Fin window.count) σ)} {stream : PresenceStream (Fin window.count) σ} {index : Fin window.count}
    {result : Except (PresenceProbeError σ) Bool} {rest : Option (PresenceStream (Fin window.count) σ)}
    (running : drive.active = before ++ stream :: after) (reports : stream.Reports drive.isCancelled window.probe index result rest) :
    Accounts (drive.handle index result (before ++ rest.toList ++ after)) := by
  have outside : acquiring drive.phase = [] ∧ groupsOf drive.phase = [] := by
    rcases waiting with same | same <;> exact same ▸ ⟨rfl, rfl⟩
  obtain ⟨remaining, own, later⟩ := reports.spec (accounts.valid stream (running ▸ List.mem_append_right _ (List.mem_cons_self ..)))
  refine accounts.report outside.1 ?_ (fun other member => ?_) own
  · rw [PresenceDrive.inFlight, outside.2, running, List.nil_append]
    simp only [List.flatMap_append, List.flatMap_cons, remaining, List.cons_append, List.append_assoc]
    exact List.perm_middle
  · simp only [List.mem_append, Option.mem_toList] at member
    rcases member with (isBefore | isRest) | isAfter
    · exact accounts.valid other (running ▸ List.mem_append_left _ isBefore)
    · exact later other isRest
    · exact accounts.valid other (running ▸ List.mem_append_right _ (List.mem_cons_of_mem _ isAfter))

end Accounts

end PresenceDrive

end Gat
