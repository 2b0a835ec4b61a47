import Gat.Proofs.Presence
import Mathlib.Order.Bounds.Defs

/-! # Presence answers reach their requests

Every admitted request is reported once and with its own answer, however workers, results, permits and cancellations
interleave. A check that succeeds has answered everything, and the error of a failed one is the first error that was seen.
-/

namespace Gat

/-! ## The order of requests -/

namespace PresenceWindow

variable {σ : Type} (window : PresenceWindow σ)

/-- The requests of a remote, in order. -/
def requestsOf (remote : RemoteId) : List (Fin window.count) := (List.finRange window.count).filter fun index => window.remoteOf index = remote

theorem mem_requestsOf {remote : RemoteId} {index : Fin window.count} : index ∈ window.requestsOf remote ↔ window.remoteOf index = remote := by
  simp [requestsOf]

theorem get?_byRemote (remote : RemoteId) :
    window.byRemote.get? remote = if window.requestsOf remote = [] then none else some (window.requestsOf remote) := by
  have appended (indices before : List (Fin window.count)) :
      indices.foldl (fun bound index => some (bound.getD [] ++ [index])) (some before) = some (before ++ indices) := by
    induction indices generalizing before with
    | nil => rw [List.append_nil]; rfl
    | cons index rest ih => exact (ih _).trans (congrArg some (List.append_assoc ..))
  have collected (indices : List (Fin window.count)) :
      indices.foldl (fun bound index => some (bound.getD [] ++ [index])) none = if indices = [] then none else some indices := by
    cases indices with
    | nil => rfl
    | cons index rest => exact appended rest [index]
  have own : window.requestsOf remote = (List.finRange window.count).filter fun index => window.remoteOf index = remote := rfl
  rw [byRemote, SortedMap.get?_foldl_alter, SortedMap.get?_empty, collected, own]
  congr!

theorem entries_byRemote {entry : RemoteId × List (Fin window.count)} (member : entry ∈ window.byRemote.entries) :
    entry.2 = window.requestsOf entry.1 := by
  have bound := SortedMap.get?_of_mem member
  rw [get?_byRemote] at bound
  split_ifs at bound
  exact (Option.some.inj bound).symm

/-- The requests of all remotes are all requests. -/
theorem items_byRemote_perm : window.byRemote.items.Perm (List.finRange window.count) := by
  refine (List.perm_ext_iff_of_nodup (List.nodup_flatMap.mpr ⟨fun entry member => ?_, ?_⟩) (List.nodup_finRange _)).mpr fun index => ?_
  · rw [window.entries_byRemote member]
    exact (List.nodup_finRange _).filter _
  · refine window.byRemote.sorted.imp_of_mem fun {first second} isFirst isSecond below index inFirst inSecond => ?_
    rw [window.entries_byRemote isFirst] at inFirst
    rw [window.entries_byRemote isSecond] at inSecond
    exact below.ne ((window.mem_requestsOf.mp inFirst).symm.trans (window.mem_requestsOf.mp inSecond))
  · have own : index ∈ window.requestsOf (window.remoteOf index) := window.mem_requestsOf.mpr rfl
    refine iff_of_true (SortedMap.mem_items.mpr ⟨window.remoteOf index, _, ?_, own⟩) (List.mem_finRange index)
    rw [get?_byRemote, if_neg (List.ne_nil_of_mem own)]

/-- The fair order has every request once. -/
theorem fairRequestOrder_perm : (fairRequestOrder window.byRemote).Perm (List.finRange window.count) :=
  (List.roundRobin_perm _).trans (List.flatMap_def ▸ window.items_byRemote_perm)

/-- The fair order keeps the order of each remote. -/
theorem sublist_fairRequestOrder (remote : RemoteId) : (window.requestsOf remote).Sublist (fairRequestOrder window.byRemote) := by
  by_cases none : window.requestsOf remote = []
  · rw [none]
    exact List.nil_sublist _
  · have bound := window.get?_byRemote remote
    rw [if_neg none, SortedMap.get?_eq_some_iff] at bound
    exact List.sublist_roundRobin (List.mem_map_of_mem bound)

end PresenceWindow

/-! ## Runs -/

namespace PresenceDrive

variable {σ : Type} {window : PresenceWindow σ} {drive : PresenceDrive window}

theorem Accounts.init (others : List RemoteId) (isCancelled : Bool) : Accounts (init window others isCancelled) := by
  have places (index : Fin window.count) : (PresenceDrive.init window others isCancelled).places index = 1 :=
    (window.fairRequestOrder_perm.count_eq index).trans (List.count_eq_one_of_mem (List.nodup_finRange _) (List.mem_finRange index))
  exact ⟨fun index => (places index).le, fun _ index => (places index).ge, fun _ => rfl, rfl, rfl, List.Pairwise.nil, nofun, nofun, nofun, nofun, nofun⟩

theorem Step.accounts {before after : PresenceDrive window} (step : Step before after) (accounts : Accounts before) : Accounts after := by
  cases step with
  | take => exact accounts.keep _ _
  | give => exact accounts.keep _ _
  | cancel => exact accounts.keep _ _
  | work running works => exact accounts.work running works
  | enter top => exact accounts.enter top
  | fill admitting admitted =>
    obtain ⟨next, same, kept⟩ := accounts.exists_admitNext admitting
    cases admitted.symm.trans same
    exact kept
  | acquire waiting _ acquired =>
    obtain ⟨next, same, kept⟩ := accounts.exists_acquired waiting
    cases acquired.symm.trans same
    exact kept
  | refuse waiting => exact accounts.refused waiting
  | report waiting running reports => exact accounts.reports waiting running reports
  | refill ready => exact accounts.rephase (ready ▸ ⟨rfl, rfl⟩) ⟨rfl, rfl⟩ nofun nofun

theorem Reached.accounts (reached : Reached window drive) : Accounts drive := by
  induction reached with
  | start => exact .init _ _
  | step _ step accounts => exact step.accounts accounts

/-- The requests that the observer was called with. -/
def answered (drive : PresenceDrive window) : List (Fin window.count) :=
  drive.log.filterMap fun event => match event with
    | .answered index _ => some index
    | _ => none

theorem answered_sublist (drive : PresenceDrive window) : drive.answered.Sublist drive.outcomes := by
  unfold answered outcomes
  induction drive.log with
  | nil => exact List.Sublist.slnil
  | cons event rest ih =>
    cases event with
    | admitted => exact ih
    | answered index => exact ih.cons_cons index
    | failed index => exact ih.cons index
    | cancelled => exact ih

/-- Without an error every outcome is an answer. -/
theorem mem_answered (drive : PresenceDrive window) (clean : drive.errors = []) {index : Fin window.count} (outcome : index ∈ drive.outcomes) :
    index ∈ drive.answered := by
  obtain ⟨event, member, isOutcome⟩ := List.mem_filterMap.mp outcome
  cases event with
  | admitted => cases isOutcome
  | answered other present =>
    cases isOutcome
    exact List.mem_filterMap.mpr ⟨_, member, rfl⟩
  | failed other error =>
    have isError : (other, error) ∈ drive.errors := List.mem_filterMap.mpr ⟨_, member, rfl⟩
    rw [clean] at isError
    cases isError
  | cancelled => cases isOutcome

end PresenceDrive

open PresenceDrive in
/-- The observer is called once for a request and with its answer. A check that succeeds has answered all requests. One that
fails has admitted nothing after its first error, has drained everything that it admitted and returns the first error that it
has seen. Requests are ordered fairly. -/
theorem presence_delivers_each_answer_once {σ : Type} {window : PresenceWindow σ} {drive : PresenceDrive window} (reached : Reached window drive) :
    (drive.answered.Nodup ∧ ∀ index present, .answered index present ∈ drive.log → window.probe index = .ok present) ∧
      (drive.phase = .returned →
        (drive.firstError = none → ∀ index, index ∈ drive.answered) ∧
        ∀ index error, drive.firstError = some (index, error) →
          PresenceEvent.Stopped drive.log ∧ drive.outcomes.Nodup ∧ drive.outcomes.Perm drive.admissions ∧
          (index, error) ∈ drive.errors ∧ ∀ other ∈ drive.errors, index ≤ other.1) ∧
      (fairRequestOrder window.byRemote).Perm (List.finRange window.count) ∧
      ∀ remote, ((List.finRange window.count).filter fun index => window.remoteOf index = remote).Sublist (fairRequestOrder window.byRemote) := by
  have accounts := reached.accounts
  have once : drive.outcomes.Nodup := by
    refine List.nodup_iff_count_le_one.mpr fun index => le_trans ?_ (accounts.atMostOnce index)
    exact Nat.le_add_left _ _
  refine ⟨⟨once.sublist drive.answered_sublist, accounts.own⟩, fun returned => ?_, window.fairRequestOrder_perm, window.sublist_fairRequestOrder⟩
  obtain ⟨idle, pending⟩ := accounts.settled returned
  have landed : drive.inFlight = [] := List.eq_nil_of_length_eq_zero (accounts.entries.symm.trans idle)
  refine ⟨fun clean index => ?_, fun index error known => ⟨accounts.stopped, once, ?_, ?_⟩⟩
  · refine drive.mem_answered ((retained_spec _).1.mp (accounts.error.symm.trans clean)) (List.count_pos_iff.mp ?_)
    have place := accounts.complete clean index
    unfold places at place
    rw [pending clean, returned, landed] at place
    simpa [acquiring] using place
  · refine List.perm_iff_count.mpr fun other => ?_
    rw [accounts.drained other, landed, List.count_nil, Nat.zero_add]
  · exact (retained_spec _).2 _ (accounts.error.symm.trans known)

/-! ## A worker that crashes -/

namespace CrashedWorker

def limits : RemoteConcurrency := ⟨2, 2, Nat.two_pos, Nat.two_pos⟩

theorem batchLimit_pos (_ : RemoteId) : 0 < 2 := Nat.two_pos

/-- Two requests to one remote in one batch. -/
def window : PresenceWindow ℕ := ⟨2, fun _ => ⟨0⟩, fun _ => .ok true, fun _ => 2, batchLimit_pos, 2, Nat.two_pos, limits⟩

def first : Fin window.count := ⟨0, by decide⟩

def second : Fin window.count := ⟨1, by decide⟩

def opened : PresenceDrive window := { PresenceDrive.init window [] false with pending := [first, second] }

theorem opened_reached : PresenceDrive.Reached window opened := by
  have order : fairRequestOrder window.byRemote = [first, second] :=
    ((window.sublist_fairRequestOrder ⟨0⟩).eq_of_length window.fairRequestOrder_perm.length_eq.symm).symm
  have same : PresenceDrive.init window [] false = opened := by
    rw [opened, ← order]
    rfl
  exact same ▸ .start [] false

/-- The worker has answered the first check and has crashed. -/
def drive : PresenceDrive window where
  isCancelled := false
  others := []
  phase := .returned
  pending := []
  active := []
  activeEntries := 0
  firstError := some (second, .task)
  log := [.admitted first, .admitted second, .answered first true, .failed second .task]

theorem reached : PresenceDrive.Reached window drive := by
  have work {drive : PresenceDrive window} {batch next : FileBatch (Fin window.count) ℕ} (reached : PresenceDrive.Reached window drive)
      (running : drive.active = [.file batch]) (works : batch.Works drive.isCancelled window.probe next) :
      PresenceDrive.Reached window { drive with active := [.file next] } := reached.step (@PresenceDrive.Step.work _ _ _ [] [] _ _ running works)
  have report {drive : PresenceDrive window} {batch : FileBatch (Fin window.count) ℕ} {index : Fin window.count}
      {result : Except (PresenceProbeError ℕ) Bool} {rest : Option (PresenceStream (Fin window.count) ℕ)}
      (reached : PresenceDrive.Reached window drive) (waiting : drive.phase = .wait ∨ drive.phase = .ready) (running : drive.active = [.file batch])
      (reports : (PresenceStream.file batch).Reports drive.isCancelled window.probe index result rest) :
      PresenceDrive.Reached window (drive.handle index result (rest.toList ++ [])) :=
    reached.step (@PresenceDrive.Step.report _ _ _ [] [] _ _ _ _ waiting running reports)
  have launched := (((opened_reached.step (.enter rfl)).step (.fill rfl rfl)).step (.fill rfl rfl)).step (.fill rfl rfl)
  have answered := report (work (work launched rfl (.start rfl)) rfl (.check rfl rfl)) (.inl rfl) rfl (.message rfl rfl nofun)
  have crashed := report (work answered rfl (.crash fun _ running => nomatch running)) (.inr rfl) rfl (.closed rfl rfl rfl)
  exact (crashed.step (.refill rfl)).step (.enter rfl)

end CrashedWorker

open CrashedWorker in
/-- The first request is answered and the second one reports the crash. -/
theorem presence_delivers_each_answer_once_crashed :
    drive.answered = [first] ∧ drive.outcomes.Perm drive.admissions ∧ drive.firstError = some (second, .task) :=
  ⟨rfl, (((presence_delivers_each_answer_once reached).2.1 rfl).2 second .task rfl).2.2.1, rfl⟩

end Gat
