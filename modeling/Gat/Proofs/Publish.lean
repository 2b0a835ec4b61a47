import Gat.Model.Publish
import Gat.Soundness.Admission
import Gat.ToMathlib.KeyedFold
import Mathlib.Data.List.Induction

/-! # The accounts of the publication pipeline

An obligation is queued, checked, waiting for a verification, ready, uploading or done. It is nowhere twice, and below the
error it is somewhere.
-/

namespace Gat

/-! ## Elements of queues -/

section Counts

variable {κ ν ι : Type} [LinearOrder κ] [DecidableEq ι] (held : ν → List ι)

/-- How often an element is held by the values of a map. -/
def heldCount (map : SortedMap κ ν) (index : ι) : ℕ := map.total (· + ·) (fun _ value => (held value).count index) 0

/-- How often an element is in the queues of a map. -/
def queueCount (queues : SortedMap κ (List ι)) (index : ι) : ℕ := heldCount id queues index

@[simp] theorem heldCount_empty (index : ι) : heldCount held (SortedMap.empty : SortedMap κ ν) index = 0 := rfl

theorem heldCount_erase (map : SortedMap κ ν) (key : κ) (index : ι) :
    heldCount held (map.erase key) index + ((map.get? key).elim [] held).count index = heldCount held map index := by
  unfold heldCount
  cases found : map.get? key with
  | none =>
    rw [SortedMap.erase_of_get?_eq_none found]
    rfl
  | some old =>
    rw [SortedMap.total_of_get? _ _ _ found]
    rfl

/-- Replacing the value of a key exchanges its elements. -/
theorem heldCount_insert (map : SortedMap κ ν) (key : κ) (value : ν) (index : ι) :
    heldCount held (map.insert key value) index + ((map.get? key).elim [] held).count index =
      heldCount held map index + (held value).count index := by
  have erased := heldCount_erase held map key index
  have inserted : heldCount held (map.insert key value) index = heldCount held (map.erase key) index + (held value).count index :=
    SortedMap.total_insert _ _ _
  omega

theorem heldCount_pos_iff {map : SortedMap κ ν} {index : ι} :
    0 < heldCount held map index ↔ ∃ key value, map.get? key = some value ∧ index ∈ held value := by
  have foldl (entries : List (κ × ν)) (start : ℕ) :
      entries.foldl (fun sum entry => sum + (held entry.2).count index) start =
        start + (entries.flatMap fun entry => held entry.2).count index := by
    induction entries generalizing start with
    | nil => rfl
    | cons entry rest ih => rw [List.foldl_cons, ih, List.flatMap_cons, List.count_append, Nat.add_assoc]
  have items : heldCount held map index = (map.entries.flatMap fun entry => held entry.2).count index :=
    (foldl map.entries 0).trans (Nat.zero_add _)
  rw [items, List.count_pos_iff, List.mem_flatMap]
  constructor
  · rintro ⟨entry, member, holds⟩
    exact ⟨entry.1, entry.2, SortedMap.get?_of_mem member, holds⟩
  · rintro ⟨key, value, found, holds⟩
    exact ⟨(key, value), SortedMap.get?_eq_some_iff.mp found, holds⟩

omit [DecidableEq ι] in
theorem elim_eq_getD (queue : Option (List ι)) : queue.elim [] id = queue.getD [] := by cases queue <;> rfl

/-- Replacing the queue of a key exchanges its elements. -/
theorem queueCount_insert (queues : SortedMap κ (List ι)) (key : κ) (queue : List ι) (index : ι) :
    queueCount (queues.insert key queue) index + ((queues.get? key).getD []).count index = queueCount queues index + queue.count index := by
  have inserted := heldCount_insert id queues key queue index
  rwa [elim_eq_getD] at inserted

/-- Filtering all queues keeps what passes. -/
theorem queueCount_filter (queues : SortedMap κ (List ι)) (keep : ι → Bool) (index : ι) :
    queueCount (queues.mapValues fun _ queue => queue.filter keep) index = if keep index then queueCount queues index else 0 := by
  have filtered (queue : List ι) : (queue.filter keep).count index = if keep index then queue.count index else 0 := by
    split_ifs with kept
    · exact List.count_filter kept
    · exact List.count_eq_zero.mpr fun member => kept (List.mem_filter.mp member).2
  have foldl (entries : List (κ × List ι)) (start : ℕ) :
      ((entries.map fun entry => (entry.1, entry.2.filter keep)).foldl (fun sum entry => sum + entry.2.count index)
          (if keep index then start else 0)) =
        if keep index then entries.foldl (fun sum entry => sum + entry.2.count index) start else 0 := by
    induction entries generalizing start with
    | nil => rfl
    | cons entry rest ih =>
      rw [List.map_cons, List.foldl_cons, List.foldl_cons, ← ih, filtered]
      split_ifs <;> rfl
  have whole := foldl queues.entries 0
  rwa [ite_self] at whole

theorem queueCount_pos_iff {queues : SortedMap κ (List ι)} {index : ι} : 0 < queueCount queues index ↔ ∃ key, index ∈ (queues.get? key).getD [] := by
  refine (heldCount_pos_iff id).trans (exists_congr fun key => ?_)
  cases queues.get? key with
  | none => exact ⟨nofun, nofun⟩
  | some queue => exact ⟨fun ⟨_, same, member⟩ => Option.some.inj same ▸ member, fun member => ⟨queue, rfl, member⟩⟩

end Counts

/-! ## What happens to an obligation -/

namespace PublishWindow

variable {ε : Type} (window : PublishWindow ε)

/-- The remote misses the object and the cache has it. -/
def Uploads (index : Fin window.count) : Prop := window.probe index = .ok false ∧ window.verify (window.oidOf index) = .ok .valid

/-- The terminal status that the results of its own work give an obligation. -/
inductive Terminal (index : Fin window.count) : PublishStatus → Prop
  | alreadyPresent (present : window.probe index = .ok true) : Terminal index .alreadyPresent
  | rejected {rejection : CacheRejection} (missing : window.probe index = .ok false)
    (rejected : window.verify (window.oidOf index) = .ok (.rejected rejection)) : Terminal index rejection.status
  | uploaded (uploads : window.Uploads index) (uploaded : window.upload index = .ok ()) : Terminal index .uploaded

/-- The own work of an obligation fails. -/
inductive Fails (index : Fin window.count) : PublishError ε → Prop
  | presence {source : ε} (failed : window.probe index = .error source) : Fails index (.presence source)
  | verification {source : ε} (missing : window.probe index = .ok false) (failed : window.verify (window.oidOf index) = .error source) :
    Fails index (.verification source)
  | upload {source : ε} (uploads : window.Uploads index) (failed : window.upload index = .error source) : Fails index (.upload source)

variable {window} {index : Fin window.count}

/-- What ends well does not fail. -/
theorem Terminal.not_fails {status : PublishStatus} (terminal : window.Terminal index status) {error : PublishError ε} :
    ¬window.Fails index error := by
  intro fails
  cases terminal with
  | alreadyPresent present =>
    cases fails with
    | presence failed => cases present.symm.trans failed
    | verification missing => cases present.symm.trans missing
    | upload uploads => cases present.symm.trans uploads.1
  | rejected missing rejected =>
    cases fails with
    | presence failed => cases missing.symm.trans failed
    | verification _ failed => cases rejected.symm.trans failed
    | upload uploads => cases rejected.symm.trans uploads.2
  | uploaded uploads uploaded =>
    cases fails with
    | presence failed => cases uploads.1.symm.trans failed
    | verification _ failed => cases uploads.2.symm.trans failed
    | upload _ failed => cases uploaded.symm.trans failed

end PublishWindow

namespace PipelineState

variable {ε : Type} {window : PublishWindow ε}

/-- The waiting obligations of a verification. -/
def waitersOf {ι : Type} : VerificationState ι → List ι
  | .running waiting => waiting.toList
  | _ => []

/-- How often an obligation is queued, waiting, ready or done. -/
def places (state : PipelineState window) (index : Fin window.count) : ℕ :=
  queueCount state.pendingPresence index + heldCount waitersOf state.verification index + queueCount state.readyUploads index +
    (state.statuses index).toList.length

/-- An obligation is before the error, if there is one. -/
def Below (state : PipelineState window) (index : Fin window.count) : Prop := ∀ current, state.error = some current → index < current.1

/-- The content of an object has been verified. -/
def Settled (state : PipelineState window) (oid : Oid) : Prop :=
  state.verification.get? oid = some .valid ∨ ∃ rejection, state.verification.get? oid = some (.invalid rejection)

/-- What the variables say about the obligations, with a batch of running verifications. -/
structure Facts (batch : List Oid) (state : PipelineState window) : Prop where
  pending : ∀ remote, ∀ index ∈ (state.pendingPresence.get? remote).getD [], window.remoteOf index = remote
  ready : ∀ remote, ∀ index ∈ (state.readyUploads.get? remote).getD [], window.remoteOf index = remote ∧
    window.probe index = .ok false ∧ state.verification.get? (window.oidOf index) = some .valid
  waiting : ∀ oid waiting, state.verification.get? oid = some (.running waiting) →
    ∀ index ∈ waiting.toList, window.oidOf index = oid ∧ window.probe index = .ok false
  valid : ∀ oid, state.verification.get? oid = some .valid → window.verify oid = .ok .valid
  invalid : ∀ oid rejection, state.verification.get? oid = some (.invalid rejection) → window.verify oid = .ok (.rejected rejection)
  asked : ∀ oid, state.verification.get? oid ≠ none → ∃ index, window.oidOf index = oid ∧ window.probe index = .ok false
  terminal : ∀ index status, state.statuses index = some status → window.Terminal index status
  settled : ∀ index, state.statuses index ≠ none → window.probe index = .ok false → state.Settled (window.oidOf index)
  failed : ∀ current, state.error = some current → window.Fails current.1 current.2
  distinct : (batch ++ state.pendingVerification).Nodup
  running : ∀ oid ∈ batch ++ state.pendingVerification, ∃ waiting, state.verification.get? oid = some (.running waiting)

/-- An obligation is at one place at most, and below the error at one, when some are outside. -/
structure Placed (outside : List (Fin window.count)) (state : PipelineState window) : Prop where
  atMost : ∀ index, outside.count index + state.places index ≤ 1
  atLeast : ∀ index, state.Below index → 1 ≤ outside.count index + state.places index

/-- Whatever is waited for below the error is being verified or will be. -/
def Live (batch : List Oid) (state : PipelineState window) : Prop :=
  ∀ oid waiting, state.verification.get? oid = some (.running waiting) → (∃ index ∈ waiting.toList, state.Below index) →
    oid ∈ batch ++ state.pendingVerification

/-- The accounts of a pipeline. -/
structure Accounts (batch : List Oid) (outside : List (Fin window.count)) (state : PipelineState window) : Prop where
  facts : state.Facts batch
  placed : state.Placed outside
  live : state.Live batch

/-- What completions leave alone, until there is an error. -/
structure Extends (state next : PipelineState window) : Prop where
  order : next.remoteOrder = state.remoteOrder
  active : next.verificationActive = state.verificationActive
  error : next.error = none → state.error = none
  valid : ∀ oid, state.verification.get? oid = some .valid → next.verification.get? oid = some .valid
  ready : next.error = none → ∀ remote, (state.readyUploads.get? remote).getD [] ≠ [] → (next.readyUploads.get? remote).getD [] ≠ []
  queued : next.error = none → ∀ oid, next.pendingVerification.count oid + (if state.verification.get? oid = none then 0 else 1) =
    state.pendingVerification.count oid + if next.verification.get? oid = none then 0 else 1

namespace Extends

variable {state next last : PipelineState window}

theorem refl (state : PipelineState window) : Extends state state := ⟨rfl, rfl, id, fun _ => id, fun _ _ => id, fun _ _ => rfl⟩

theorem trans (first : Extends state next) (second : Extends next last) : Extends state last where
  order := second.order.trans first.order
  active := second.active.trans first.active
  error none := first.error (second.error none)
  valid oid valid := second.valid oid (first.valid oid valid)
  ready none remote some := second.ready none remote (first.ready (second.error none) remote some)
  queued none oid := by
    have left := first.queued (second.error none) oid
    have right := second.queued none oid
    omega

end Extends

/-! ## Places -/

variable {state next : PipelineState window} {batch : List Oid} {outside : List (Fin window.count)} {index : Fin window.count}

theorem any_le_iff : (state.error.any fun frontier => frontier.1 ≤ index) = true ↔ ¬state.Below index := by
  unfold Below
  cases state.error with
  | none => simp
  | some current => simp

namespace Placed

/-- A step that only moves obligations. -/
theorem moved (placed : state.Placed outside) (error : next.error = state.error) {others : List (Fin window.count)}
    (counts : ∀ other, others.count other + next.places other = outside.count other + state.places other) : next.Placed others where
  atMost other := (counts other).trans_le (placed.atMost other)
  atLeast other below := by
    rw [counts]
    exact placed.atLeast other (by rwa [Below, error] at below)

theorem perm (placed : state.Placed outside) {others : List (Fin window.count)} (same : outside.Perm others) : state.Placed others :=
  placed.moved rfl fun other => by rw [same.count_eq]

/-- What is outside has no status. -/
theorem statuses_eq_none (placed : state.Placed (index :: outside)) : state.statuses index = none := by
  have atMost := placed.atMost index
  rw [List.count_cons_self, places] at atMost
  cases done : state.statuses index with
  | none => rfl
  | some status =>
    rw [done, Option.toList_some, List.length_singleton] at atMost
    omega

/-- An obligation at or beyond the error can be left. -/
theorem drop (placed : state.Placed (index :: outside)) (beyond : ¬state.Below index) : state.Placed outside where
  atMost other := by
    have atMost := placed.atMost other
    rw [List.count_cons] at atMost
    omega
  atLeast other below := by
    have atLeast := placed.atLeast other below
    rwa [List.count_cons_of_ne] at atLeast
    rintro rfl
    exact beyond below

/-- Completing an obligation from outside is possible, and puts it to the done ones. -/
theorem completed (placed : state.Placed (index :: outside)) (status : PublishStatus) :
    state.completeObligation index status = some { state with statuses := Function.update state.statuses index (some status) } ∧
      { state with statuses := Function.update state.statuses index (some status) }.Placed outside := by
  refine ⟨if_pos placed.statuses_eq_none, placed.moved (by rfl) fun other => ?_⟩
  rw [List.count_cons, places, places]
  dsimp only
  by_cases same : index = other
  · subst same
    rw [Function.update_self, placed.statuses_eq_none, Option.toList_some, Option.toList_none, List.length_singleton, List.length_nil,
      if_pos (beq_self_eq_true _)]
    omega
  · rw [Function.update_of_ne (Ne.symm same), if_neg (by simpa using same)]
    omega

/-- Completing several obligations with one status. -/
theorem completedAll {indices : List (Fin window.count)} (status : PublishStatus) (placed : state.Placed (indices ++ outside)) :
    ∃ statuses, indices.foldlM (fun state index => state.completeObligation index status) state = some { state with statuses } ∧
      { state with statuses }.Placed outside ∧ ∀ index, statuses index = if index ∈ indices then some status else state.statuses index := by
  induction indices generalizing state with
  | nil => exact ⟨state.statuses, rfl, placed, fun _ => rfl⟩
  | cons index indices ih =>
    obtain ⟨first, placed⟩ := placed.completed status
    obtain ⟨statuses, rest, placed, read⟩ := ih placed
    refine ⟨statuses, ?_, placed, fun other => ?_⟩
    · rw [List.foldlM_cons, first]
      exact rest
    · rw [read]
      dsimp only
      by_cases same : other = index
      · subst same
        rw [Function.update_self, ite_self, if_pos List.mem_cons_self]
      · rw [Function.update_of_ne same]
        simp [same]

/-- Queueing an obligation from outside for its upload. Beyond the error it is left. -/
theorem enqueued (placed : state.Placed (index :: outside)) : ∃ ready, state.enqueueUpload index = { state with readyUploads := ready } ∧
    { state with readyUploads := ready }.Placed outside ∧
    ∀ remote, ∃ more, (ready.get? remote).getD [] = (state.readyUploads.get? remote).getD [] ++ more ∧
      ∀ other ∈ more, other = index ∧ window.remoteOf index = remote := by
  by_cases below : state.Below index
  · have taken : ¬(state.error.any fun frontier => frontier.1 ≤ index) = true := fun any => any_le_iff.mp any below
    refine ⟨_, if_neg taken, placed.moved (by rfl) fun other => ?_, fun remote => ?_⟩
    · have inserted := queueCount_insert state.readyUploads (window.remoteOf index)
        ((state.readyUploads.get? (window.remoteOf index)).getD [] ++ [index]) other
      rw [List.count_append, List.count_singleton] at inserted
      rw [List.count_cons, places, places]
      dsimp only
      omega
    · rw [SortedMap.get?_insert]
      split_ifs with same
      · subst same
        exact ⟨[index], rfl, fun other member => ⟨List.mem_singleton.mp member, rfl⟩⟩
      · exact ⟨[], (List.append_nil _).symm, nofun⟩
  · exact ⟨state.readyUploads, if_pos (any_le_iff.mpr below), placed.drop below, fun remote => ⟨[], (List.append_nil _).symm, nofun⟩⟩

theorem enqueuedAll {indices : List (Fin window.count)} (placed : state.Placed (indices ++ outside)) :
    ∃ ready, indices.foldl enqueueUpload state = { state with readyUploads := ready } ∧ { state with readyUploads := ready }.Placed outside ∧
      ∀ remote, ∃ more, (ready.get? remote).getD [] = (state.readyUploads.get? remote).getD [] ++ more ∧
        ∀ other ∈ more, other ∈ indices ∧ window.remoteOf other = remote := by
  induction indices generalizing state with
  | nil => exact ⟨state.readyUploads, rfl, placed, fun remote => ⟨[], (List.append_nil _).symm, nofun⟩⟩
  | cons index indices ih =>
    obtain ⟨first, enqueued, placed, firstMore⟩ := placed.enqueued
    obtain ⟨ready, rest, placed, restMore⟩ := ih placed
    refine ⟨ready, ?_, placed, fun remote => ?_⟩
    · rw [List.foldl_cons, enqueued]
      exact rest
    · obtain ⟨some, firstQueue, own⟩ := firstMore remote
      obtain ⟨more, restQueue, others⟩ := restMore remote
      refine ⟨some ++ more, by rw [restQueue, firstQueue, List.append_assoc], fun other member => ?_⟩
      rcases List.mem_append.mp member with first | later
      · obtain ⟨rfl, same⟩ := own other first
        exact ⟨List.mem_cons_self, same⟩
      · exact ⟨List.mem_cons_of_mem _ (others other later).1, (others other later).2⟩

end Placed

/-! ## Completions of checks and uploads -/

/-- Nothing is known of an object, or it is being verified. -/
def Unsettled (state : PipelineState window) (oid : Oid) : Prop :=
  ∀ verification, state.verification.get? oid = some verification → ∃ waiting, verification = .running waiting

theorem Unsettled.ne_of_valid {oid other : Oid} (unsettled : state.Unsettled oid) (valid : state.verification.get? other = some .valid) : oid ≠ other := by
  rintro rfl
  obtain ⟨_, same⟩ := unsettled _ valid
  cases same

theorem Unsettled.ne_of_invalid {oid other : Oid} {rejection : CacheRejection} (unsettled : state.Unsettled oid)
    (invalid : state.verification.get? other = some (.invalid rejection)) : oid ≠ other := by
  rintro rfl
  obtain ⟨_, same⟩ := unsettled _ invalid
  cases same

theorem Unsettled.valid_insert {oid other : Oid} (unsettled : state.Unsettled oid) {verification : VerificationState (Fin window.count)}
    (inserted : next.verification = state.verification.insert oid verification) (valid : state.verification.get? other = some .valid) :
    next.verification.get? other = some .valid := by
  rw [inserted, SortedMap.get?_insert, if_neg (unsettled.ne_of_valid valid)]
  exact valid

/-- Other objects stay settled when an unsettled one changes. -/
theorem Settled.insert {oid other : Oid} (settled : state.Settled other) (unsettled : state.Unsettled oid)
    {verification : VerificationState (Fin window.count)} (inserted : next.verification = state.verification.insert oid verification) :
    next.Settled other := by
  unfold Settled
  rw [inserted, SortedMap.get?_insert]
  rcases settled with valid | ⟨rejection, invalid⟩
  · rw [if_neg (unsettled.ne_of_valid valid)]
    exact .inl valid
  · rw [if_neg (unsettled.ne_of_invalid invalid)]
    exact .inr ⟨rejection, invalid⟩

namespace Accounts

/-- An obligation from outside gets its status. -/
theorem completed (accounts : state.Accounts batch (index :: outside)) {status : PublishStatus} (terminal : window.Terminal index status)
    (settled : window.probe index = .ok false → state.Settled (window.oidOf index)) :
    ∃ next, state.completeObligation index status = some next ∧ next.Accounts batch outside ∧ state.Extends next := by
  obtain ⟨completes, placed⟩ := accounts.placed.completed status
  refine ⟨_, completes, ⟨{ accounts.facts with
    terminal := fun other found status => ?_
    settled := fun other done missing => ?_ }, placed, accounts.live⟩, ⟨rfl, rfl, id, fun _ => id, fun _ _ => id, fun _ _ => rfl⟩⟩
  · dsimp only at status
    by_cases same : other = index
    · subst same
      rw [Function.update_self] at status
      cases status
      exact terminal
    · rw [Function.update_of_ne same] at status
      exact accounts.facts.terminal other found status
  · dsimp only at done
    by_cases same : other = index
    · subst same
      exact settled missing
    · rw [Function.update_of_ne same] at done
      exact accounts.facts.settled other done missing

/-- An obligation from outside is queued for its upload. -/
theorem enqueued (accounts : state.Accounts batch (index :: outside)) (missing : window.probe index = .ok false)
    (valid : state.verification.get? (window.oidOf index) = some .valid) :
    (state.enqueueUpload index).Accounts batch outside ∧ state.Extends (state.enqueueUpload index) := by
  obtain ⟨ready, enqueues, placed, queues⟩ := accounts.placed.enqueued
  rw [enqueues]
  refine ⟨⟨{ accounts.facts with ready := fun remote other member => ?_ }, placed, accounts.live⟩,
    ⟨rfl, rfl, id, fun _ => id, fun _ remote some => ?_, fun _ _ => rfl⟩⟩
  · obtain ⟨more, queue, own⟩ := queues remote
    dsimp only at member
    rw [queue] at member
    rcases List.mem_append.mp member with old | new
    · exact accounts.facts.ready remote other old
    · obtain ⟨rfl, here⟩ := own other new
      exact ⟨here, missing, valid⟩
  · obtain ⟨more, queue, -⟩ := queues remote
    dsimp only
    rw [queue]
    exact List.append_ne_nil_of_left_ne_nil some _

/-- An obligation from outside waits for the verification of its unsettled object. -/
theorem waits (accounts : state.Accounts batch (index :: outside)) (missing : window.probe index = .ok false)
    (unsettled : state.Unsettled (window.oidOf index)) (waiting : WaitingObligations (Fin window.count)) (more : List Oid)
    (pushed : waiting.toList = (state.verification.get? (window.oidOf index)).elim [] waitersOf ++ [index])
    (queued : ∀ oid ∈ more, oid = window.oidOf index) (distinct : (batch ++ (state.pendingVerification ++ more)).Nodup)
    (noted : state.Below index → window.oidOf index ∈ batch ++ (state.pendingVerification ++ more)) :
    { state with
      verification := state.verification.insert (window.oidOf index) (.running waiting)
      pendingVerification := state.pendingVerification ++ more }.Accounts batch outside where
  facts := { accounts.facts with
    ready := fun remote other member => by
      obtain ⟨here, missing, valid⟩ := accounts.facts.ready remote other member
      exact ⟨here, missing, unsettled.valid_insert rfl valid⟩
    waiting := fun oid others found other member => by
      dsimp only at found
      rw [SortedMap.get?_insert] at found
      split_ifs at found with same
      · cases found
        rw [pushed] at member
        rcases List.mem_append.mp member with old | new
        · cases known : state.verification.get? (window.oidOf index) with
          | none =>
            rw [known] at old
            cases old
          | some verification =>
            obtain ⟨before, rfl⟩ := unsettled _ known
            rw [known] at old
            exact same ▸ accounts.facts.waiting _ before known other old
        · rw [List.mem_singleton.mp new]
          exact ⟨same, missing⟩
      · exact accounts.facts.waiting oid others found other member
    valid := fun oid valid => by
      dsimp only at valid
      rw [SortedMap.get?_insert] at valid
      split_ifs at valid
      · cases valid
      · exact accounts.facts.valid oid valid
    invalid := fun oid rejection invalid => by
      dsimp only at invalid
      rw [SortedMap.get?_insert] at invalid
      split_ifs at invalid
      · cases invalid
      · exact accounts.facts.invalid oid rejection invalid
    asked := fun oid known => by
      dsimp only at known
      rw [SortedMap.get?_insert] at known
      split_ifs at known with same
      · exact ⟨index, same, missing⟩
      · exact accounts.facts.asked oid known
    settled := fun other done missing => (accounts.facts.settled other done missing).insert unsettled rfl
    distinct
    running := fun oid member => by
      dsimp only
      rw [SortedMap.get?_insert]
      split_ifs with same
      · exact ⟨waiting, rfl⟩
      · rw [← List.append_assoc, List.mem_append] at member
        rcases member with old | new
        · exact accounts.facts.running oid old
        · exact absurd (queued oid new).symm same }
  placed := accounts.placed.moved (by rfl) fun other => by
    have inserted := heldCount_insert waitersOf state.verification (window.oidOf index) (.running waiting) other
    have one : (waitersOf (.running waiting)).count other = _ := congrArg (List.count other) pushed
    rw [List.count_append, List.count_singleton] at one
    rw [List.count_cons, places, places]
    dsimp only
    omega
  live := fun oid others found below => by
    dsimp only at found ⊢
    rw [SortedMap.get?_insert] at found
    rw [← List.append_assoc, List.mem_append]
    split_ifs at found with same
    · obtain ⟨other, member, below⟩ := below
      cases found
      rw [← List.mem_append, List.append_assoc, ← same]
      rw [pushed] at member
      rcases List.mem_append.mp member with old | new
      · cases known : state.verification.get? (window.oidOf index) with
        | none =>
          rw [known] at old
          cases old
        | some verification =>
          obtain ⟨before, rfl⟩ := unsettled _ known
          rw [known] at old
          rw [← List.append_assoc]
          exact List.mem_append_left _ (accounts.live _ before known ⟨other, old, below⟩)
      · rw [List.mem_singleton.mp new] at below
        exact noted below
    · exact .inl (accounts.live oid others found below)

/-- The error of a failure. It is never beyond a former one, and no obligation is before it only now. -/
theorem recorded (accounts : state.Accounts batch outside) {error : PublishError ε} (fails : window.Fails index error) :
    (state.recordError index error).Accounts batch outside ∧ ¬(state.recordError index error).Below index ∧
      state.Extends (state.recordError index error) := by
  unfold recordError
  split_ifs with earlier
  · have before (other : Fin window.count) (below : other < index) : state.Below other := by
      intro current found
      rw [found] at earlier
      exact below.trans (of_decide_eq_true earlier)
    have within (queues : SortedMap RemoteId (List (Fin window.count))) (remote : RemoteId) (other : Fin window.count)
        (member : other ∈ (((queues.mapValues fun _ queue => queue.filter (· < index)).get? remote).getD [])) :
        other ∈ (queues.get? remote).getD [] := by
      rw [SortedMap.get?_mapValues] at member
      cases found : queues.get? remote with
      | none =>
        rw [found] at member
        exact member
      | some queue =>
        rw [found] at member
        exact (List.mem_filter.mp member).1
    refine ⟨⟨{ accounts.facts with
      pending := fun remote other member => accounts.facts.pending remote other (within _ remote other member)
      ready := fun remote other member => accounts.facts.ready remote other (within _ remote other member)
      failed := fun current found => ?_ }, ⟨fun other => ?_, fun other below => ?_⟩, fun oid waiting found below => ?_⟩, fun below => ?_,
      ⟨rfl, rfl, nofun, fun _ => id, nofun, nofun⟩⟩
    · cases found
      exact fails
    · have atMost := accounts.placed.atMost other
      rw [places] at atMost ⊢
      rw [queueCount_filter, queueCount_filter]
      dsimp only
      split_ifs <;> omega
    · have below := below _ rfl
      have atLeast := accounts.placed.atLeast other (before other below)
      rw [places] at atLeast ⊢
      rwa [queueCount_filter, queueCount_filter, if_pos (decide_eq_true below), if_pos (decide_eq_true below)]
    · obtain ⟨other, member, below⟩ := below
      exact accounts.live oid waiting found ⟨other, member, before other (below _ rfl)⟩
    · exact absurd (below _ rfl) (lt_irrefl index)
  · refine ⟨accounts, fun below => earlier ?_, .refl state⟩
    cases found : state.error with
    | none => rfl
    | some current => exact decide_eq_true (below current found)

/-- A completed check of an obligation from outside. The run goes on when its object is not forgotten. -/
theorem presenceCompleted (accounts : state.Accounts batch (index :: outside))
    (noted : window.probe index = .ok false → state.Below index → ∀ waiting,
      state.verification.get? (window.oidOf index) = some (.running waiting) → window.oidOf index ∈ batch ++ state.pendingVerification) :
    ∃ next, state.presenceCompleted index (window.probe index) = some next ∧ next.Accounts batch outside ∧ state.Extends next := by
  cases probed : window.probe index with
  | error source =>
    obtain ⟨recorded, beyond, extends_⟩ := accounts.recorded (.presence probed)
    exact ⟨_, rfl, ⟨recorded.facts, recorded.placed.drop beyond, recorded.live⟩, extends_⟩
  | ok present =>
    cases present with
    | true => exact accounts.completed (.alreadyPresent probed) fun missing => nomatch probed.symm.trans missing
    | false =>
      cases known : state.verification.get? (window.oidOf index) with
      | none =>
        have unsettled : state.Unsettled (window.oidOf index) := fun _ found => nomatch known.symm.trans found
        have fresh : window.oidOf index ∉ batch ++ state.pendingVerification := by
          intro member
          obtain ⟨waiting, found⟩ := accounts.facts.running _ member
          cases known.symm.trans found
        have waits := accounts.waits probed unsettled ⟨index, []⟩ [window.oidOf index] (by rw [known]; rfl)
          (fun _ => List.mem_singleton.mp) (by
            rw [← List.append_assoc]
            exact accounts.facts.distinct.append (List.nodup_singleton _) (List.disjoint_singleton.mpr fresh))
          (fun _ => by simp)
        refine ⟨_, by simp only [PipelineState.presenceCompleted, registerVerification, known], waits,
          ⟨rfl, rfl, id, fun _ => unsettled.valid_insert rfl, fun _ _ => id, fun _ oid => ?_⟩⟩
        dsimp only
        rw [SortedMap.get?_insert, List.count_append, List.count_singleton]
        split_ifs <;> simp_all
      | some verification =>
        cases verification with
        | running waiting =>
          have unsettled : state.Unsettled (window.oidOf index) := fun _ found => ⟨waiting, Option.some.inj (found.symm.trans known)⟩
          have waits := accounts.waits probed unsettled (waiting.push index) [] (by rw [known]; rfl) nofun
            (by simpa using accounts.facts.distinct) (fun below => by simpa using noted probed below waiting known)
          rw [List.append_nil] at waits
          refine ⟨_, by simp only [PipelineState.presenceCompleted, registerVerification, known], waits,
          ⟨rfl, rfl, id, fun _ => unsettled.valid_insert rfl, fun _ _ => id, fun _ oid => ?_⟩⟩
          dsimp only
          rw [SortedMap.get?_insert]
          split_ifs <;> simp_all
        | valid =>
          obtain ⟨queued, extends_⟩ := accounts.enqueued probed known
          exact ⟨_, by simp only [PipelineState.presenceCompleted, registerVerification, known], queued, extends_⟩
        | invalid rejection =>
          obtain ⟨next, completes, rest⟩ := accounts.completed (.rejected probed (accounts.facts.invalid _ _ known))
            fun _ => .inr ⟨rejection, known⟩
          exact ⟨next, by simpa only [PipelineState.presenceCompleted, registerVerification, known] using completes, rest⟩

/-- A completed upload of an obligation from outside. -/
theorem uploadCompleted (accounts : state.Accounts batch (index :: outside)) (missing : window.probe index = .ok false)
    (valid : state.verification.get? (window.oidOf index) = some .valid) :
    ∃ next, state.uploadCompleted index (window.upload index) = some next ∧ next.Accounts batch outside ∧ state.Extends next := by
  have uploads : window.Uploads index := ⟨missing, accounts.facts.valid _ valid⟩
  cases uploaded : window.upload index with
  | error source =>
    obtain ⟨recorded, beyond, extends_⟩ := accounts.recorded (.upload uploads uploaded)
    exact ⟨_, rfl, ⟨recorded.facts, recorded.placed.drop beyond, recorded.live⟩, extends_⟩
  | ok done => exact accounts.completed (.uploaded uploads uploaded) fun _ => .inl valid

end Accounts

/-! ## Completions of verifications -/

/-- The outcome of a verification as its state. -/
def settledBy {ι : Type} : VerifiedCacheEntry → VerificationState ι
  | .valid => .valid
  | .rejected rejection => .invalid rejection

namespace Accounts

variable {oid : Oid} {waiting : WaitingObligations (Fin window.count)} {entry : VerifiedCacheEntry}

/-- An object is settled, and what waits for it is ready or done. -/
theorem settles (accounts : state.Accounts (oid :: batch) outside) (found : state.verification.get? oid = some (.running waiting))
    (verified : window.verify oid = .ok entry) {ready : SortedMap RemoteId (List (Fin window.count))}
    {statuses : Fin window.count → Option PublishStatus}
    (queues : ∀ remote, ∀ other ∈ (ready.get? remote).getD [], other ∈ (state.readyUploads.get? remote).getD [] ∨
      other ∈ waiting.toList ∧ window.remoteOf other = remote ∧ entry = .valid)
    (read : ∀ other, statuses other = state.statuses other ∨
      other ∈ waiting.toList ∧ ∃ rejection, entry = .rejected rejection ∧ statuses other = some rejection.status)
    (placed : { state with verification := state.verification.insert oid (settledBy entry), readyUploads := ready, statuses }.Placed outside) :
    { state with verification := state.verification.insert oid (settledBy entry), readyUploads := ready, statuses }.Accounts batch outside := by
  have unsettled : state.Unsettled oid := fun _ other => ⟨waiting, Option.some.inj (other.symm.trans found)⟩
  have distinct := accounts.facts.distinct
  rw [List.cons_append, List.nodup_cons] at distinct
  have here : (state.verification.insert oid (settledBy entry)).get? oid = some (settledBy entry) := by rw [SortedMap.get?_insert, if_pos rfl]
  refine ⟨{ accounts.facts with
    ready := fun remote other member => ?_
    waiting := fun key others known other member => ?_
    valid := fun key valid => ?_
    invalid := fun key rejection invalid => ?_
    asked := fun key known => ?_
    terminal := fun other status done => ?_
    settled := fun other done missing => ?_
    distinct := distinct.2
    running := fun key member => ?_ }, placed, fun key others known below => ?_⟩
  · rcases queues remote other member with old | ⟨waits, same, rfl⟩
    · obtain ⟨same, missing, valid⟩ := accounts.facts.ready remote other old
      exact ⟨same, missing, unsettled.valid_insert rfl valid⟩
    · obtain ⟨rfl, missing⟩ := accounts.facts.waiting oid waiting found other waits
      exact ⟨same, missing, here⟩
  · dsimp only at known
    rw [SortedMap.get?_insert] at known
    split_ifs at known
    · cases entry <;> cases known
    · exact accounts.facts.waiting key others known other member
  · dsimp only at valid
    rw [SortedMap.get?_insert] at valid
    split_ifs at valid with same
    · subst same
      cases entry with
      | valid => exact verified
      | rejected => cases valid
    · exact accounts.facts.valid key valid
  · dsimp only at invalid
    rw [SortedMap.get?_insert] at invalid
    split_ifs at invalid with same
    · subst same
      cases entry with
      | valid => cases invalid
      | rejected =>
        cases invalid
        exact verified
    · exact accounts.facts.invalid key rejection invalid
  · dsimp only at known
    rw [SortedMap.get?_insert] at known
    split_ifs at known with same
    · subst same
      exact accounts.facts.asked oid fun absent => nomatch found.symm.trans absent
    · exact accounts.facts.asked key known
  · rcases read other with old | ⟨waits, rejection, rfl, new⟩
    · exact accounts.facts.terminal other status (old.symm.trans done)
    · obtain ⟨rfl, missing⟩ := accounts.facts.waiting oid waiting found other waits
      cases new.symm.trans done
      exact .rejected missing verified
  · rcases read other with old | ⟨waits, rejection, rfl, -⟩
    · exact (accounts.facts.settled other (fun none => done (old.trans none)) missing).insert unsettled rfl
    · obtain ⟨rfl, -⟩ := accounts.facts.waiting oid waiting found other waits
      exact .inr ⟨rejection, here⟩
  · obtain ⟨others, known⟩ := accounts.facts.running key (List.mem_cons_of_mem _ member)
    refine ⟨others, ?_⟩
    dsimp only
    rw [SortedMap.get?_insert, if_neg, known]
    rintro rfl
    exact distinct.1 member
  · dsimp only at known
    rw [SortedMap.get?_insert] at known
    split_ifs at known with same
    · cases entry <;> cases known
    · rcases List.mem_cons.mp (accounts.live key others known below) with rfl | member
      · exact absurd rfl same
      · exact member

/-- One object of a verified batch. -/
theorem committed (accounts : state.Accounts (oid :: batch) outside) (verified : window.verify oid = .ok entry) :
    ∃ next, state.commitEntry (oid, entry) = some next ∧ next.Accounts batch outside ∧ state.Extends next := by
  obtain ⟨waiting, found⟩ := accounts.facts.running oid List.mem_cons_self
  have unsettled : state.Unsettled oid := fun _ other => ⟨waiting, Option.some.inj (other.symm.trans found)⟩
  have erased : { state with verification := state.verification.erase oid }.Placed (waiting.toList ++ outside) := by
    refine accounts.placed.moved (by rfl) fun other => ?_
    have erased := heldCount_erase waitersOf state.verification oid other
    rw [found, Option.elim_some] at erased
    have same : (waitersOf (.running waiting)).count other = waiting.toList.count other := rfl
    rw [List.count_append, places, places]
    dsimp only
    omega
  have known (next : PipelineState window) (pending : next.pendingVerification = state.pendingVerification)
      (inserted : next.verification = state.verification.insert oid (settledBy entry)) (key : Oid) :
      next.pendingVerification.count key + (if state.verification.get? key = none then 0 else 1) =
        state.pendingVerification.count key + if next.verification.get? key = none then 0 else 1 := by
    rw [pending, inserted, SortedMap.get?_insert]
    split_ifs <;> simp_all
  have settled (next : PipelineState window) {ready : SortedMap RemoteId (List (Fin window.count))}
      {statuses : Fin window.count → Option PublishStatus}
      (placed : { state with verification := state.verification.erase oid, readyUploads := ready, statuses }.Placed outside) :
      { state with verification := state.verification.insert oid (settledBy entry), readyUploads := ready, statuses }.Placed outside := by
    refine placed.moved (by rfl) fun other => ?_
    have inserted := heldCount_insert waitersOf (state.verification.erase oid) oid (settledBy entry) other
    have nobody : (waitersOf (settledBy entry : VerificationState (Fin window.count))) = [] := by cases entry <;> rfl
    rw [SortedMap.get?_erase, if_pos rfl, Option.elim_none, nobody, SortedMap.insert_erase] at inserted
    rw [places, places]
    dsimp only at inserted ⊢
    omega
  cases entry with
  | valid =>
    obtain ⟨ready, enqueues, placed, queues⟩ := erased.enqueuedAll
    refine ⟨{ state with verification := state.verification.insert oid .valid, readyUploads := ready }, ?_,
      accounts.settles found verified (fun remote other member => ?_) (fun _ => .inl rfl) (settled state placed),
      ⟨rfl, rfl, id, fun _ => unsettled.valid_insert rfl, fun _ remote some => ?_, fun _ => known _ rfl rfl⟩⟩
    · simp only [commitEntry, found, enqueues, SortedMap.insert_erase]
    · obtain ⟨more, queue, own⟩ := queues remote
      rw [queue] at member
      exact (List.mem_append.mp member).imp_right fun new => ⟨(own other new).1, (own other new).2, rfl⟩
    · obtain ⟨more, queue, -⟩ := queues remote
      dsimp only at queue ⊢
      rw [queue]
      exact List.append_ne_nil_of_left_ne_nil some _
  | rejected rejection =>
    obtain ⟨statuses, completes, placed, read⟩ := erased.completedAll rejection.status
    refine ⟨{ state with verification := state.verification.insert oid (.invalid rejection), statuses }, ?_,
      accounts.settles found verified (fun remote other => .inl) (fun other => ?_) (settled state placed),
      ⟨rfl, rfl, id, fun _ => unsettled.valid_insert rfl, fun _ _ => id, fun _ => known _ rfl rfl⟩⟩
    · simp only [commitEntry, found, completes, SortedMap.insert_erase, Option.bind_eq_bind, Option.bind_some]
    · rw [read]
      split_ifs with waits
      · exact .inr ⟨waits, rejection, rfl, rfl⟩
      · exact .inl rfl

/-- A batch without objects left out. -/
theorem committedAll {oids : List Oid} {entries : List VerifiedCacheEntry} (accounts : state.Accounts oids outside)
    (verified : List.Forall₂ (fun oid entry => window.verify oid = .ok entry) oids entries) :
    ∃ next, (oids.zip entries).foldlM commitEntry state = some next ∧ next.Accounts [] outside ∧ state.Extends next := by
  induction verified generalizing state with
  | nil => exact ⟨state, rfl, accounts, .refl state⟩
  | cons verified _ ih =>
    obtain ⟨first, committed, accounts, extends_⟩ := accounts.committed verified
    obtain ⟨next, rest, accounts, further⟩ := ih accounts
    refine ⟨next, ?_, accounts, extends_.trans further⟩
    rw [List.zip_cons_cons, List.foldlM_cons, committed]
    exact rest

theorem inactive (accounts : state.Accounts batch outside) (active : Bool) :
    { state with verificationActive := active }.Accounts batch outside :=
  ⟨{ accounts.facts with }, ⟨accounts.placed.atMost, accounts.placed.atLeast⟩, accounts.live⟩

theorem exists_verificationErrorIndex (accounts : state.Accounts batch outside) {oids : List Oid} (within : oids ⊆ batch) (some : oids ≠ []) :
    ∃ index, state.verificationErrorIndex oids = .some index := by
  obtain ⟨oid, rest, rfl⟩ := List.exists_cons_of_ne_nil some
  obtain ⟨waiting, found⟩ := accounts.facts.running oid (List.mem_append_left _ (within List.mem_cons_self))
  exact ⟨_, by rw [verificationErrorIndex, List.filterMap_cons_some (by rw [found]), List.min?_cons']⟩

/-- A batch whose objects have all been verified. -/
theorem verified {oids : List Oid} {entries : List VerifiedCacheEntry} (accounts : state.Accounts oids outside) (some : oids ≠ [])
    (verified : List.Forall₂ (fun oid entry => window.verify oid = .ok entry) oids entries) :
    ∃ next, state.verificationCompleted oids (.ok entries) = .some next ∧ next.Accounts [] outside ∧
      { state with verificationActive := false }.Extends next := by
  obtain ⟨index, waits⟩ := (accounts.inactive false).exists_verificationErrorIndex (List.Subset.refl oids) some
  obtain ⟨next, commits, rest⟩ := (accounts.inactive false).committedAll verified
  refine ⟨next, ?_, rest⟩
  rw [verificationCompleted]
  simp only [waits, Option.bind_eq_bind, Option.bind_some, if_pos verified.length_eq.symm, commits]

theorem minimum_mem {ι : Type} [LinearOrder ι] (waiting : WaitingObligations ι) : waiting.minimum ∈ waiting.toList :=
  List.min?_mem (List.min?_cons' ..)

/-- What a failed batch verifies again is everything that it owes below the error. -/
theorem retried {oids : List Oid} (accounts : state.Accounts oids outside) (beyond : ¬state.Below index) :
    (state.retryEarlierVerification oids index).Accounts [] outside ∧ state.Extends (state.retryEarlierVerification oids index) := by
  have within : (oids.filter (state.awaitedBefore index)).Sublist oids := List.filter_sublist
  refine ⟨⟨{ accounts.facts with distinct := ?_, running := fun oid member => ?_ }, ⟨accounts.placed.atMost, accounts.placed.atLeast⟩,
    fun oid waiting found below => ?_⟩, ⟨rfl, rfl, id, fun _ => id, fun _ _ => id, fun none => ?_⟩⟩
  · have swapped := (List.perm_append_comm.nodup_iff).mp accounts.facts.distinct
    change (state.pendingVerification ++ oids.filter (state.awaitedBefore index)).Nodup
    exact swapped.sublist (List.Sublist.append (List.Sublist.refl _) within)
  · rcases List.mem_append.mp (show oid ∈ state.pendingVerification ++ _ from member) with old | again
    · exact accounts.facts.running oid (List.mem_append_right _ old)
    · exact accounts.facts.running oid (List.mem_append_left _ (within.subset again))
  · change oid ∈ state.pendingVerification ++ oids.filter (state.awaitedBefore index)
    refine List.mem_append.mpr ?_
    rcases List.mem_append.mp (accounts.live oid waiting found below) with owed | pending
    · obtain ⟨other, waits, below⟩ := below
      have before : other < index := by
        by_contra later
        exact beyond fun current error => (not_lt.mp later).trans_lt (below current error)
      refine .inr (List.mem_filter.mpr ⟨owed, ?_⟩)
      have known : state.verification.get? oid = some (.running waiting) := found
      unfold awaitedBefore
      rw [known]
      exact List.any_eq_true.mpr ⟨other, waits, decide_eq_true before⟩
    · exact .inl pending
  · refine absurd (fun current found => ?_) beyond
    cases found.symm.trans none

/-- A batch that failed at an object. -/
theorem failed {oids : List Oid} {source : ε} (accounts : state.Accounts oids outside) (member : oid ∈ oids)
    (failed : window.verify oid = .error source) :
    ∃ next, state.verificationCompleted oids (.error (some oid, source)) = some next ∧ next.Accounts [] outside ∧
      { state with verificationActive := false }.Extends next := by
  obtain ⟨index, waits⟩ := (accounts.inactive false).exists_verificationErrorIndex (List.Subset.refl oids) (List.ne_nil_of_mem member)
  obtain ⟨waiting, found⟩ := accounts.facts.running oid (List.mem_append_left _ member)
  obtain ⟨same, missing⟩ := accounts.facts.waiting oid waiting found _ (minimum_mem waiting)
  have fails : window.Fails waiting.minimum (.verification source) := .verification missing (same ▸ failed)
  obtain ⟨recorded, beyond, extends_⟩ := (accounts.inactive false).recorded fails
  obtain ⟨retried, further⟩ := recorded.retried beyond
  have own : ({ state with verificationActive := false } : PipelineState window).verificationErrorIndex [oid] = some waiting.minimum := by
    rw [verificationErrorIndex, List.filterMap_cons_some (by rw [found])]
    rfl
  refine ⟨_, ?_, retried, extends_.trans further⟩
  rw [verificationCompleted]
  simp only [waits, own, Option.bind_eq_bind, Option.bind_some]

/-- The next batch takes what is still awaited, all of it before there is an error. -/
theorem batchTaken (accounts : state.Accounts [] outside) : ∃ awaited, (state.error = none → awaited = state.pendingVerification) ∧
    state.takeVerificationBatch = (awaited.take VERIFICATION_BATCH_SIZE,
      { state with pendingVerification := awaited.drop VERIFICATION_BATCH_SIZE }) ∧
    { state with pendingVerification := awaited.drop VERIFICATION_BATCH_SIZE }.Accounts (awaited.take VERIFICATION_BATCH_SIZE) outside := by
  have taken (awaited : List Oid) (within : awaited.Sublist state.pendingVerification)
      (covers : ∀ oid waiting, state.verification.get? oid = some (.running waiting) → (∃ index ∈ waiting.toList, state.Below index) →
        oid ∈ state.pendingVerification → oid ∈ awaited) :
      { state with pendingVerification := awaited.drop VERIFICATION_BATCH_SIZE }.Accounts (awaited.take VERIFICATION_BATCH_SIZE) outside := by
    refine ⟨{ accounts.facts with distinct := ?_, running := fun oid member => ?_ }, ⟨accounts.placed.atMost, accounts.placed.atLeast⟩,
      fun oid waiting found below => ?_⟩
    · dsimp only
      rw [List.take_append_drop]
      exact accounts.facts.distinct.sublist within
    · dsimp only at member
      rw [List.take_append_drop] at member
      exact accounts.facts.running oid (within.subset member)
    · dsimp only
      rw [List.take_append_drop]
      exact covers oid waiting found below (accounts.live oid waiting found below)
  by_cases erred : state.error = none
  · refine ⟨state.pendingVerification, fun _ => rfl, ?_, taken _ (List.Sublist.refl _) fun _ _ _ _ => id⟩
    simp only [takeVerificationBatch, erred]
  · obtain ⟨frontier, erred⟩ := Option.ne_none_iff_exists'.mp erred
    refine ⟨_, fun none => ?_, ?_, taken (state.pendingVerification.filter (state.awaitedBefore frontier.1)) List.filter_sublist
      fun oid waiting found below member => List.mem_filter.mpr ⟨member, ?_⟩⟩
    · cases erred.symm.trans none
    · simp only [takeVerificationBatch, erred]
    · obtain ⟨index, waits, below⟩ := below
      unfold awaitedBefore
      rw [found]
      exact List.any_eq_true.mpr ⟨index, waits, decide_eq_true (below frontier erred)⟩

end Accounts

end PipelineState

end Gat
