import Gat.Proofs.PublishScan
import Mathlib.Data.List.Count

/-! # Publication resolves each obligation once

Whatever completes when, a run without failures ends with the status that the remote and the cache give each obligation. With
failures it ends with the first one, unless an earlier obligation was left behind.
-/

namespace Gat

namespace PublishRun

variable {ε : Type} {window : PublishWindow ε} {run next : PublishRun window} {event : Event (Fin window.count)}

/-- Every step that meets the conditions keeps a run coherent. -/
theorem Step.coherent (step : Step run event next) (coherent : Coherent run) (meets : run.Meets event) : Coherent next := by
  cases step with
  | visit scanning _ here => exact (coherent.visit scanning here meets).1
  | launch scanning all => exact coherent.launch scanning all
  | turn draining => exact coherent.turn draining
  | presence waiting running completed =>
    obtain ⟨state, same, kept, -⟩ := coherent.presence waiting running meets
    cases completed.symm.trans same
    exact kept
  | upload waiting running dropped completed =>
    obtain ⟨admission, state, sameAdmission, same, kept, -⟩ := coherent.upload waiting running
    cases dropped.symm.trans sameAdmission
    cases completed.symm.trans same
    exact kept
  | verified waiting running verified completed =>
    obtain ⟨state, same, kept, -⟩ := coherent.verified waiting running verified
    cases completed.symm.trans same
    exact kept
  | failed waiting running member failed completed =>
    obtain ⟨state, same, kept⟩ := coherent.failed waiting running member failed
    cases completed.symm.trans same
    exact kept
  | finish waiting idle => exact coherent.finish waiting idle

theorem Reached.coherent (reached : Reached window Meets run) : Coherent run := by
  induction reached with
  | init => exact .init window
  | step _ meets step coherent => exact step.coherent coherent meets

/-- Nothing is verified after the return. -/
theorem Coherent.verification_idle (coherent : Coherent run) (returned : run.phase = .returned) :
    run.batch = [] ∧ run.state.pendingVerification = [] := by
  obtain ⟨idle, -⟩ := coherent.idle (.inr returned)
  have none : run.verifications = [] := by rw [verifications, idle, List.filterMap_nil]
  refine ⟨by rw [batch, none, List.flatten_nil], ?_⟩
  rcases coherent.quiet (returned ▸ by rintro ⟨⟩) with active | nothing
  · rcases coherent.single with ⟨inactive, -⟩ | ⟨-, oids, -, one⟩
    · cases active.symm.trans inactive
    · cases none.symm.trans one
  · exact nothing

/-- What is before the error, if there is one, is done when a run has returned. -/
theorem Coherent.resolved (coherent : Coherent run) (returned : run.phase = .returned) {index : Fin window.count}
    (below : run.state.Below index) : ∃ status, run.state.statuses index = some status ∧ window.Terminal index status := by
  obtain ⟨idle, empty⟩ := coherent.idle (.inr returned)
  have outside : run.outside = [] := by
    rw [outside, returned, idle]
    rfl
  obtain ⟨batch, noPending⟩ := coherent.verification_idle returned
  have placed := coherent.accounts.placed.atLeast index below
  rw [outside, List.count_nil, PipelineState.places] at placed
  have noPresence : queueCount run.state.pendingPresence index = 0 := by
    by_contra some
    obtain ⟨remote, member⟩ := queueCount_pos_iff.mp (Nat.pos_of_ne_zero some)
    have nothing : (run.state.pendingPresence.get? remote).getD [] = [] := (empty remote).1
    rw [nothing] at member
    cases member
  have noUpload : queueCount run.state.readyUploads index = 0 := by
    by_contra some
    obtain ⟨remote, member⟩ := queueCount_pos_iff.mp (Nat.pos_of_ne_zero some)
    have nothing : (run.state.readyUploads.get? remote).getD [] = [] := (empty remote).2
    rw [nothing] at member
    cases member
  have noWait : heldCount PipelineState.waitersOf run.state.verification index = 0 := by
    by_contra some
    obtain ⟨oid, verification, found, member⟩ := (heldCount_pos_iff PipelineState.waitersOf).mp (Nat.pos_of_ne_zero some)
    cases verification with
    | running waiting =>
      have live := coherent.accounts.live oid waiting found ⟨index, member, below⟩
      rw [batch, noPending] at live
      cases live
    | valid => cases member
    | invalid => cases member
  cases done : run.state.statuses index with
  | none =>
    rw [done, Option.toList_none, List.length_nil] at placed
    omega
  | some status => exact ⟨status, rfl, coherent.accounts.facts.terminal index status done⟩

/-- Without an error every step meets the conditions. -/
theorem Coherent.meets (coherent : Coherent run) (none : run.state.error = none) (event : Event (Fin window.count)) : run.Meets event := by
  cases event with
  | presence index =>
    intro _ _ waiting found
    refine coherent.accounts.live _ waiting found ⟨waiting.first, List.mem_cons_self, fun current failed => ?_⟩
    cases none.symm.trans failed
  | visit remote =>
    intro _ _ _ _ first isFirst
    obtain ⟨rest, waiting⟩ := List.head?_eq_some_iff.mp isFirst
    exact coherent.waiters none first (waiting ▸ List.mem_cons_self)
  | _ => trivial

/-! ## What is started and verified -/

/-- What the log tells while there is no error. -/
structure Logged (run : PublishRun window) : Prop where
  started : ∀ oid, run.log.count (.verifying oid) + run.state.pendingVerification.count oid =
    if run.state.verification.get? oid = none then 0 else 1
  ended : ∀ oid, run.log.count (.verified oid) + run.batch.count oid = run.log.count (.verifying oid)
  uploads : ∀ earlier index later, run.log = earlier ++ .uploading index :: later →
    .verified (window.oidOf index) ∈ earlier ∧ window.verify (window.oidOf index) = .ok .valid

namespace Logged

/-- A verified object has been logged. -/
theorem verified_of_valid (logged : Logged run) (coherent : Coherent run) {oid : Oid} (valid : run.state.verification.get? oid = some .valid) :
    .verified oid ∈ run.log := by
  have nowhere : oid ∉ run.batch ++ run.state.pendingVerification := by
    intro member
    obtain ⟨waiting, found⟩ := coherent.accounts.facts.running oid member
    cases valid.symm.trans found
  rw [List.mem_append, not_or] at nowhere
  have started := logged.started oid
  have ended := logged.ended oid
  rw [valid, if_neg (Option.some_ne_none _), List.count_eq_zero.mpr nowhere.2] at started
  rw [List.count_eq_zero.mpr nowhere.1] at ended
  exact List.count_pos_iff.mp (by omega)

theorem uploads_append (logged : Logged run) {more : List (PublishEvent (Fin window.count))}
    (new : ∀ index, .uploading index ∈ more → .verified (window.oidOf index) ∈ run.log ∧ window.verify (window.oidOf index) = .ok .valid)
    (earlier : List (PublishEvent (Fin window.count))) (index : Fin window.count) (later : List (PublishEvent (Fin window.count)))
    (split : run.log ++ more = earlier ++ .uploading index :: later) :
    .verified (window.oidOf index) ∈ earlier ∧ window.verify (window.oidOf index) = .ok .valid := by
  rcases List.append_eq_append_iff.mp split with ⟨middle, rfl, within⟩ | ⟨middle, within, rest⟩
  · obtain ⟨verified, valid⟩ := new index (within ▸ List.mem_append_right _ List.mem_cons_self)
    exact ⟨List.mem_append_left _ verified, valid⟩
  · cases middle with
    | nil =>
      rw [List.append_nil] at within
      have member : .uploading index ∈ more := by
        rw [← List.nil_append more, ← rest]
        exact List.mem_cons_self
      exact within ▸ new index member
    | cons event middle =>
      rw [List.cons_append, List.cons.injEq] at rest
      obtain ⟨rfl, -⟩ := rest
      exact logged.uploads earlier index middle within

theorem init (window : PublishWindow ε) : Logged (init window) := by
  refine ⟨fun _ => rfl, fun _ => rfl, fun earlier index later split => ?_⟩
  exact absurd split.symm (List.append_ne_nil_of_right_ne_nil _ (List.cons_ne_nil _ _))

/-- A visit logs uploads only, of verified objects. -/
theorem attempted (logged : Logged run) (coherent : Coherent run) (attempts : Attempts run next) : Logged next := by
  obtain ⟨verification, pendingVerification, -, verifications, more, log, uploading⟩ := attempts
  have nothing (event : PublishEvent (Fin window.count)) (other : ∀ index, event ≠ .uploading index) : next.log.count event = run.log.count event := by
    have absent : event ∉ more := by
      intro member
      obtain ⟨index, same, -⟩ := uploading event member
      exact other index same
    rw [log, List.count_append, List.count_eq_zero.mpr absent, Nat.add_zero]
  have verifying (oid : Oid) := nothing (.verifying oid) fun _ same => nomatch same
  have verified (oid : Oid) := nothing (.verified oid) fun _ same => nomatch same
  refine ⟨fun oid => ?_, fun oid => ?_, ?_⟩
  · rw [verifying, verification, pendingVerification]
    exact logged.started oid
  · rw [verifying, verified, batch, verifications]
    exact logged.ended oid
  · rw [log]
    refine logged.uploads_append fun index member => ?_
    obtain ⟨other, same, valid⟩ := uploading _ member
    cases same
    exact ⟨logged.verified_of_valid coherent valid, coherent.accounts.facts.valid _ valid⟩

/-- A completion that logs what it has verified. -/
theorem completed (logged : Logged run) {state : PipelineState window} {active : Bool}
    (extends_ : { run.state with verificationActive := active }.Extends state) (none : state.error = none) (oids : List Oid)
    (sameState : next.state = state) (log : next.log = run.log ++ oids.map .verified)
    (batch : ∀ oid, next.batch.count oid + oids.count oid = run.batch.count oid) : Logged next := by
  have verifying (oid : Oid) : next.log.count (.verifying oid) = run.log.count (.verifying oid) := by
    have absent : (.verifying oid : PublishEvent (Fin window.count)) ∉ oids.map .verified := by simp
    rw [log, List.count_append, List.count_eq_zero.mpr absent, Nat.add_zero]
  have verified (oid : Oid) : next.log.count (.verified oid) = run.log.count (.verified oid) + oids.count oid := by
    rw [log, List.count_append, List.count_map_of_injective oids _ fun _ _ same => PublishEvent.verified.inj same]
  refine ⟨fun oid => ?_, fun oid => ?_, ?_⟩
  · have queued := extends_.queued none oid
    have started := logged.started oid
    rw [verifying, sameState]
    dsimp only at queued
    omega
  · have ended := logged.ended oid
    have left := batch oid
    rw [verifying, verified]
    omega
  · rw [log]
    exact logged.uploads_append fun index member => by simp at member

/-- A new verification is logged when it starts. -/
theorem turned (logged : Logged run) (coherent : Coherent run) (none : run.state.error = none) : Logged run.turn := by
  by_cases active : run.state.verificationActive = true
  · rw [turn, if_pos active]
    exact ⟨logged.started, logged.ended, logged.uploads⟩
  · have idle : run.verifications = [] := by
      rcases coherent.single with idle | busy
      · exact idle.2
      · exact absurd busy.1 active
    have batch : run.batch = [] := by rw [PublishRun.batch, idle, List.flatten_nil]
    have accounts := coherent.accounts
    rw [batch] at accounts
    obtain ⟨awaited, all, taken, -⟩ := accounts.batchTaken
    have pending := all none
    subst pending
    rw [turn, if_neg active, taken]
    dsimp only
    split_ifs with empty
    · have nothing := List.isEmpty_iff.mp empty
      have rest : run.state.pendingVerification.drop VERIFICATION_BATCH_SIZE = run.state.pendingVerification := by
        conv_rhs => rw [← List.take_append_drop VERIFICATION_BATCH_SIZE run.state.pendingVerification, nothing, List.nil_append]
      refine ⟨fun oid => ?_, logged.ended, logged.uploads⟩
      dsimp only
      rw [rest]
      exact logged.started oid
    · have split (oid : Oid) : (run.state.pendingVerification.take VERIFICATION_BATCH_SIZE).count oid +
          (run.state.pendingVerification.drop VERIFICATION_BATCH_SIZE).count oid = run.state.pendingVerification.count oid := by
        rw [← List.count_append, List.take_append_drop]
      have verifying (oids : List Oid) (oid : Oid) :
          (run.log ++ oids.map PublishEvent.verifying).count (PublishEvent.verifying oid) = run.log.count (.verifying oid) + oids.count oid := by
        rw [List.count_append, List.count_map_of_injective _ _ fun _ _ same => PublishEvent.verifying.inj same]
      have verified (oids : List Oid) (oid : Oid) :
          (run.log ++ oids.map PublishEvent.verifying).count (PublishEvent.verified oid) = run.log.count (.verified oid) := by
        have absent : (.verified oid : PublishEvent (Fin window.count)) ∉ oids.map .verifying := by simp
        rw [List.count_append, List.count_eq_zero.mpr absent, Nat.add_zero]
      refine ⟨fun oid => ?_, fun oid => ?_, logged.uploads_append fun index member => ?_⟩
      · have started := logged.started oid
        have parts := split oid
        dsimp only
        rw [verifying]
        omega
      · have ended := logged.ended oid
        rw [batch, List.count_nil, Nat.add_zero] at ended
        rw [PublishRun.batch, verifications, List.filterMap_append, show run.inFlight.filterMap PublishWork.verifies = [] from idle]
        dsimp only
        rw [verifying, verified, ended]
        exact congrArg _ (congrArg _ (List.append_nil _))
      · obtain ⟨_, -, same⟩ := List.mem_map.mp member
        cases same

end Logged

/-! ## Runs without failures -/

/-- No work of a window fails, with these results. -/
structure Succeeds (window : PublishWindow ε) (present : Fin window.count → Bool) (verdict : Oid → VerifiedCacheEntry) : Prop where
  probe : ∀ index, window.probe index = .ok (present index)
  verify : ∀ oid, window.verify oid = .ok (verdict oid)
  upload : ∀ index, window.upload index = .ok ()

section Successes

variable {present : Fin window.count → Bool} {verdict : Oid → VerifiedCacheEntry}

theorem Succeeds.not_fails (succeeds : Succeeds window present verdict) {index : Fin window.count} {error : PublishError ε} :
    ¬window.Fails index error := by
  intro fails
  cases fails with
  | presence failed => cases (succeeds.probe index).symm.trans failed
  | verification _ failed => cases (succeeds.verify _).symm.trans failed
  | upload _ failed => cases (succeeds.upload index).symm.trans failed

theorem Coherent.error_eq_none (coherent : Coherent run) (succeeds : Succeeds window present verdict) : run.state.error = none := by
  cases failed : run.state.error with
  | none => rfl
  | some current => exact absurd (coherent.accounts.facts.failed current failed) succeeds.not_fails

theorem Step.logged (step : Step run event next) (coherent : Coherent run) (logged : Logged run) (succeeds : Succeeds window present verdict) :
    Logged next := by
  have meets := coherent.meets (coherent.error_eq_none succeeds) event
  have none := (step.coherent coherent meets).error_eq_none succeeds
  cases step with
  | visit scanning _ here => exact logged.attempted coherent (coherent.visit scanning here meets).2
  | launch scanning all =>
    have nothing (entries : List (RemoteId × List (Fin window.count))) :
        (entries.map fun group => PublishWork.presence group.2 group.2).filterMap PublishWork.verifies = [] := by
      rw [List.filterMap_map]
      exact List.filterMap_eq_nil_iff.mpr fun _ _ => rfl
    refine ⟨logged.started, fun oid => ?_, logged.uploads⟩
    rw [batch, verifications, PublishRun.launch, List.filterMap_append, nothing, List.append_nil]
    exact logged.ended oid
  | turn draining => exact logged.turned coherent (coherent.error_eq_none succeeds)
  | @presence before after index rest leases state waiting running completed =>
    obtain ⟨state, same, -, extends_⟩ := coherent.presence waiting running meets
    cases completed.symm.trans same
    refine logged.completed extends_ none [] rfl (List.append_nil _).symm fun oid => ?_
    rw [batch, batch, verifications, verifications, running, List.filterMap_append, List.filterMap_append, List.filterMap_append,
      Coherent.filterMap_advance _ fun _ _ => rfl, List.append_nil]
    rfl
  | upload waiting running dropped completed =>
    obtain ⟨admission, state, -, same, -, extends_⟩ := coherent.upload waiting running
    cases completed.symm.trans same
    refine logged.completed extends_ none [] rfl (List.append_nil _).symm fun oid => ?_
    rw [batch, batch, verifications, verifications, running, List.filterMap_append, List.filterMap_append]
    rfl
  | verified waiting running verified completed =>
    obtain ⟨state, same, -, extends_⟩ := coherent.verified waiting running verified
    cases completed.symm.trans same
    obtain ⟨-, left, all⟩ := coherent.alone running
    refine logged.completed extends_ none _ rfl rfl fun oid => ?_
    rw [all, batch, verifications, left, List.flatten_nil, List.count_nil, Nat.zero_add]
  | failed waiting running member failed => cases (succeeds.verify _).symm.trans failed
  | finish => exact ⟨logged.started, logged.ended, logged.uploads⟩

/-- Without failures every run keeps the conditions, and logs what it does. -/
theorem Reached.succeeds (reached : Reached window (fun _ _ => True) run) (succeeds : Succeeds window present verdict) :
    Reached window Meets run ∧ Logged run := by
  induction reached with
  | init => exact ⟨.init, .init window⟩
  | @step run next event _ _ step ih =>
    have coherent := ih.1.coherent
    exact ⟨.step ih.1 (coherent.meets (coherent.error_eq_none succeeds) event) step, step.logged coherent ih.2 succeeds⟩

end Successes

/-- No completion of work in flight fails an assertion. -/
structure Asserted (run : PublishRun window) : Prop where
  presence : ∀ before index rest leases after, run.inFlight = before ++ .presence (index :: rest) leases :: after →
    ∃ state, run.state.presenceCompleted index (window.probe index) = some state
  upload : ∀ before index lease after, run.inFlight = before ++ .upload index lease :: after →
    ∃ admission state, run.admission.drop lease = some admission ∧ run.state.uploadCompleted index (window.upload index) = some state
  verification : ∀ before oids after entries, run.inFlight = before ++ .verification oids :: after →
    List.Forall₂ (fun oid entry => window.verify oid = .ok entry) oids entries →
    ∃ state, run.state.verificationCompleted oids (.ok entries) = some state

theorem Coherent.asserted (coherent : Coherent run) (none : run.state.error = none) (waiting : run.phase = .wait ∨ run.phase = .drain) :
    Asserted run where
  presence _ _ _ _ _ running := by
    obtain ⟨state, completed, -⟩ := coherent.presence waiting running (coherent.meets none _)
    exact ⟨state, completed⟩
  upload _ _ _ _ running := by
    obtain ⟨admission, state, dropped, completed, -⟩ := coherent.upload waiting running
    exact ⟨admission, state, dropped, completed⟩
  verification _ _ _ _ running verified := by
    obtain ⟨state, completed, -⟩ := coherent.verified waiting running verified
    exact ⟨state, completed⟩

/-- A run without failures goes on until it returns. -/
theorem Coherent.exists_step {present : Fin window.count → Bool} {verdict : Oid → VerifiedCacheEntry} (coherent : Coherent run)
    (succeeds : Succeeds window present verdict) (running : run.phase ≠ .returned) : ∃ event next, Step run event next := by
  cases phase : run.phase with
  | scan offset groups =>
    by_cases more : offset < run.state.remoteOrder.length
    · have position := Nat.mod_lt (run.state.nextRemote + offset) (Nat.zero_lt_of_lt more)
      exact ⟨_, _, .visit phase more (List.getElem?_eq_getElem position)⟩
    · exact ⟨_, _, .launch phase (not_lt.mp more)⟩
  | drain => exact ⟨_, _, .turn phase⟩
  | returned => exact absurd phase running
  | wait =>
    have asserted := coherent.asserted (coherent.error_eq_none succeeds) (.inl phase)
    cases inFlight : run.inFlight with
    | nil => exact ⟨_, _, .finish phase inFlight⟩
    | cons work rest =>
      cases work with
      | presence remaining leases =>
        have owing := coherent.owing remaining leases (inFlight ▸ List.mem_cons_self)
        obtain ⟨index, others, rfl⟩ := List.exists_cons_of_ne_nil owing
        obtain ⟨state, completed⟩ := asserted.presence [] index others leases rest inFlight
        exact ⟨_, _, .presence (.inl phase) (by rw [inFlight, List.nil_append]) completed⟩
      | upload index lease =>
        obtain ⟨admission, state, dropped, completed⟩ := asserted.upload [] index lease rest inFlight
        exact ⟨_, _, .upload (.inl phase) (by rw [inFlight, List.nil_append]) dropped completed⟩
      | verification oids =>
        have verified : List.Forall₂ (fun oid entry => window.verify oid = .ok entry) oids (oids.map verdict) := by
          rw [List.forall₂_map_right_iff, List.forall₂_same]
          exact fun oid _ => succeeds.verify oid
        obtain ⟨state, completed⟩ := asserted.verification [] oids rest _ inFlight verified
        exact ⟨_, _, .verified (.inl phase) (by rw [inFlight, List.nil_append]) verified completed⟩

/-- What the remote and the cache make of an obligation. -/
def expected (present : Bool) (verdict : VerifiedCacheEntry) : PublishStatus :=
  if present then .alreadyPresent else match verdict with
    | .valid => .uploaded
    | .rejected rejection => rejection.status

theorem Succeeds.terminal {present : Fin window.count → Bool} {verdict : Oid → VerifiedCacheEntry} (succeeds : Succeeds window present verdict)
    {index : Fin window.count} {status : PublishStatus} (terminal : window.Terminal index status) :
    status = expected (present index) (verdict (window.oidOf index)) := by
  have probe := succeeds.probe index
  have verify := succeeds.verify (window.oidOf index)
  unfold expected
  cases terminal with
  | alreadyPresent found => rw [Except.ok.inj (probe.symm.trans found), if_pos rfl]
  | rejected missing rejected => rw [Except.ok.inj (probe.symm.trans missing), if_neg Bool.false_ne_true, Except.ok.inj (verify.symm.trans rejected)]
  | uploaded uploads => rw [Except.ok.inj (probe.symm.trans uploads.1), if_neg Bool.false_ne_true, Except.ok.inj (verify.symm.trans uploads.2)]

/-- An object is verified once when an obligation misses it, and never else. -/
theorem Coherent.verified_once {present : Fin window.count → Bool} {verdict : Oid → VerifiedCacheEntry} (coherent : Coherent run)
    (logged : Logged run) (succeeds : Succeeds window present verdict) (returned : run.phase = .returned) (oid : Oid) :
    run.log.count (.verified oid) = if ∃ index, window.oidOf index = oid ∧ present index = false then 1 else 0 := by
  obtain ⟨batch, noPending⟩ := coherent.verification_idle returned
  have started := logged.started oid
  have ended := logged.ended oid
  rw [noPending, List.count_nil, Nat.add_zero] at started
  rw [batch, List.count_nil, Nat.add_zero, started] at ended
  rw [ended]
  split_ifs with unknown asked asked
  · obtain ⟨index, rfl, missing⟩ := asked
    have below : run.state.Below index := fun current failed => nomatch (coherent.error_eq_none succeeds).symm.trans failed
    obtain ⟨status, done, -⟩ := coherent.resolved returned below
    have settled := coherent.accounts.facts.settled index (fun none => nomatch done.symm.trans none) (missing ▸ succeeds.probe index)
    rcases settled with valid | ⟨rejection, invalid⟩
    · cases unknown.symm.trans valid
    · cases unknown.symm.trans invalid
  · rfl
  · rfl
  · obtain ⟨index, same, missing⟩ := coherent.accounts.facts.asked oid unknown
    exact absurd ⟨index, same, Except.ok.inj ((succeeds.probe index).symm.trans missing)⟩ asked

/-! ## Schedules -/

/-- The coordinator's own step. -/
def proceed (run : PublishRun window) : Option (Event (Fin window.count) × PublishRun window) :=
  match run.phase with
  | .scan offset groups =>
    if offset < run.state.remoteOrder.length then (run.scanned offset).map fun remote => (.visit remote, run.visit offset groups remote)
    else some (.launch, run.launch groups)
  | .drain => some (.turn, run.turn)
  | .wait => if run.inFlight.isEmpty then some (.finish, { run with phase := .returned }) else none
  | .returned => none

/-- The work at a place in flight completes. A failed batch fails at its first failing object. -/
def complete (run : PublishRun window) (place : ℕ) : Option (Event (Fin window.count) × PublishRun window) :=
  match run.inFlight.drop place with
  | .presence (index :: rest) leases :: after => do
    let state ← run.state.presenceCompleted index (window.probe index)
    some (.presence index, { run with state, inFlight := run.inFlight.take place ++ advance rest leases ++ after, phase := .drain })
  | .upload index lease :: after => do
    let admission ← run.admission.drop lease
    let state ← run.state.uploadCompleted index (window.upload index)
    some (.upload index, { run with state, admission, inFlight := run.inFlight.take place ++ after, phase := .drain })
  | .verification oids :: after =>
    match oids.find? fun oid => (window.verify oid).toOption.isNone with
    | some oid =>
      match window.verify oid with
      | .error source => do
        let state ← run.state.verificationCompleted oids (.error (some oid, source))
        some (.verification, { run with state, inFlight := run.inFlight.take place ++ after, phase := .drain })
      | .ok _ => none
    | none => do
      let entries ← (oids.mapM window.verify).toOption
      let state ← run.state.verificationCompleted oids (.ok entries)
      some (.verification, { run with state, inFlight := run.inFlight.take place ++ after, phase := .drain, log := run.log ++ oids.map .verified })
  | _ => none

/-- The coordinator waits for completions, or takes those that are ready. -/
def waits (run : PublishRun window) : Bool :=
  match run.phase with
  | .wait | .drain => true
  | _ => false

/-- A schedule names the place of a completion, or leaves the step to the coordinator. -/
def execute (run : PublishRun window) (choice : Option ℕ) : Option (Event (Fin window.count) × PublishRun window) :=
  match choice with
  | none => run.proceed
  | some place => if run.waits then run.complete place else none

/-- The run of a schedule, whose steps must all be allowed. -/
def schedule (allows : PublishRun window → Event (Fin window.count) → Bool) (choices : List (Option ℕ)) : Option (PublishRun window) :=
  choices.foldlM (fun run choice => (run.execute choice).bind fun step => if allows run step.1 then some step.2 else none)
    (PublishRun.init window)

theorem forall₂_of_mapM {oids : List Oid} {entries : List VerifiedCacheEntry} (all : oids.mapM window.verify = .ok entries) :
    List.Forall₂ (fun oid entry => window.verify oid = .ok entry) oids entries := by
  induction oids generalizing entries with
  | nil =>
    cases all
    exact .nil
  | cons oid oids ih =>
    rw [List.mapM_cons] at all
    cases first : window.verify oid with
    | error source =>
      rw [first] at all
      cases all
    | ok entry =>
      rw [first] at all
      cases rest : oids.mapM window.verify with
      | error source =>
        rw [rest] at all
        cases all
      | ok others =>
        rw [rest] at all
        cases all
        exact .cons first (ih rest)

theorem step_of_proceed (proceeds : run.proceed = some (event, next)) : Step run event next := by
  unfold proceed at proceeds
  split at proceeds
  case h_1 offset groups phase =>
    split_ifs at proceeds with more
    · obtain ⟨remote, here, same⟩ := Option.map_eq_some_iff.mp proceeds
      cases same
      exact .visit phase more here
    · cases proceeds
      exact .launch phase (not_lt.mp more)
  case h_2 phase =>
    cases proceeds
    exact .turn phase
  case h_3 phase =>
    split_ifs at proceeds with idle
    cases proceeds
    exact .finish phase (List.isEmpty_iff.mp idle)
  case h_4 => cases proceeds

theorem step_of_complete {place : ℕ} (waits : run.waits) (completes : run.complete place = some (event, next)) : Step run event next := by
  have waiting : run.phase = .wait ∨ run.phase = .drain := by
    unfold PublishRun.waits at waits
    split at waits
    case h_1 phase => exact .inl phase
    case h_2 phase => exact .inr phase
    case h_3 => cases waits
  have running {work : PublishWork (Fin window.count)} {after : List (PublishWork (Fin window.count))}
      (here : run.inFlight.drop place = work :: after) : run.inFlight = run.inFlight.take place ++ work :: after := by
    rw [← here, List.take_append_drop]
  unfold complete at completes
  split at completes
  case h_1 index rest leases after here =>
    obtain ⟨state, completed, same⟩ := Option.bind_eq_some_iff.mp completes
    cases same
    exact .presence waiting (running here) completed
  case h_2 index lease after here =>
    obtain ⟨admission, dropped, rest⟩ := Option.bind_eq_some_iff.mp completes
    obtain ⟨state, completed, same⟩ := Option.bind_eq_some_iff.mp rest
    cases same
    exact .upload waiting (running here) dropped completed
  case h_3 oids after here =>
    split at completes
    case h_1 oid found =>
      split at completes
      case h_1 source failed =>
        obtain ⟨state, completed, same⟩ := Option.bind_eq_some_iff.mp completes
        cases same
        exact .failed waiting (running here) (List.mem_of_find?_eq_some found) failed completed
      case h_2 => cases completes
    case h_2 =>
      obtain ⟨entries, all, rest⟩ := Option.bind_eq_some_iff.mp completes
      obtain ⟨state, completed, same⟩ := Option.bind_eq_some_iff.mp rest
      cases same
      cases verified : oids.mapM window.verify with
      | error source =>
        rw [verified] at all
        cases all
      | ok others =>
        rw [verified] at all
        cases all
        exact .verified waiting (running here) (forall₂_of_mapM verified) completed
  case h_4 => cases completes

/-- A schedule whose steps are allowed leads to a state of a run. -/
theorem reached_of_schedule {allowed : PublishRun window → Event (Fin window.count) → Prop}
    {allows : PublishRun window → Event (Fin window.count) → Bool} (sound : ∀ run event, allows run event → allowed run event)
    {choices : List (Option ℕ)} (scheduled : schedule allows choices = some run) : Reached window allowed run := by
  unfold schedule at scheduled
  have start : Reached window allowed (PublishRun.init window) := .init
  generalize PublishRun.init window = first at start scheduled
  induction choices generalizing first with
  | nil =>
    cases scheduled
    exact start
  | cons choice choices ih =>
    rw [List.foldlM_cons] at scheduled
    obtain ⟨second, executed, rest⟩ := Option.bind_eq_some_iff.mp scheduled
    refine ih second ?_ rest
    obtain ⟨⟨event, next⟩, made, checked⟩ := Option.bind_eq_some_iff.mp executed
    dsimp only at checked
    split_ifs at checked with allows
    cases checked
    refine .step start (sound first event allows) ?_
    cases choice with
    | none => exact step_of_proceed made
    | some place =>
      rw [execute] at made
      split_ifs at made with waits
      exact step_of_complete waits made

def returns (run : PublishRun window) : Bool :=
  match run.phase with
  | .returned => true
  | _ => false

/-- What a schedule that returns leads to. -/
theorem exists_of_schedule {allowed : PublishRun window → Event (Fin window.count) → Prop}
    {allows : PublishRun window → Event (Fin window.count) → Bool} (sound : ∀ run event, allows run event → allowed run event)
    {choices : List (Option ℕ)} {β : Type} {read : PublishRun window → β} {value : β}
    (leads : ((schedule allows choices).filter returns).map read = some value) :
    ∃ run, Reached window allowed run ∧ run.phase = .returned ∧ read run = value := by
  obtain ⟨run, filtered, same⟩ := Option.map_eq_some_iff.mp leads
  obtain ⟨scheduled, returned⟩ := Option.filter_eq_some_iff.mp filtered
  refine ⟨run, reached_of_schedule sound scheduled, ?_, same⟩
  unfold returns at returned
  split at returned
  case h_1 phase => exact phase
  case h_2 => cases returned

end PublishRun

open PublishRun in
/-- Whatever completes when, a run without failures fails no assertion, so no status is set twice, and goes on until it returns the
status of every obligation. An upload starts after its object has been verified, and every missed object is verified once. -/
theorem publication_resolves_each_obligation_once {ε : Type} {window : PublishWindow ε} {present : Fin window.count → Bool}
    {verdict : Oid → VerifiedCacheEntry} (succeeds : Succeeds window present verdict) {run : PublishRun window}
    (reached : Reached window (fun _ _ => True) run) :
    (run.phase = .wait ∨ run.phase = .drain → Asserted run) ∧
      (run.phase ≠ .returned → ∃ event next, Step run event next) ∧
      (run.phase = .returned →
        run.result = some (.ok ((List.finRange window.count).map fun index => expected (present index) (verdict (window.oidOf index)))) ∧
        ∀ oid, run.log.count (.verified oid) = if ∃ index, window.oidOf index = oid ∧ present index = false then 1 else 0) ∧
      (∀ index status, run.state.statuses index = some status → status = expected (present index) (verdict (window.oidOf index))) ∧
      (∀ earlier index later, run.log = earlier ++ .uploading index :: later →
        .verified (window.oidOf index) ∈ earlier ∧ verdict (window.oidOf index) = .valid) ∧
      ∀ oid, run.log.count (.verifying oid) ≤ 1 := by
  obtain ⟨kept, logged⟩ := reached.succeeds succeeds
  have coherent := kept.coherent
  have none := coherent.error_eq_none succeeds
  refine ⟨coherent.asserted none, coherent.exists_step succeeds, fun returned => ⟨?_, coherent.verified_once logged succeeds returned⟩,
    fun index status done => succeeds.terminal (coherent.accounts.facts.terminal index status done), fun earlier index later split => ?_,
    fun oid => ?_⟩
  · have statuses : run.state.statuses = fun index => pure (expected (present index) (verdict (window.oidOf index))) := by
      funext index
      obtain ⟨status, done, terminal⟩ := coherent.resolved returned fun current failed => nomatch none.symm.trans failed
      rw [done, succeeds.terminal terminal]
      rfl
    rw [result, none, statuses, List.mapM_pure]
    rfl
  · obtain ⟨verified, valid⟩ := logged.uploads earlier index later split
    exact ⟨verified, Except.ok.inj ((succeeds.verify _).symm.trans valid)⟩
  · have started := logged.started oid
    split_ifs at started <;> omega

/-! ## Two objects, one missing from the cache -/

namespace PartialCache

def object (byte : UInt8) : Oid := .filled byte

def limits : RemoteConcurrency := ⟨2, 1, Nat.two_pos, Nat.one_pos⟩

def verdict (oid : Oid) : VerifiedCacheEntry := if oid = object 0 then .valid else .rejected .missing

theorem cost_fits (_ : Fin 2) : 1 ≤ REMOTE_BYTES := by decide

def window : PublishWindow Unit where
  count := 2
  remoteOf index := ⟨index.val⟩
  oidOf index := if index.val = 0 then object 0 else object 1
  probe _ := .ok false
  verify oid := .ok (verdict oid)
  upload _ := .ok ()
  cost _ := 1
  cost_fits := cost_fits
  batchLimit _ := 2
  batchLimit_pos _ := by decide
  presence := limits
  transfer := limits

theorem succeeds : PublishRun.Succeeds window (fun _ => false) verdict := ⟨fun _ => rfl, fun _ => rfl, fun _ => rfl⟩

/-- Both checks, the second first, the verification of one object after the other, and the upload. -/
def choices : List (Option ℕ) :=
  List.replicate 5 none ++ [some 1] ++ List.replicate 4 none ++ [some 0] ++ List.replicate 4 none ++ [some 0] ++ List.replicate 4 none ++ [some 0] ++
    List.replicate 5 none ++ [some 0] ++ List.replicate 5 none

end PartialCache

open PublishRun PartialCache in
theorem publication_resolves_each_obligation_once_partial :
    ∃ run : PublishRun window, Reached window (fun _ _ => True) run ∧ run.result = some (.ok [.uploaded, .cacheMissing]) ∧
      run.log.count (.verified (object 0)) = 1 := by
  have leads : ((schedule (fun _ _ => true) choices : Option (PublishRun window)).filter returns).map (fun _ => ()) = some () := by decide
  obtain ⟨run, reached, returned, -⟩ := exists_of_schedule (fun _ _ _ => trivial) leads
  obtain ⟨result, once⟩ := (publication_resolves_each_obligation_once succeeds reached).2.2.1 returned
  exact ⟨run, reached, result, (once (object 0)).trans (if_pos ⟨⟨0, by decide⟩, rfl, rfl⟩)⟩

end Gat
