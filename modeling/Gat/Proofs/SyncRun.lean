import Gat.Proofs.SyncExecute

/-! # Whole runs of a validated sync

A run delivers a trace of the plan to the execution sink and commits on every exit. At each path it can
leave what was there or the effect of the path's own decision, and a run that succeeds has committed the
effect of every decision.
-/

namespace Gat

variable {ε φ : Type}

section Run

variable (environment : SyncEnvironment ε φ) (windows : PlanWindows) (options : SyncOptions) (store : SyncStore φ)

/-- The decision planned for a path from the ledger as it is at the start of a run. -/
def decisionAt (path : GatPath) : Except (SyncError ε) (Option PlanEvent) :=
  plannedAt (environment.planContext (options.effectivePolicy store)) (environment.desiredStream store.ledger options.selection)
    (environment.priorStream store.ledger options.selection) path

/-- A run and the trace of its deliveries. -/
structure SyncRun (trace : List PlanEvent) (result : Outcome (SyncError ε) PUnit) : Prop where
  traced : PlanTrace (environment.planContext (options.effectivePolicy store))
    (environment.desiredStream store.ledger options.selection) (environment.priorStream store.ledger options.selection)
    trace result
  file : ∀ path, (validatedSync environment windows options store).2.files.get? path ∈
    leavesOf environment options.force trace path (store.files.get? path)
  row : ∀ path, (validatedSync environment windows options store).2.ledger.get? path ∈
    rowsOf environment options.force trace path (store.ledger.get? path)
  complete : ∀ outcome, (validatedSync environment windows options store).1 = .ok outcome →
    result = .ok ⟨⟩ ∧ outcome = trace.foldl (outcomeAfter options.force) {} ∧
      (validatedSync environment windows options store).2.ledger =
        store.ledger.applyBatch (trace.filterMap (mutationOf environment options.force)) ∧
      ∀ event ∈ trace, ∀ entry, event.effect options.force = .write entry → ∃ staged, environment.stage entry = .ok staged
  trusted : ∀ outcome, (validatedSync environment windows options store).1 = .ok outcome →
    options.selection.isUnrestricted → outcome.isClean →
      (validatedSync environment windows options store).2.validationRequired = false

/-- A run of the sink over a program with a known trace. -/
theorem exec_runSink (environment : SyncEnvironment ε φ) (force : Bool) {program : Producer (SyncError ε) PUnit}
    {trace : List PlanEvent} {result : Outcome (SyncError ε) PUnit} (delivers : Delivers program trace result)
    (distinct : (trace.map PlanEvent.path).Nodup) (files : SortedMap GatPath φ) (ledger : Ledger) :
    let ran := (runSink environment force (program _)).exec { files, ledger }
    (∀ path, ran.2.files.get? path ∈ leavesOf environment force trace path (files.get? path)) ∧
      (∀ path, ran.2.ledger.get? path ∈ rowsOf environment force trace path (ledger.get? path)) ∧
      ∀ outcome, ran.1 = .ok outcome → result = .ok ⟨⟩ ∧ outcome = trace.foldl (outcomeAfter force) {} ∧
        ran.2.ledger = ledger.applyBatch (trace.filterMap (mutationOf environment force)) ∧
        ∀ event ∈ trace, ∀ entry, event.effect force = .write entry → ∃ staged, environment.stage entry = .ok staged := by
  intro ran
  rcases sent : (forM trace (executePlanSink environment force).send).exec ({ files, ledger } : Session φ) with ⟨delivered, session⟩
  obtain ⟨ended, produced, okay⟩ : ∃ ended, (program _ (executePlanSink environment force)).exec { files, ledger } = (ended, session) ∧
      (ended = .ok ⟨⟩ → delivered = .ok ⟨⟩ ∧ result = .ok ⟨⟩) := by
    cases delivered with
    | error failure => exact ⟨.error failure, by rw [delivers, Fallible.exec_bind_error sent], nofun⟩
    | ok done =>
      exact ⟨result, by rw [delivers, Fallible.exec_bind_ok sent, Fallible.exec_raise], fun same => ⟨rfl, same⟩⟩
  have closed : ran = (finish environment ended).exec session := by
    change (runSink environment force (program _)).exec { files, ledger } = _
    rw [runSink, Fallible.exec_bind_ok (Fallible.exec_observe _ _), produced]
  have closes := exec_finish environment ended session
  rw [← closed] at closes
  have settles (path : GatPath) : Settles path (leavesOf environment force trace path (files.get? path))
      (rowsOf environment force trace path (ledger.get? path)) ran.2 := by
    have start : Settles path {files.get? path} {ledger.get? path} ({ files, ledger } : Session φ) := ⟨rfl, rfl, rfl⟩
    have settled := settles_trace environment force distinct start
    rw [sent] at settled
    exact settled.flushed closes.1
  refine ⟨fun path => (settles path).file, fun path => (settles path).row, fun outcome succeeded => ?_⟩
  obtain ⟨rfl, rfl, committed⟩ := closes.2 outcome succeeded
  obtain ⟨rfl, rfl⟩ := okay rfl
  have completed := completed_trace environment force ⟨rfl, rfl, by simp⟩ sent
  exact ⟨rfl, completed.outcome, committed.trans completed.ledger, completed.prepared⟩

/-- The session that the sink of a run leaves. -/
def sinkRun : Outcome (SyncError ε) SyncOutcome × Session φ :=
  (runSink environment options.force fun sink =>
    mergeDesiredWithPrior (environment.planContext (options.effectivePolicy store)) windows sink
      (environment.desiredStream store.ledger options.selection) (environment.priorStream store.ledger options.selection)).exec
    { files := store.files, ledger := store.ledger }

/-- The steps after the sink keep its files and its ledger, and can only fail what it did. -/
theorem validatedSync_sinkRun :
    (validatedSync environment windows options store).2.files = (sinkRun environment windows options store).2.files ∧
      (validatedSync environment windows options store).2.ledger = (sinkRun environment windows options store).2.ledger ∧
      ∀ outcome, (validatedSync environment windows options store).1 = .ok outcome →
        (sinkRun environment windows options store).1 = .ok outcome ∧
          (options.selection.isUnrestricted → outcome.isClean →
            (validatedSync environment windows options store).2.validationRequired = false) := by
  rcases ran : sinkRun environment windows options store with ⟨result, session⟩
  rw [sinkRun] at ran
  unfold validatedSync
  rw [ran]
  cases result with
  | error fault => exact ⟨rfl, rfl, nofun⟩
  | ok done =>
    cases environment.syncExcludes with
    | error failure => exact ⟨rfl, rfl, nofun⟩
    | ok synced =>
      dsimp only
      split_ifs with clears
      · cases environment.clearValidationRequired with
        | error failure => exact ⟨rfl, rfl, nofun⟩
        | ok cleared => exact ⟨rfl, rfl, fun outcome same => ⟨same, fun _ _ => rfl⟩⟩
      · refine ⟨rfl, rfl, fun outcome same => ⟨same, fun unrestricted clean => ?_⟩⟩
        cases same
        simpa [unrestricted, clean] using clears

theorem exists_syncRun : ∃ trace result, SyncRun environment windows options store trace result := by
  obtain ⟨trace, result, delivers, traced⟩ := exists_planTrace (environment.planContext (options.effectivePolicy store)) windows
    (environment.desiredStream store.ledger options.selection) (environment.priorStream store.ledger options.selection)
  obtain ⟨file, row, complete⟩ := exec_runSink environment options.force delivers traced.nodup_paths
    store.files store.ledger
  obtain ⟨files, ledger, succeeds⟩ := validatedSync_sinkRun environment windows options store
  refine ⟨trace, result, traced, fun path => ?_, fun path => ?_, fun outcome succeeded => ?_, fun outcome succeeded => ?_⟩
  · rw [files]
    exact file path
  · rw [ledger]
    exact row path
  · rw [ledger]
    exact complete outcome (succeeds outcome succeeded).1
  · exact (succeeds outcome succeeded).2

variable {environment windows options store}

/-- A delivery of a run is the decision for its path. -/
theorem SyncRun.decisionAt {trace : List PlanEvent} {result : Outcome (SyncError ε) PUnit}
    (run : SyncRun environment windows options store trace result) {event : PlanEvent} (member : event ∈ trace) :
    Gat.decisionAt environment options store event.path = .ok (some event) :=
  run.traced.planned member

/-- A complete run has decided every path and delivered every decision. -/
theorem SyncRun.exists_decision {trace : List PlanEvent} (run : SyncRun environment windows options store trace (.ok ⟨⟩))
    (path : GatPath) :
    ∃ event, Gat.decisionAt environment options store path = .ok event ∧ ∀ delivered ∈ event, delivered ∈ trace := by
  by_cases inside : path ∈ unionPaths (environment.desiredStream store.ledger options.selection)
      (environment.priorStream store.ledger options.selection)
  · obtain ⟨-, -, allOk⟩ := run.traced.succeeds.mp rfl
    have planned := allOk (Gat.decisionAt environment options store path) (List.mem_map.mpr ⟨path, inside, rfl⟩)
    cases decided : Gat.decisionAt environment options store path with
    | error failure =>
      rw [decided] at planned
      cases planned
    | ok event =>
      refine ⟨event, rfl, ?_⟩
      rintro delivered rfl
      have here := path_plannedAt decided
      exact (run.traced.perm rfl).mem_iff.mpr (mem_plannedEvents.mpr (here ▸ decided))
  · exact ⟨none, plannedAt_of_notMem inside, nofun⟩

end Run

end Gat
