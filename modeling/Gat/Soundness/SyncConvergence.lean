import Gat.Proofs.SyncTable

/-! # When a clean sync leaves the ledger converged

A complete validated run that leaves nothing unresolved brings every row in line with the lock, except a
row that is no longer desired and whose file is already gone. No decision is made for such a row, so it
stays in the ledger while the run counts as clean and settles the ledger's need for validation.
-/

namespace Gat

variable {ε φ : Type}

section Batch

variable {environment : SyncEnvironment ε φ} {force : Bool} {trace : List PlanEvent} (ledger : Ledger)

theorem get?_applyBatch_trace_of_ne {path : GatPath} (others : ∀ event ∈ trace, event.path ≠ path) :
    (ledger.applyBatch (trace.filterMap (mutationOf environment force))).get? path = ledger.get? path := by
  refine ledger.get?_applyBatch_of_ne fun mutation member => ?_
  obtain ⟨event, inside, found⟩ := List.mem_filterMap.mp member
  exact path_mutationOf found ▸ others event inside

/-- With one event for each path, a batch leaves at the path of an event what that event makes of its row. -/
theorem get?_applyBatch_trace (distinct : (trace.map PlanEvent.path).Nodup) {event : PlanEvent} (member : event ∈ trace) :
    (ledger.applyBatch (trace.filterMap (mutationOf environment force))).get? event.path =
      rowAfter environment force event (ledger.get? event.path) := by
  obtain ⟨front, back, rfl⟩ := List.append_of_mem member
  rw [List.map_append, List.map_cons, List.nodup_append, List.nodup_cons] at distinct
  obtain ⟨-, ⟨notBack, -⟩, apart⟩ := distinct
  have split : (front ++ event :: back).filterMap (mutationOf environment force) =
      front.filterMap (mutationOf environment force) ++ ((mutationOf environment force event).toList ++
        back.filterMap (mutationOf environment force)) := by
    rw [List.filterMap_append, List.filterMap_cons]
    cases mutationOf environment force event <;> rfl
  rw [split, Ledger.applyBatch_append, Ledger.applyBatch_append,
    get?_applyBatch_trace_of_ne _ fun other inside same => notBack (List.mem_map.mpr ⟨other, inside, same⟩),
    get?_applyBatch_mutationOf, if_pos rfl,
    get?_applyBatch_trace_of_ne _ fun other inside same =>
      apart other.path (List.mem_map.mpr ⟨other, inside, rfl⟩) event.path List.mem_cons_self same]

end Batch

/-- A classified object that a run has resolved is written. -/
theorem effect_classifyObject {force : Bool} {integrity : ObjectVerification} {entry : Entry} {intent : MaterializationIntent}
    (resolved : (resolveAction (classifyObject integrity entry intent) force).unresolved = false) :
    PlanEvent.effect force (.action (classifyObject integrity entry intent)) = .write entry := by
  cases integrity <;> cases intent <;> cases force <;> first | rfl | cases resolved

section Run

variable (environment : SyncEnvironment ε φ) (ledger : Ledger)

/-- A row that is no longer desired and whose file is already gone. -/
structure Abandoned (path : GatPath) : Prop where
  undesired : ledger.desiredOid path = none
  held : (ledger.materializedOid path).isSome
  absent : ∃ status, environment.fileStatusAt ledger path = .ok status ∧ status.kind = .absent

variable {environment} {windows : PlanWindows} {options : SyncOptions} {store : SyncStore φ} {trace : List PlanEvent}

theorem Ledger.materializedOid_eq (ledger : Ledger) (path : GatPath) :
    ledger.materializedOid path = (ledger.materializedRow path).map MaterializedRow.oid := by
  rw [Ledger.materializedOid, Ledger.materializedRow, Option.map_map]
  rfl

/-- What a complete and clean run leaves at a path. -/
theorem converges_at_iff (validating : (options.effectivePolicy store).validation = .validate)
    (unrestricted : options.selection.isUnrestricted) (run : SyncRun environment windows options store trace (.ok ⟨⟩))
    {outcome : SyncOutcome} (succeeded : (validatedSync environment windows options store).1 = .ok outcome)
    (clean : outcome.isClean) (path : GatPath) :
    (validatedSync environment windows options store).2.ledger.materializedOid path = store.ledger.desiredOid path ↔
      ¬Abandoned environment store.ledger path := by
  obtain ⟨-, tally, committed, prepared⟩ := run.complete outcome succeeded
  obtain ⟨planned, decided, delivered⟩ := run.exists_decision path
  obtain ⟨status, observed, cell⟩ := decided_decisionAt validating (options.selection.all_of_unrestricted unrestricted path) decided
  have unplanned (none : planned = none) :
      (validatedSync environment windows options store).2.ledger.materializedOid path = store.ledger.materializedOid path := by
    have others : ∀ event ∈ trace, event.path ≠ path := by
      rintro event member rfl
      rw [none] at decided
      cases decided.symm.trans (run.decisionAt member)
    rw [committed, Ledger.materializedOid, get?_applyBatch_trace_of_ne _ others]
    rfl
  have performed {event : PlanEvent} (found : planned = some event) :
      (validatedSync environment windows options store).2.ledger.materializedOid path =
        ((rowAfter environment options.force event (store.ledger.get? path)).bind LedgerRow.materialized).map Prod.fst := by
    cases found
    have here : event.path = path := path_plannedAt decided
    rw [committed, Ledger.materializedOid, ← here, get?_applyBatch_trace _ run.traced.nodup_paths (delivered event rfl)]
  have resolved {action : SyncAction} (found : planned = some (.action action)) :
      (resolveAction action options.force).unresolved = false := by
    cases found
    exact resolved_of_isClean (tally ▸ clean) (delivered _ rfl)
  have held := store.ledger.materializedOid_eq path
  generalize entryHere : store.ledger.desiredEntry path = entry at cell
  generalize rowHere : store.ledger.materializedRow path = row at cell held
  have wanted {desired : Entry} (found : entry = some desired) : store.ledger.desiredOid path = some desired.oid := by
    obtain ⟨oid, same, rfl⟩ := Option.map_eq_some_iff.mp (entryHere.trans found)
    exact same
  have unwanted (found : entry = none) : store.ledger.desiredOid path = none := Option.map_eq_none_iff.mp (entryHere.trans found)
  cases cell with
  | wanted verified edited =>
    have writes := effect_classifyObject (resolved rfl)
    obtain ⟨staged, answered⟩ := prepared _ (delivered _ rfl) _ writes
    rw [performed rfl, rowAfter_write writes answered, wanted rfl]
    exact iff_of_true rfl fun abandoned => nomatch abandoned.undesired.symm.trans (wanted rfl)
  | clean same unedited =>
    rename_i desired prior
    rw [wanted rfl]
    refine iff_of_true ?_ fun abandoned => nomatch abandoned.undesired.symm.trans (wanted rfl)
    cases refresh : status.intoStateRefresh desired.path with
    | none => rw [unplanned (by rw [refresh]; rfl), held, same]; rfl
    | some mutation =>
      obtain ⟨proof, -, rfl⟩ := Option.map_eq_some_iff.mp refresh
      have unchanged := materialized_rowAfter_of_keep environment
        (rfl : (PlanEvent.refresh (.refreshStat desired.path proof)).effect options.force = .keep)
        fun _ found => ⟨_, _, (Option.some.inj found).symm⟩
      rw [performed (by rw [refresh]; rfl), unchanged]
      exact held.trans (congrArg some same.symm)
  | gone absent =>
    rw [unplanned rfl, held, unwanted rfl]
    refine iff_of_false nofun (not_not_intro ⟨unwanted rfl, ?_, status, observed, absent⟩)
    rw [held]
    rfl
  | stale unedited =>
    rw [performed rfl, rowAfter_remove rfl, unwanted rfl]
    refine iff_of_true rfl fun abandoned => ?_
    obtain ⟨other, seen, absent⟩ := abandoned.absent
    cases seen.symm.trans observed
    cases unedited.symm.trans absent
  | edited differs =>
    have forced : options.force = true := by
      cases force : options.force with
      | true => rfl
      | false => cases (force ▸ resolved rfl : (resolveAction (.conflict (.remove _)) false).unresolved = false)
    rw [performed rfl, rowAfter_remove (by rw [forced]; rfl), unwanted rfl]
    refine iff_of_true rfl fun abandoned => ?_
    obtain ⟨other, seen, absent⟩ := abandoned.absent
    cases seen.symm.trans observed
    cases differs.symm.trans absent
  | unmanaged =>
    rw [unplanned rfl, held, unwanted rfl]
    exact iff_of_true rfl fun abandoned => by simpa [held] using abandoned.held

/-- A clean unrestricted validated run settles the need for validation. It leaves every row with the desired
object, and so no dirty row, exactly when no row was abandoned. -/
theorem clean_sync_converges_iff (environment : SyncEnvironment ε φ) (windows : PlanWindows) (options : SyncOptions)
    (store : SyncStore φ) (validating : (options.effectivePolicy store).validation = .validate)
    (unrestricted : options.selection.isUnrestricted) (outcome : SyncOutcome)
    (succeeded : (validatedSync environment windows options store).1 = .ok outcome) (clean : outcome.isClean) :
    (validatedSync environment windows options store).2.validationRequired = false ∧
      (((∀ path, (validatedSync environment windows options store).2.ledger.materializedOid path =
            store.ledger.desiredOid path) ∧
          (validatedSync environment windows options store).2.ledger.dirtyPaths = []) ↔
        ∀ path, ¬Abandoned environment store.ledger path) := by
  obtain ⟨trace, result, run⟩ := exists_syncRun environment windows options store
  obtain ⟨rfl, -, committed, -⟩ := run.complete outcome succeeded
  refine ⟨run.trusted outcome succeeded unrestricted clean, fun ⟨converged, _⟩ path => ?_, fun kept => ?_⟩
  · exact (converges_at_iff validating unrestricted run succeeded clean path).mp (converged path)
  · have converged := fun path => (converges_at_iff validating unrestricted run succeeded clean path).mpr (kept path)
    refine ⟨converged, (Ledger.dirtyPaths_eq_nil_iff _).mpr fun path => (converged path).trans ?_⟩
    rw [committed, Ledger.desiredOid_applyBatch]

end Run

namespace StaleRow

def path : GatPath := .a

def object : Oid := .filled 1

/-- A working tree with one kind of node at every path. -/
def environment (node : WorktreeNode Unit) : SyncEnvironment Unit Unit where
  worktree := ⟨fun _ => .ok node, fun _ => []⟩
  verify _ := .ok .valid
  inspectDestination _ := .ok .missing
  stage _ := .ok ((), none)
  unlink _ := .ok ()
  commit _ := .ok ()
  prune _ := .ok ()
  desiredFault := none
  priorFault := none
  syncExcludes := .ok ()
  clearValidationRequired := .ok ()

def options : SyncOptions := ⟨⟨true, fun _ => true, fun _ _ => rfl⟩, false, .validate false⟩

/-- A ledger row that is no longer desired. -/
def ledger : Ledger := ⟨[(path, ⟨none, some (object, none)⟩)], by decide⟩

end StaleRow

/-- A row whose file is gone survives a clean run: it is neither desired nor left out of the dirty rows. -/
theorem abandoned_row_survives :
    (validatedSync (StaleRow.environment .absent) ⟨2, 2⟩ StaleRow.options ⟨.empty, StaleRow.ledger, true⟩).1 = .ok {} ∧
      SyncOutcome.isClean {} = true ∧
      (validatedSync (StaleRow.environment .absent) ⟨2, 2⟩ StaleRow.options ⟨.empty, StaleRow.ledger, true⟩).2.validationRequired = false ∧
      StaleRow.ledger.desiredOid StaleRow.path = none ∧
      (validatedSync (StaleRow.environment .absent) ⟨2, 2⟩ StaleRow.options
        ⟨.empty, StaleRow.ledger, true⟩).2.ledger.materializedOid StaleRow.path = some StaleRow.object ∧
      (validatedSync (StaleRow.environment .absent) ⟨2, 2⟩ StaleRow.options
        ⟨.empty, StaleRow.ledger, true⟩).2.ledger.dirtyPaths = [StaleRow.path] := by
  have ran : validatedSync (StaleRow.environment .absent) ⟨2, 2⟩ StaleRow.options ⟨.empty, StaleRow.ledger, true⟩ =
      (.ok {}, ⟨.empty, StaleRow.ledger, false⟩) := by
    have desired : (StaleRow.environment .absent).desiredStream StaleRow.ledger StaleRow.options.selection = ⟨[], by decide, none⟩ := rfl
    have prior : (StaleRow.environment .absent).priorStream StaleRow.ledger StaleRow.options.selection =
        ⟨[⟨StaleRow.path, StaleRow.object, none⟩], by decide, none⟩ := rfl
    unfold validatedSync mergeDesiredWithPrior
    simp only [desired, prior, RowStream.readable, mergeRows]
    rfl
  rw [ran]
  exact ⟨rfl, rfl, rfl, rfl, rfl, by decide⟩

/-- A stale row whose file still matches it is removed, and the run converges. -/
theorem clean_sync_converges_stale :
    (validatedSync (StaleRow.environment (.symlink (.ok []))) ⟨2, 2⟩ StaleRow.options
      ⟨⟨[(StaleRow.path, ())], by decide⟩, StaleRow.ledger, true⟩).2.ledger.dirtyPaths = [] := by
  have desired : (StaleRow.environment (.symlink (.ok []))).desiredStream StaleRow.ledger StaleRow.options.selection =
      ⟨[], by decide, none⟩ := rfl
  have prior : (StaleRow.environment (.symlink (.ok []))).priorStream StaleRow.ledger StaleRow.options.selection =
      ⟨[⟨StaleRow.path, StaleRow.object, none⟩], by decide, none⟩ := rfl
  have ran : (validatedSync (StaleRow.environment (.symlink (.ok []))) ⟨2, 2⟩ StaleRow.options
      ⟨⟨[(StaleRow.path, ())], by decide⟩, StaleRow.ledger, true⟩).1 = .ok { removed := 1 } := by
    unfold validatedSync mergeDesiredWithPrior
    simp only [desired, prior, RowStream.readable, mergeRows]
    rfl
  refine ((clean_sync_converges_iff _ _ _ _ rfl rfl _ ran rfl).2.mpr fun path abandoned => ?_).2
  obtain ⟨status, observed, absent⟩ := abandoned.absent
  have held := abandoned.held
  rw [StaleRow.ledger.materializedOid_eq] at held
  unfold SyncEnvironment.fileStatusAt at observed
  cases row : StaleRow.ledger.materializedRow path with
  | none => rw [row] at held; cases held
  | some prior =>
    rw [row] at observed
    cases observed
    cases absent

end Gat
