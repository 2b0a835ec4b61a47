import Gat.Proofs.SyncRun

/-! # The decision table of a validated sync

A path is classified by its desired entry, its ledger row, the status of its file and the integrity of its
object. Every decision about an edited file withholds its effect, and every other decision brings the
row of its path in line with the lock, except that nothing is decided for a file that is already gone.
-/

namespace Gat

variable {ε φ : Type}

/-! ## Rows of a stream -/

theorem RowStream.row?_eq_some_iff {ρ : Type} {path : ρ → GatPath} {stream : RowStream ε path} {key : GatPath} {row : ρ} :
    stream.row? key = some row ↔ row ∈ stream.rows ∧ path row = key := by
  constructor
  · intro found
    exact ⟨List.mem_of_find?_eq_some found, RowStream.path_of_row? row found⟩
  · rintro ⟨member, rfl⟩
    have distinct : (stream.rows.map path).Nodup := List.pairwise_map.mpr (stream.ordered.imp ne_of_lt)
    cases found : stream.row? (path row) with
    | none => simpa using List.find?_eq_none.mp found row member
    | some other =>
      have same := RowStream.path_of_row? other found
      rw [List.inj_on_of_nodup_map distinct (List.mem_of_find?_eq_some found) member same]

namespace Ledger

variable {ledger : Ledger} {selection : Selection} {path : GatPath}

/-- A stream of the desired rows has the desired half of a selected path. -/
theorem row?_desiredRows {stream : DesiredStream ε} (reads : stream.rows = ledger.desiredRows selection) :
    stream.row? path = if selection.selects path then (ledger.desiredOid path).map (Entry.mk path) else none := by
  refine Option.ext fun entry => RowStream.row?_eq_some_iff.trans ?_
  rw [reads, mem_desiredRows, Option.ite_none_right_eq_some, Option.map_eq_some_iff]
  constructor
  · rintro ⟨⟨selected, desired⟩, rfl⟩
    exact ⟨selected, entry.oid, desired, rfl⟩
  · rintro ⟨selected, oid, desired, rfl⟩
    exact ⟨⟨selected, desired⟩, rfl⟩

/-- A stream of the materialized rows has the materialized half of a selected path. -/
theorem row?_materializedRows {stream : PriorStream ε} (reads : stream.rows = ledger.materializedRows selection) :
    stream.row? path =
      if selection.selects path then ((ledger.get? path).bind LedgerRow.materialized).map fun held => ⟨path, held.1, held.2⟩ else none := by
  refine Option.ext fun row => RowStream.row?_eq_some_iff.trans ?_
  rw [reads, mem_materializedRows, Option.ite_none_right_eq_some, Option.map_eq_some_iff]
  constructor
  · rintro ⟨⟨selected, materialized⟩, rfl⟩
    exact ⟨selected, (row.oid, row.proof), materialized, rfl⟩
  · rintro ⟨selected, held, materialized, rfl⟩
    exact ⟨⟨selected, materialized⟩, rfl⟩

end Ledger

namespace SyncEnvironment

variable (environment : SyncEnvironment ε φ) (ledger : Ledger) (selection : Selection) {path : GatPath}

theorem desiredStream_row? (selected : selection.selects path) :
    (environment.desiredStream ledger selection).row? path = (ledger.desiredOid path).map (Entry.mk path) := by
  rw [Ledger.row?_desiredRows rfl, if_pos selected]

theorem priorStream_row? (selected : selection.selects path) :
    (environment.priorStream ledger selection).row? path =
      ((ledger.get? path).bind LedgerRow.materialized).map fun held => ⟨path, held.1, held.2⟩ := by
  rw [Ledger.row?_materializedRows rfl, if_pos selected]

end SyncEnvironment

/-! ## The table -/

/-- A decision that leaves the file of its path alone until it is resolved. -/
def SyncAction.withholds : SyncAction → Bool
  | .conflict _ | .corrupted _ _ => true
  | _ => false

namespace PlanContext

variable (context : PlanContext ε)

/-- The status of a path's file: against its ledger row, or against the desired object without one. -/
def statusOf : Option Entry → Option MaterializedRow → Except ε WorktreeFileStatus
  | _, some prior => context.fileStatus prior
  | some desired, none => context.fileStatusWithoutPrior desired.path desired.oid
  | none, none => .ok .absent

/-- The validated decisions, by what is desired, what was materialized and the status of the file. -/
inductive Decided : Option Entry → Option MaterializedRow → WorktreeFileStatus → Option PlanEvent → Prop
  | wanted {desired : Entry} {prior : Option MaterializedRow} {status : WorktreeFileStatus} {integrity : ObjectVerification}
      {intent : MaterializationIntent} (verified : context.verify desired.oid = .ok integrity)
      (edited : intent.isConflict ↔ status.kind = .differs) :
      Decided (some desired) prior status (some (.action (classifyObject integrity desired intent)))
  | clean {desired : Entry} {prior : MaterializedRow} {status : WorktreeFileStatus} (same : desired.oid = prior.oid)
      (unedited : status.kind = .matching) :
      Decided (some desired) (some prior) status ((status.intoStateRefresh desired.path).map PlanEvent.refresh)
  | gone {prior : MaterializedRow} {status : WorktreeFileStatus} (absent : status.kind = .absent) :
      Decided none (some prior) status none
  | stale {prior : MaterializedRow} {status : WorktreeFileStatus} (unedited : status.kind = .matching) :
      Decided none (some prior) status (some (.action (.remove prior.path)))
  | edited {prior : MaterializedRow} {status : WorktreeFileStatus} (differs : status.kind = .differs) :
      Decided none (some prior) status (some (.action (.conflict (.remove prior.path))))
  | unmanaged : Decided none none .absent none

variable {context}

theorem isConflict_validatedIntent (status : WorktreeFileStatus) :
    (validatedIntent status).isConflict ↔ status.kind = .differs := by
  unfold validatedIntent
  cases status.kind <;> simp [MaterializationIntent.isConflict]

/-- A pending row is decided once its object is verified. -/
theorem outcome_pending {desired : Entry} {intent : MaterializationIntent} {event : Option PlanEvent}
    (planned : context.outcome (.pending ⟨desired, intent⟩) = .ok event) :
    ∃ integrity, context.verify desired.oid = .ok integrity ∧ event = some (.action (classifyObject integrity desired intent)) := by
  unfold outcome at planned
  cases verified : context.verify desired.oid with
  | error failure => simp [verified, Except.map] at planned
  | ok integrity =>
    simp only [verified, Except.map, Except.ok.injEq] at planned
    exact ⟨integrity, rfl, planned.symm⟩

theorem decided_desiredOnly (validating : context.policy.validation = .validate) {desired : Entry} {event : Option PlanEvent}
    (planned : context.planRow (some desired) none = .ok event) :
    ∃ status, context.statusOf (some desired) none = .ok status ∧ context.Decided (some desired) none status event := by
  simp only [planRow, classify, desiredOnlyPending, validating] at planned
  cases observed : context.fileStatusWithoutPrior desired.path desired.oid with
  | error failure => simp [observed, bind, Except.bind] at planned
  | ok status =>
    simp only [observed, bind, Except.bind, pure, Except.pure] at planned
    obtain ⟨integrity, verified, rfl⟩ := outcome_pending planned
    exact ⟨status, observed, .wanted verified (isConflict_validatedIntent status)⟩

theorem decided_priorOnly (validating : context.policy.validation = .validate) {prior : MaterializedRow} {event : Option PlanEvent}
    (planned : context.planRow none (some prior) = .ok event) :
    ∃ status, context.statusOf none (some prior) = .ok status ∧ context.Decided none (some prior) status event := by
  simp only [planRow, classify, priorOnlyAction, validating] at planned
  cases observed : context.fileStatus prior with
  | error failure => simp [observed, bind, Except.bind] at planned
  | ok status =>
    refine ⟨status, observed, ?_⟩
    simp only [observed, bind, Except.bind] at planned
    cases kind : status.kind with
    | absent =>
      cases (show (.ok none : Except ε (Option PlanEvent)) = .ok event by simpa [kind, pure, Except.pure, outcome] using planned)
      exact .gone kind
    | matching =>
      cases (show (.ok (some (.action (.remove prior.path))) : Except ε (Option PlanEvent)) = .ok event by
        simpa [kind, pure, Except.pure, outcome] using planned)
      exact .stale kind
    | differs =>
      cases (show (.ok (some (.action (.conflict (.remove prior.path)))) : Except ε (Option PlanEvent)) = .ok event by
        simpa [kind, pure, Except.pure, outcome] using planned)
      exact .edited kind

theorem decided_both (validating : context.policy.validation = .validate) {desired : Entry} {prior : MaterializedRow}
    {event : Option PlanEvent} (planned : context.planRow (some desired) (some prior) = .ok event) :
    ∃ status, context.statusOf (some desired) (some prior) = .ok status ∧
      context.Decided (some desired) (some prior) status event := by
  simp only [planRow, classify, classifyBoth, validating] at planned
  cases observed : context.fileStatus prior with
  | error failure => simp [observed, bind, Except.bind] at planned
  | ok status =>
    refine ⟨status, observed, ?_⟩
    simp only [observed, bind, Except.bind] at planned
    by_cases same : desired.oid = prior.oid
    · rw [if_pos same] at planned
      cases kind : status.kind with
      | absent =>
        rw [kind] at planned
        obtain ⟨integrity, verified, rfl⟩ := outcome_pending planned
        exact .wanted verified (by simp [MaterializationIntent.isConflict, kind])
      | matching =>
        rw [kind] at planned
        cases again : context.policy.rematerialize with
        | true =>
          simp only [again, if_true] at planned
          obtain ⟨integrity, verified, rfl⟩ := outcome_pending planned
          exact .wanted verified (by simp [MaterializationIntent.isConflict, kind])
        | false =>
          have refreshed : event = (status.intoStateRefresh desired.path).map PlanEvent.refresh := by
            simp only [again, pure, Except.pure] at planned
            cases refresh : status.intoStateRefresh desired.path <;> rw [refresh] at planned <;> cases planned <;> rfl
          exact refreshed ▸ .clean same kind
      | differs =>
        rw [kind] at planned
        obtain ⟨integrity, verified, rfl⟩ := outcome_pending planned
        exact .wanted verified (by split_ifs <;> simp [MaterializationIntent.isConflict, kind])
    · rw [if_neg same] at planned
      obtain ⟨integrity, verified, rfl⟩ := outcome_pending planned
      exact .wanted verified (isConflict_validatedIntent status)

/-- A validated decision is a cell of the table. -/
theorem decided_planRow (validating : context.policy.validation = .validate) {desired : Option Entry}
    {prior : Option MaterializedRow} {event : Option PlanEvent} (planned : context.planRow desired prior = .ok event) :
    ∃ status, context.statusOf desired prior = .ok status ∧ context.Decided desired prior status event := by
  cases desired with
  | some desired =>
    cases prior with
    | some prior => exact decided_both validating planned
    | none => exact decided_desiredOnly validating planned
  | none =>
    cases prior with
    | some prior => exact decided_priorOnly validating planned
    | none =>
      cases planned
      exact ⟨.absent, rfl, .unmanaged⟩

/-- An edited file gets a decision, and it is a conflict or a corruption. -/
theorem Decided.withholds {desired : Option Entry} {prior : Option MaterializedRow} {status : WorktreeFileStatus}
    {event : Option PlanEvent} (decided : context.Decided desired prior status event) (differs : status.kind = .differs) :
    ∃ action : SyncAction, event = some (.action action) ∧ action.withholds := by
  cases decided with
  | wanted verified edited =>
    have conflict := edited.mpr differs
    refine ⟨_, rfl, ?_⟩
    rename_i integrity intent
    cases integrity <;> cases intent <;> first | rfl | cases conflict
  | clean same unedited => cases unedited.symm.trans differs
  | gone absent => cases absent.symm.trans differs
  | stale unedited => cases unedited.symm.trans differs
  | edited differs => exact ⟨_, rfl, rfl⟩
  | unmanaged => cases differs

/-- Without a valid object a wanted path keeps its file, whatever is forced. -/
theorem Decided.keeps_of_invalid {desired : Entry} {prior : Option MaterializedRow} {status : WorktreeFileStatus}
    {event : PlanEvent} (decided : context.Decided (some desired) prior status (some event))
    (invalid : context.verify desired.oid ≠ .ok .valid) (force : Bool) : event.effect force = .keep := by
  generalize found : some event = planned at decided
  cases decided with
  | wanted verified edited =>
    cases found
    rename_i integrity intent
    cases integrity with
    | valid => exact absurd verified invalid
    | corrupt => rfl
    | missing =>
      cases intent <;> first | rfl | (cases force <;> rfl)
  | clean same unedited =>
    obtain ⟨refresh, -, same⟩ := Option.map_eq_some_iff.mp found.symm
    cases same
    rfl

/-- The only refreshes are of stat evidence. -/
theorem Decided.refreshStat {desired : Option Entry} {prior : Option MaterializedRow} {status : WorktreeFileStatus}
    {event : PlanEvent} (decided : context.Decided desired prior status (some event)) {mutation : StateMutation}
    (refreshed : event.refresh? = some mutation) : ∃ path proof, mutation = .refreshStat path proof := by
  generalize found : some event = planned at decided
  cases decided with
  | clean same unedited =>
    obtain ⟨refresh, isRefresh, rfl⟩ := Option.map_eq_some_iff.mp found.symm
    obtain ⟨proof, -, rfl⟩ := Option.map_eq_some_iff.mp isRefresh
    cases refreshed
    exact ⟨_, _, rfl⟩
  | gone absent => cases found
  | unmanaged => cases found
  | _ =>
    cases found
    cases refreshed

end PlanContext

/-! ## What a run reports -/

/-- A resolved action that leaves its path for later. -/
def SyncAction.unresolved : SyncAction → Bool
  | .conflict _ | .missingObject _ _ | .corrupted _ _ => true
  | _ => false

theorem isClean_recordAction (outcome : SyncOutcome) (action : SyncAction) :
    (recordAction outcome action).isClean = (outcome.isClean && !action.unresolved) := by
  cases action <;> simp [recordAction, SyncOutcome.isClean, SyncAction.unresolved]

/-- What follows cannot clean an outcome. -/
theorem isClean_of_foldl {force : Bool} {trace : List PlanEvent} {start : SyncOutcome}
    (clean : (trace.foldl (outcomeAfter force) start).isClean) : start.isClean := by
  induction trace generalizing start with
  | nil => exact clean
  | cons event trace ih =>
    have before : (outcomeAfter force start event).isClean := ih clean
    cases event with
    | refresh mutation => exact before
    | action decision =>
      rw [outcomeAfter, isClean_recordAction, Bool.and_eq_true] at before
      exact before.1

/-- A clean run has resolved every action. -/
theorem resolved_of_isClean {force : Bool} {trace : List PlanEvent} {start : SyncOutcome}
    (clean : (trace.foldl (outcomeAfter force) start).isClean) {action : SyncAction} (member : .action action ∈ trace) :
    (resolveAction action force).unresolved = false := by
  induction trace generalizing start with
  | nil => cases member
  | cons event trace ih =>
    rcases List.mem_cons.mp member with rfl | later
    · have after : (outcomeAfter force start (.action action)).isClean := isClean_of_foldl clean
      rw [outcomeAfter, isClean_recordAction, Bool.and_eq_true, Bool.not_eq_true'] at after
      exact after.2
    · exact ih clean later

/-- The paths that an outcome reports as edited or corrupt. -/
def SyncOutcome.withheld (outcome : SyncOutcome) : List GatPath := outcome.conflicts ++ outcome.corrupted.map Prod.fst

theorem withheld_subset_recordAction (outcome : SyncOutcome) (action : SyncAction) :
    outcome.withheld ⊆ (recordAction outcome action).withheld := by
  cases action <;> simp [recordAction, SyncOutcome.withheld]

theorem path_mem_withheld {action : SyncAction} (withholds : action.withholds) (outcome : SyncOutcome) :
    action.path ∈ (recordAction outcome (resolveAction action false)).withheld := by
  cases action with
  | conflict resolution => simp [recordAction, resolveAction, SyncOutcome.withheld, SyncAction.path]
  | corrupted path oid => simp [recordAction, resolveAction, SyncOutcome.withheld, SyncAction.path]
  | _ => cases withholds

theorem withheld_subset_foldl (force : Bool) (trace : List PlanEvent) (start : SyncOutcome) :
    start.withheld ⊆ (trace.foldl (outcomeAfter force) start).withheld := by
  induction trace generalizing start with
  | nil => exact List.Subset.refl _
  | cons event trace ih =>
    cases event with
    | refresh mutation => exact ih start
    | action decision => exact List.Subset.trans (withheld_subset_recordAction start _) (ih _)

/-- A run without force reports every path that it withholds. -/
theorem reported_of_withholds {trace : List PlanEvent} {start : SyncOutcome} {action : SyncAction}
    (member : .action action ∈ trace) (withholds : action.withholds) :
    action.path ∈ (trace.foldl (outcomeAfter false) start).withheld := by
  induction trace generalizing start with
  | nil => cases member
  | cons event trace ih =>
    rcases List.mem_cons.mp member with rfl | later
    · exact withheld_subset_foldl false trace _ (path_mem_withheld withholds start)
    · exact ih later

/-! ## The table at a path of a store -/

/-- The ledger row of a path as a run reads it. -/
def Ledger.materializedRow (ledger : Ledger) (path : GatPath) : Option MaterializedRow :=
  ((ledger.get? path).bind LedgerRow.materialized).map fun held => ⟨path, held.1, held.2⟩

/-- The desired entry of a path as a run reads it. -/
def Ledger.desiredEntry (ledger : Ledger) (path : GatPath) : Option Entry := (ledger.desiredOid path).map (Entry.mk path)

/-- The status of the file at a path: against the ledger's row of it, or against the desired object. -/
def SyncEnvironment.fileStatusAt (environment : SyncEnvironment ε φ) (ledger : Ledger) (path : GatPath) :
    Except ε WorktreeFileStatus :=
  match ledger.materializedRow path, ledger.desiredOid path with
  | some prior, _ => environment.worktree.fileStatus prior false
  | none, some oid => environment.worktree.fileStatusWithoutPrior path oid false
  | none, none => .ok .absent

section AtPath

variable {environment : SyncEnvironment ε φ} {options : SyncOptions} {store : SyncStore φ} {path : GatPath}

theorem decisionAt_of_selected (selected : options.selection.selects path) :
    decisionAt environment options store path = (environment.planContext (options.effectivePolicy store)).planRow
      (store.ledger.desiredEntry path) (store.ledger.materializedRow path) := by
  rw [decisionAt, plannedAt, environment.desiredStream_row? _ _ selected, environment.priorStream_row? _ _ selected]
  rfl

/-- A path outside the selection is left alone. -/
theorem decisionAt_of_not_selected (outside : ¬options.selection.selects path) :
    decisionAt environment options store path = .ok none := by
  have noDesired : (environment.desiredStream store.ledger options.selection).row? path = none := by
    rw [Option.eq_none_iff_forall_not_mem]
    intro entry found
    obtain ⟨member, rfl⟩ := RowStream.row?_eq_some_iff.mp found
    exact outside (store.ledger.mem_desiredRows.mp member).1
  have noPrior : (environment.priorStream store.ledger options.selection).row? path = none := by
    rw [Option.eq_none_iff_forall_not_mem]
    intro row found
    obtain ⟨member, rfl⟩ := RowStream.row?_eq_some_iff.mp found
    exact outside (store.ledger.mem_materializedRows.mp member).1
  rw [decisionAt, plannedAt, noDesired, noPrior]
  rfl

/-- What a validated run decides for a selected path is a cell of the table. -/
theorem decided_decisionAt (validating : (options.effectivePolicy store).validation = .validate)
    (selected : options.selection.selects path) {event : Option PlanEvent}
    (decided : decisionAt environment options store path = .ok event) :
    ∃ status, environment.fileStatusAt store.ledger path = .ok status ∧
      (environment.planContext (options.effectivePolicy store)).Decided (store.ledger.desiredEntry path)
        (store.ledger.materializedRow path) status event := by
  rw [decisionAt_of_selected selected] at decided
  obtain ⟨status, observed, cell⟩ := PlanContext.decided_planRow validating decided
  refine ⟨status, ?_, cell⟩
  unfold SyncEnvironment.fileStatusAt
  cases prior : store.ledger.materializedRow path with
  | some prior =>
    rw [prior] at observed
    simpa [PlanContext.statusOf, SyncEnvironment.planContext, validating, Except.mapError_eq_ok_iff] using observed
  | none =>
    rw [prior] at observed
    cases desired : store.ledger.desiredOid path with
    | some oid =>
      rw [Ledger.desiredEntry, desired] at observed
      simpa [PlanContext.statusOf, SyncEnvironment.planContext, validating, Except.mapError_eq_ok_iff] using observed
    | none =>
      rw [Ledger.desiredEntry, desired] at observed
      cases observed
      rfl

end AtPath

end Gat
