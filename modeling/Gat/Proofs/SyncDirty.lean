import Gat.Model.SyncDirty
import Gat.Proofs.StateStore
import Gat.Proofs.SyncTable

/-! # A page is planned like its paths in the full merge

A plan made from dirty rows has the outcomes of its rows in order, and under trust the full merge decides about a
path what its dirty row says, or nothing when the row is clean.
-/

namespace Gat

variable {ε : Type} {context : PlanContext ε} {selection : ScopedSelection} {path : GatPath}

/-! ## Collected plans -/

/-- The collecting sink ends with what has been delivered. -/
theorem exec_collectPlanSink {program : Producer ε PUnit} {trace : List PlanEvent} {result : Outcome ε PUnit}
    (delivers : Delivers program trace result) :
    (program SyncPlan collectPlanSink).exec {} = (result, ⟨actionsOf trace, refreshesOf trace⟩) := by
  have sent (plan : SyncPlan) : (forM trace collectPlanSink.send : Fallible (Fault ε) SyncPlan PUnit).exec plan =
      (.ok ⟨⟩, ⟨plan.actions ++ actionsOf trace, plan.validatedStateMutations ++ refreshesOf trace⟩) := by
    clear delivers
    induction trace generalizing plan with
    | nil => simp [actionsOf, refreshesOf]
    | cons event trace ih =>
      rw [List.forM_cons]
      cases event with
      | action action =>
        have one : (collectPlanSink.send (.action action) : Fallible (Fault ε) SyncPlan PUnit).exec plan =
            (.ok ⟨⟩, { plan with actions := plan.actions ++ [action] }) := rfl
        rw [Fallible.exec_bind_ok one, ih]
        simp [actionsOf, refreshesOf, List.filterMap_cons, PlanEvent.action?, PlanEvent.refresh?]
      | refresh mutation =>
        have one : (collectPlanSink.send (.refresh mutation) : Fallible (Fault ε) SyncPlan PUnit).exec plan =
            (.ok ⟨⟩, { plan with validatedStateMutations := plan.validatedStateMutations ++ [mutation] }) := rfl
        rw [Fallible.exec_bind_ok one, ih]
        simp [actionsOf, refreshesOf, List.filterMap_cons, PlanEvent.action?, PlanEvent.refresh?]
  rw [delivers, Fallible.exec_bind_ok (sent {}), Fallible.exec_raise]
  rfl

/-- Everything has been sent, or an outcome fails and so does the run. -/
theorem Sent.cases {outcomes : List (Except ε (Option PlanEvent))} {trace : List PlanEvent} {result : Outcome ε PUnit}
    (sent : Sent outcomes trace result) :
    (result = .ok ⟨⟩ ∧ AllOk outcomes ∧ actionsOf trace = actionsOf (eventsOf outcomes)) ∨
      ∃ failure, result = Outcome.fail failure ∧ ¬AllOk outcomes := by
  rcases result with (failure | _) | done
  · exact Or.inr ⟨failure, rfl, fun allOk => nomatch sent.succeeds.mpr allOk⟩
  · exact absurd rfl sent.noPanic
  · exact Or.inl ⟨rfl, sent.succeeds.mp rfl, (sent.complete rfl).1⟩

/-! ## One page -/

/-- The outcomes of the selected rows of a page. -/
def dirtyOutcomes (context : PlanContext ε) (selection : ScopedSelection) (rows : List DirtyRow) : List (Except ε (Option PlanEvent)) :=
  (rows.filter fun row => selection.matchesStr row.path.text).map fun row => context.outcome row.classified

theorem dirtyOutcomes_append (first second : List DirtyRow) :
    dirtyOutcomes context selection (first ++ second) = dirtyOutcomes context selection first ++ dirtyOutcomes context selection second := by
  simp [dirtyOutcomes]

theorem progress_pushDirty (context : PlanContext ε) (windows : PlanWindows) (selection : ScopedSelection) (rows : List DirtyRow)
    {buffer : MergeBuffer} (aligned : buffer.Aligned) :
    Progress context (fun _ sink => rows.foldlM (MergeBuffer.pushDirty context windows sink selection) buffer)
      (buffer.outcomes context ++ dirtyOutcomes context selection rows) := by
  induction rows generalizing buffer with
  | nil =>
    rw [dirtyOutcomes, List.filter_nil, List.map_nil, List.append_nil]
    exact .continued [] buffer (Delivers.result (.ok buffer)) aligned rfl (buffer.refreshesOf_outcomes context) Iff.rfl
      fun _ => List.Pairwise.nil
  | cons row rows ih =>
    simp only [List.foldlM_cons, dirtyOutcomes, List.filter_cons, MergeBuffer.pushDirty]
    split_ifs with selected
    · have first := aligned.push context windows row.classified
      have whole := first.bind (fun buffer _ sink => rows.foldlM (MergeBuffer.pushDirty context windows sink selection) buffer)
        fun buffer aligned => ih aligned
      rwa [List.append_assoc, List.singleton_append] at whole
    · exact ih aligned

/-- A page is planned completely, or one of its objects cannot be verified. -/
theorem planFromDirtyRows_cases (context : PlanContext ε) (verifyWindow : ℕ+) (rows : List DirtyRow) (selection : ScopedSelection) :
    (planFromDirtyRows context verifyWindow rows selection = .ok (actionsOf (eventsOf (dirtyOutcomes context selection rows))) ∧
        AllOk (dirtyOutcomes context selection rows)) ∨
      (∃ failure, planFromDirtyRows context verifyWindow rows selection = Outcome.fail failure) ∧
        ¬AllOk (dirtyOutcomes context selection rows) := by
  unfold planFromDirtyRows
  split_ifs with nothing
  · subst nothing
    exact Or.inl ⟨rfl, by simp [AllOk, dirtyOutcomes]⟩
  · obtain ⟨trace, result, delivers, sent⟩ :=
      (progress_pushDirty context ⟨⟨rows.length, List.length_pos_iff.mpr nothing⟩, verifyWindow⟩ selection rows
        MergeBuffer.aligned_empty).finish ⟨⟨rows.length, List.length_pos_iff.mpr nothing⟩, verifyWindow⟩
    have collected := exec_collectPlanSink delivers
    change Sent (dirtyOutcomes context selection rows) trace result at sent
    dsimp only
    unfold planDirtyRows
    rw [collected]
    rcases sent.cases with ⟨rfl, allOk, actions⟩ | ⟨failure, rfl, notOk⟩
    · exact Or.inl ⟨by rw [← actions]; rfl, allOk⟩
    · exact Or.inr ⟨⟨failure, rfl⟩, notOk⟩

/-! ## The decisions of a trusting merge -/

theorem DirtyRow.about_classified (row : DirtyRow) : row.classified.About row.path := by
  obtain ⟨path, desired, materialized⟩ := row
  cases desired <;> cases materialized <;> first | rfl | trivial

theorem DirtyRow.path_of_outcome {row : DirtyRow} {event : PlanEvent} (planned : context.outcome row.classified = .ok (some event)) :
    event.path = row.path :=
  PlanContext.path_outcome row.about_classified planned

/-- Under trust the halves of a ledger row are classified by its dirty row, or the row is clean. -/
theorem classify_trusted (trusts : context.policy.validation = .trustState) (row : LedgerRow) :
    context.classify (row.desired.map (Entry.mk path)) (row.materialized.map fun held => ⟨path, held.1, held.2⟩) =
      .ok (if row.dirty then (DirtyRow.read (path, row)).classified else .unchanged) := by
  obtain ⟨desired, materialized⟩ := row
  cases desired with
  | none =>
    cases materialized with
    | none => rfl
    | some held =>
      simp only [Option.map_none, Option.map_some, PlanContext.classify, PlanContext.priorOnlyAction, trusts]
      rfl
  | some oid =>
    cases materialized with
    | none =>
      simp only [Option.map_none, Option.map_some, PlanContext.classify, PlanContext.desiredOnlyPending, trusts]
      rfl
    | some held =>
      simp only [Option.map_some, PlanContext.classify, PlanContext.classifyBoth, trusts, LedgerRow.dirty, ne_eq,
        decide_not, Bool.not_eq_true', decide_eq_false_iff_not, ite_not]
      rfl

/-- What a trusting sync decides about a path. -/
def trustedAt (context : PlanContext ε) (selection : ScopedSelection) (ledger : Ledger) (path : GatPath) : Except ε (Option PlanEvent) :=
  match ledger.get? path with
  | some row => if selection.matchesStr path.text ∧ row.dirty then context.outcome (DirtyRow.read (path, row)).classified else .ok none
  | none => .ok none

variable {ledger : Ledger}

theorem plannedAt_trusted (trusts : context.policy.validation = .trustState) (path : GatPath) :
    plannedAt context (ledger.desiredStream selection.toSelection) (ledger.priorStream selection.toSelection) path =
      trustedAt context selection ledger path := by
  unfold plannedAt trustedAt
  rw [Ledger.row?_desiredRows rfl, Ledger.row?_materializedRows rfl, Ledger.desiredOid]
  change context.planRow (if selection.matchesStr path.text then _ else _) (if selection.matchesStr path.text then _ else _) = _
  by_cases selected : selection.matchesStr path.text
  · rw [if_pos selected, if_pos selected]
    cases found : ledger.get? path with
    | none => rfl
    | some row =>
      rw [PlanContext.planRow, Option.bind_some, Option.bind_some, classify_trusted trusts row]
      simp only [selected, true_and]
      split_ifs <;> rfl
  · rw [if_neg selected, if_neg selected]
    simp only [selected, false_and, if_false, Bool.false_eq_true]
    split <;> rfl

/-- Everything dirty in the scope of a selection. -/
def Ledger.dirtyRows (ledger : Ledger) (selection : ScopedSelection) : List DirtyRow := ledger.dirtyRowsAfter selection.scopePath none

theorem Ledger.mem_dirtyRows {row : DirtyRow} (selected : selection.matchesStr row.path.text) :
    row ∈ ledger.dirtyRows selection ↔ ∃ held, ledger.get? row.path = some held ∧ held.dirty ∧ DirtyRow.read (row.path, held) = row := by
  unfold dirtyRows dirtyRowsAfter
  rw [List.mem_map]
  constructor
  · rintro ⟨entry, member, rfl⟩
    rw [List.mem_filter, Bool.and_eq_true_iff, Bool.and_eq_true_iff] at member
    exact ⟨entry.2, SortedMap.get?_of_mem member.1, member.2.1.1, rfl⟩
  · rintro ⟨held, found, dirty, same⟩
    refine ⟨(row.path, held), List.mem_filter.mpr ⟨SortedMap.get?_eq_some_iff.mp found, ?_⟩, same⟩
    rw [Bool.and_eq_true_iff, Bool.and_eq_true_iff]
    exact ⟨⟨dirty, ScopedSelection.inScope_of_matchesStr selected⟩, rfl⟩

theorem mem_dirtyOutcomes {outcome : Except ε (Option PlanEvent)} :
    outcome ∈ dirtyOutcomes context selection (ledger.dirtyRows selection) ↔
      ∃ path row, ledger.get? path = some row ∧ selection.matchesStr path.text ∧ row.dirty ∧
        context.outcome (DirtyRow.read (path, row)).classified = outcome := by
  unfold dirtyOutcomes
  rw [List.mem_map]
  constructor
  · rintro ⟨row, member, rfl⟩
    obtain ⟨inside, selected⟩ := List.mem_filter.mp member
    obtain ⟨held, found, dirty, same⟩ := (Ledger.mem_dirtyRows selected).mp inside
    exact ⟨row.path, held, found, selected, dirty, by rw [same]⟩
  · rintro ⟨path, row, found, selected, dirty, rfl⟩
    exact ⟨DirtyRow.read (path, row), List.mem_filter.mpr ⟨(Ledger.mem_dirtyRows selected).mpr ⟨row, found, dirty, rfl⟩, selected⟩, rfl⟩

theorem pairwise_dirtyEvents (context : PlanContext ε) (selection : ScopedSelection) {rows : List DirtyRow}
    (ordered : rows.Pairwise fun first second => first.path < second.path) :
    (eventsOf (dirtyOutcomes context selection rows)).Pairwise fun first second => first.path < second.path := by
  unfold eventsOf dirtyOutcomes
  rw [List.filterMap_map]
  refine (ordered.filter _).filterMap _ fun first second before event planned other otherPlanned => ?_
  rw [DirtyRow.path_of_outcome (toOption_join_eq_some_iff.mp planned), DirtyRow.path_of_outcome (toOption_join_eq_some_iff.mp otherPlanned)]
  exact before

/-- The full merge under trust delivers the events of the dirty rows in their order. -/
theorem eventsOf_plannedOutcomes_trusted (trusts : context.policy.validation = .trustState) :
    eventsOf (plannedOutcomes context (ledger.desiredStream selection.toSelection) (ledger.priorStream selection.toSelection)) =
      eventsOf (dirtyOutcomes context selection (ledger.dirtyRows selection)) := by
  refine List.eq_of_key_lt PlanEvent.path (pairwise_plannedEvents _ _ _)
    (pairwise_dirtyEvents context selection (ledger.pairwise_dirtyRowsAfter _ _)) fun event => ?_
  rw [mem_plannedEvents, plannedAt_trusted trusts, mem_eventsOf, mem_dirtyOutcomes]
  unfold trustedAt
  constructor
  · intro planned
    cases found : ledger.get? event.path with
    | none => simp [found] at planned
    | some row =>
      simp only [found] at planned
      split_ifs at planned with both
      · exact ⟨event.path, row, found, both.1, both.2, planned⟩
      · cases planned
  · rintro ⟨path, row, found, selected, dirty, planned⟩
    obtain rfl : event.path = path := DirtyRow.path_of_outcome planned
    simp only [found]
    rw [if_pos ⟨selected, dirty⟩, planned]

/-- Every path of the full merge is decided when every dirty row is. -/
theorem allOk_plannedOutcomes_trusted (trusts : context.policy.validation = .trustState) :
    AllOk (plannedOutcomes context (ledger.desiredStream selection.toSelection) (ledger.priorStream selection.toSelection)) ↔
      AllOk (dirtyOutcomes context selection (ledger.dirtyRows selection)) := by
  constructor
  · intro allOk outcome member
    obtain ⟨path, row, found, selected, dirty, rfl⟩ := mem_dirtyOutcomes.mp member
    have here : trustedAt context selection ledger path = context.outcome (DirtyRow.read (path, row)).classified := by
      unfold trustedAt
      simp only [found]
      exact if_pos ⟨selected, dirty⟩
    rw [← here, ← plannedAt_trusted trusts]
    exact allOk_plannedOutcomes.mp allOk path
  · intro allOk
    refine allOk_plannedOutcomes.mpr fun path => ?_
    rw [plannedAt_trusted trusts]
    unfold trustedAt
    split
    · next row found =>
      split_ifs with both
      · exact allOk _ (mem_dirtyOutcomes.mpr ⟨path, row, found, both.1, both.2, rfl⟩)
      · rfl
    · rfl

/-! ## Applying one page -/

variable {φ : Type} (environment : SyncEnvironment ε φ) (force : Bool)

theorem delivers_plan (plan : SyncPlan) :
    Delivers (fun _ (sink : PlanSink ε _) => do
      forM plan.actions sink.action
      forM plan.validatedStateMutations sink.stateMutation)
      (plan.actions.map PlanEvent.action ++ plan.validatedStateMutations.map PlanEvent.refresh) (.ok ⟨⟩) := by
  intro σ sink
  rw [List.forM_append, List.forM_map, List.forM_map, Fallible.raise_ok, bind_assoc, bind_pure_unit]
  rfl

/-- Applying actions changes the rows of their paths only. -/
theorem get?_applyActions {actions : List SyncAction} (distinct : (actions.map SyncAction.path).Nodup)
    (files : SortedMap GatPath φ) (ledger : Ledger) (outside : path ∉ actions.map SyncAction.path) :
    ((applyActions environment force ⟨actions, []⟩).exec { files, ledger }).2.ledger.get? path = ledger.get? path := by
  have delivers := delivers_plan (ε := SyncError ε) ⟨actions, []⟩
  rw [List.map_nil, List.append_nil] at delivers
  have paths : (actions.map PlanEvent.action).map PlanEvent.path = actions.map SyncAction.path := by
    rw [List.map_map]
    rfl
  obtain ⟨-, rows, -⟩ := exec_runSink environment force delivers (paths ▸ distinct) files ledger
  rcases rows path with same | ⟨event, member, own, -⟩
  · exact same
  · exact absurd (paths ▸ List.mem_map.mpr ⟨event, member, own⟩) outside

/-- Only later rows decide what is dirty later. -/
theorem Ledger.dirtyRowsAfter_congr {left right : Ledger} {key : GatPath} (scope : Option GatPath)
    (same : ∀ path, key < path → left.get? path = right.get? path) :
    left.dirtyRowsAfter scope (some key) = right.dirtyRowsAfter scope (some key) := by
  let keep (entry : GatPath × LedgerRow) : Bool :=
    entry.2.dirty && scope.all (inScope · entry.1) && (some key).all (· < entry.1)
  have kept : left.filter keep = right.filter keep := by
    refine SortedMap.ext fun path => ?_
    rw [SortedMap.get?_filter, SortedMap.get?_filter]
    by_cases later : key < path
    · rw [same path later]
    · have never (row : LedgerRow) : keep (path, row) = false := by simp [keep, later]
      simp only [never]
      cases left.get? path <;> cases right.get? path <;> rfl
  exact congrArg (fun map => map.entries.map DirtyRow.read) kept

/-- The actions of a page are about paths of the page, each about its own. -/
theorem paths_planFromDirtyRows {verifyWindow : ℕ+} {rows : List DirtyRow} {actions : List SyncAction}
    (ordered : rows.Pairwise fun first second => first.path < second.path)
    (planned : planFromDirtyRows context verifyWindow rows selection = .ok actions) :
    (actions.map SyncAction.path).Nodup ∧ ∀ action ∈ actions, ∃ row ∈ rows, action.path = row.path := by
  rcases planFromDirtyRows_cases context verifyWindow rows selection with ⟨same, -⟩ | ⟨⟨failure, failed⟩, -⟩
  · cases planned.symm.trans same
    have sublist := (map_actionsOf_sublist (eventsOf (dirtyOutcomes context selection rows))).map PlanEvent.path
    rw [List.map_map] at sublist
    have increasing := List.pairwise_map.mpr (pairwise_dirtyEvents context selection ordered)
    refine ⟨(increasing.sublist sublist).imp ne_of_lt, fun action member => ?_⟩
    obtain ⟨row, inside, planned⟩ := List.mem_map.mp (mem_eventsOf.mp (mem_actionsOf.mp member))
    exact ⟨row, List.mem_of_mem_filter inside, DirtyRow.path_of_outcome planned⟩
  · cases planned.symm.trans failed

/-- Applying the actions of a page leaves the later dirty rows as they were. -/
theorem dirtyRowsAfter_applyActions {context : PlanContext (SyncError ε)} {verifyWindow : ℕ+} {ledger : Ledger} {scope after : Option GatPath}
    {limit : ℕ} {page : List DirtyRow} (isPage : ledger.dirtyRowsInScopeAfter scope after limit = page) (nonempty : page ≠ [])
    {actions : List SyncAction} (planned : planFromDirtyRows context verifyWindow page selection = .ok actions) (files : SortedMap GatPath φ) :
    ((applyActions environment force ⟨actions, []⟩).exec { files, ledger }).2.ledger.dirtyRowsAfter scope
        (some (page.getLast nonempty).path) = ledger.dirtyRowsAfter scope (some (page.getLast nonempty).path) := by
  have ordered : page.Pairwise fun first second => first.path < second.path :=
    isPage ▸ (ledger.pairwise_dirtyRowsAfter scope after).sublist (List.take_sublist limit _)
  obtain ⟨distinct, own⟩ := paths_planFromDirtyRows ordered planned
  refine Ledger.dirtyRowsAfter_congr scope fun path later => get?_applyActions environment force distinct files ledger fun inside => ?_
  obtain ⟨action, member, rfl⟩ := List.mem_map.mp inside
  obtain ⟨row, inPage, here⟩ := own action member
  exact (here ▸ later).not_ge (List.key_le_getLast ordered nonempty row inPage)

end Gat
