import Gat.Model.SyncTrusted

/-! # The dirty rows plan what the full merge plans

Both planners decide about every path on its own, so the pages of the dirty rows and the merge of both streams have
the same outcomes. Applying a page does not touch the rows of later pages.
-/

namespace Gat

variable {ε φ : Type} {context : PlanContext ε} {selection : ScopedSelection}

/-- A dirty row asks for an action. -/
theorem refreshesOf_dirtyOutcomes (rows : List DirtyRow) : refreshesOf (eventsOf (dirtyOutcomes context selection rows)) = [] := by
  refine List.filterMap_eq_nil_iff.mpr fun event member => ?_
  obtain ⟨row, -, planned⟩ := List.mem_map.mp (mem_eventsOf.mp member)
  obtain ⟨path, desired, materialized⟩ := row
  cases event with
  | action decision => rfl
  | refresh mutation => cases desired with
    | none => cases materialized <;> cases planned
    | some oid =>
      cases verified : context.verify oid <;> simp [DirtyRow.classified, PlanContext.outcome, verified, Except.map] at planned

/-- A dirty row is decided when its object can be verified. -/
theorem DirtyRow.isOk_outcome (verifies : ∀ oid, (context.verify oid).isOk) (row : DirtyRow) : (context.outcome row.classified).isOk := by
  obtain ⟨path, desired, materialized⟩ := row
  cases desired with
  | none => cases materialized <;> rfl
  | some oid =>
    have verified := verifies oid
    change ((context.verify oid).map _).isOk
    cases answer : context.verify oid with
    | error failure =>
      rw [answer] at verified
      cases verified
    | ok status => rfl

/-- The actions that the dirty rows after a path ask for. -/
def dirtyActions (context : PlanContext ε) (selection : ScopedSelection) (ledger : Ledger) (after : Option GatPath) : List SyncAction :=
  actionsOf (eventsOf (dirtyOutcomes context selection (ledger.dirtyRowsAfter selection.scopePath after)))

def DirtyOk (context : PlanContext ε) (selection : ScopedSelection) (ledger : Ledger) (after : Option GatPath) : Prop :=
  AllOk (dirtyOutcomes context selection (ledger.dirtyRowsAfter selection.scopePath after))

section Page

variable {ledger : Ledger} {after : Option GatPath} {limit : ℕ} {page : List DirtyRow}

theorem dirtyActions_page (isPage : ledger.dirtyRowsInScopeAfter selection.scopePath after limit = page) (nonempty : page ≠ []) :
    dirtyActions context selection ledger after = actionsOf (eventsOf (dirtyOutcomes context selection page)) ++
      dirtyActions context selection ledger (some (page.getLast nonempty).path) := by
  unfold dirtyActions
  rw [← Ledger.page_append_dirtyRowsAfter isPage nonempty, dirtyOutcomes_append, eventsOf_append, actionsOf_append]

theorem dirtyOk_page (isPage : ledger.dirtyRowsInScopeAfter selection.scopePath after limit = page) (nonempty : page ≠ []) :
    DirtyOk context selection ledger after ↔ AllOk (dirtyOutcomes context selection page) ∧
      DirtyOk context selection ledger (some (page.getLast nonempty).path) := by
  unfold DirtyOk
  rw [← Ledger.page_append_dirtyRowsAfter isPage nonempty, dirtyOutcomes_append, allOk_append]

/-- An empty page is the end of the dirty rows. -/
theorem dirtyRowsAfter_of_page_nil {limit : ℕ+} (isPage : ledger.dirtyRowsInScopeAfter selection.scopePath after limit = []) :
    ledger.dirtyRowsAfter selection.scopePath after = [] := by
  rcases List.take_eq_nil_iff.mp isPage with none | empty
  · exact absurd none limit.ne_zero
  · exact empty

end Page

/-- The pages plan the dirty rows, or one of them cannot be decided. -/
theorem planDirtyPages_cases (context : PlanContext ε) (verifyWindow : ℕ+) (selection : ScopedSelection) (limit : ℕ+) (ledger : Ledger)
    (after : Option GatPath) :
    (planDirtyPages context verifyWindow selection limit ledger after = .ok (dirtyActions context selection ledger after) ∧
        DirtyOk context selection ledger after) ∨
      (∃ failure, planDirtyPages context verifyWindow selection limit ledger after = Outcome.fail failure) ∧
        ¬DirtyOk context selection ledger after := by
  fun_induction planDirtyPages context verifyWindow selection limit ledger after with
  | case1 after page =>
    rw [dirtyActions, DirtyOk, dirtyRowsAfter_of_page_nil page]
    exact Or.inl ⟨rfl, by simp [AllOk, dirtyOutcomes]⟩
  | case2 after first rest page ih =>
    rw [dirtyActions_page page (List.cons_ne_nil first rest), dirtyOk_page page (List.cons_ne_nil first rest)]
    rcases planFromDirtyRows_cases context verifyWindow (first :: rest) selection with ⟨planned, pageOk⟩ | ⟨⟨failure, failed⟩, notOk⟩
    · rcases ih with ⟨later, laterOk⟩ | ⟨⟨failure, failed⟩, notOk⟩
      · exact Or.inl ⟨by rw [planned, later]; rfl, pageOk, laterOk⟩
      · exact Or.inr ⟨⟨failure, by rw [planned, failed]; rfl⟩, fun both => notOk both.2⟩
    · exact Or.inr ⟨⟨failure, by rw [failed]; rfl⟩, fun both => notOk both.1⟩

variable (selection) in
/-- The full merge under trust plans the dirty rows, or one of them cannot be decided. -/
theorem collectPlan_cases (trusts : context.policy.validation = .trustState) (windows : PlanWindows) (ledger : Ledger) :
    (collectPlan context windows (ledger.desiredStream selection.toSelection) (ledger.priorStream selection.toSelection) =
        .ok ⟨dirtyActions context selection ledger none, []⟩ ∧ DirtyOk context selection ledger none) ∨
      (∃ failure, collectPlan context windows (ledger.desiredStream selection.toSelection) (ledger.priorStream selection.toSelection) =
        Outcome.fail failure) ∧ ¬DirtyOk context selection ledger none := by
  obtain ⟨trace, result, delivers, traced⟩ := exists_planTrace context windows
    (ledger.desiredStream selection.toSelection) (ledger.priorStream selection.toSelection)
  have same := @eventsOf_plannedOutcomes_trusted _ _ selection ledger trusts
  have decides : DirtyOk context selection ledger none ↔ AllOk (plannedOutcomes context (ledger.desiredStream selection.toSelection)
      (ledger.priorStream selection.toSelection)) := (allOk_plannedOutcomes_trusted trusts).symm
  unfold collectPlan
  rw [exec_collectPlanSink delivers, decides]
  rcases result with (failure | _) | done
  · exact Or.inr ⟨⟨failure, rfl⟩, fun allOk => nomatch traced.succeeds.mpr ⟨rfl, rfl, allOk⟩⟩
  · exact absurd rfl traced.noPanic
  · obtain ⟨actions, refreshes⟩ := traced.complete rfl
    have noRefresh := refreshes.trans (congrArg refreshesOf same)
    rw [refreshesOf_dirtyOutcomes] at noRefresh
    refine Or.inl ⟨?_, (traced.succeeds.mp rfl).2.2⟩
    rw [actions, noRefresh, same]
    rfl

/-- The loop plans a part of the dirty rows, and all of them when it succeeds. -/
theorem trustedLoop_planned (environment : SyncEnvironment ε φ) (verifyWindow syncWindow : ℕ+) (selection : ScopedSelection) (force : Bool)
    (after : Option GatPath) (outcome : SyncOutcome) (files : SortedMap GatPath φ) (ledger : Ledger) :
    let run := trustedLoop environment verifyWindow syncWindow selection force after outcome files ledger
    run.planned <+: dirtyActions (environment.planContext .trustState) selection ledger after ∧
      ∀ done, run.result = .ok done → run.planned = dirtyActions (environment.planContext .trustState) selection ledger after ∧
        DirtyOk (environment.planContext .trustState) selection ledger after := by
  set context := environment.planContext .trustState
  -- a planned page has the actions of its rows
  have pageActions {page : List DirtyRow} {actions : List SyncAction} (plan : planFromDirtyRows context verifyWindow page selection = .ok actions) :
      actions = actionsOf (eventsOf (dirtyOutcomes context selection page)) ∧ AllOk (dirtyOutcomes context selection page) := by
    rcases planFromDirtyRows_cases context verifyWindow page selection with ⟨planned, pageOk⟩ | ⟨⟨failure, failed⟩, -⟩
    · cases plan.symm.trans planned
      exact ⟨rfl, pageOk⟩
    · cases plan.symm.trans failed
  fun_induction trustedLoop environment verifyWindow syncWindow selection force after outcome files ledger with
  | case1 after outcome files ledger page =>
    rw [dirtyActions, DirtyOk, dirtyRowsAfter_of_page_nil page]
    exact ⟨List.nil_prefix, fun _ _ => ⟨rfl, by simp [AllOk, dirtyOutcomes]⟩⟩
  | case2 => exact ⟨List.nil_prefix, by rintro _ ⟨⟩⟩
  | case3 after outcome files ledger first rest page actions plan =>
    rw [dirtyActions_page page (List.cons_ne_nil first rest), ← (pageActions plan).1]
    exact ⟨List.prefix_append _ _, by rintro _ ⟨⟩⟩
  | case4 after outcome files ledger first rest page actions plan chunkOutcome session applied last later ih =>
    have same := dirtyRowsAfter_applyActions environment force page (List.cons_ne_nil first rest) plan files
    rw [applied] at same
    have laterActions : dirtyActions context selection session.ledger (some last) = dirtyActions context selection ledger (some last) := by
      rw [dirtyActions, dirtyActions, same]
    have laterOk : DirtyOk context selection session.ledger (some last) ↔ DirtyOk context selection ledger (some last) := by
      rw [DirtyOk, DirtyOk, same]
    rw [laterActions, laterOk] at ih
    rw [dirtyActions_page page (List.cons_ne_nil first rest), dirtyOk_page page (List.cons_ne_nil first rest), ← (pageActions plan).1]
    refine ⟨(List.prefix_append_right_inj actions).mpr ih.1, fun done succeeded => ?_⟩
    obtain ⟨whole, restOk⟩ := ih.2 done succeeded
    exact ⟨congrArg (actions ++ ·) whole, (pageActions plan).2, restOk⟩

/-- Paging the dirty rows plans the actions of the full merge under trust, also while the pages before are already applied. -/
theorem dirty_pages_plan_full_merge (environment : SyncEnvironment ε φ) (windows : PlanWindows) (verifyWindow syncWindow : ℕ+)
    (selection : ScopedSelection) (force : Bool) (files : SortedMap GatPath φ) (ledger : Ledger) :
    let context := environment.planContext .trustState
    let full := collectPlan context windows (ledger.desiredStream selection.toSelection) (ledger.priorStream selection.toSelection)
    let run := trustedLoop environment verifyWindow syncWindow selection force none {} files ledger
    (∀ plan, full = .ok plan ↔ ∃ actions, planDirtyPages context verifyWindow selection syncWindow ledger none = .ok actions ∧ plan = ⟨actions, []⟩) ∧
      ((∀ oid, (environment.verify oid).isOk) → ∃ plan, full = .ok plan) ∧
      (∀ plan, full = .ok plan → run.planned <+: plan.actions) ∧
      ∀ outcome, run.result = .ok outcome → full = .ok ⟨run.planned, []⟩ := by
  intro context full run
  have planned := trustedLoop_planned environment verifyWindow syncWindow selection force none {} files ledger
  have trusts : context.policy.validation = .trustState := rfl
  rcases collectPlan_cases selection trusts windows ledger with ⟨whole, dirtyOk⟩ | ⟨⟨failure, failed⟩, notOk⟩
  · have paged : planDirtyPages context verifyWindow selection syncWindow ledger none = .ok (dirtyActions context selection ledger none) := by
      rcases planDirtyPages_cases context verifyWindow selection syncWindow ledger none with ⟨paged, -⟩ | ⟨-, notOk⟩
      · exact paged
      · exact absurd dirtyOk notOk
    have only {plan : SyncPlan} (same : full = .ok plan) : plan = ⟨dirtyActions context selection ledger none, []⟩ := by
      cases whole.symm.trans same
      rfl
    refine ⟨fun plan => ⟨fun same => ⟨_, paged, only same⟩, ?_⟩, fun _ => ⟨_, whole⟩, fun plan same => only same ▸ planned.1, fun outcome done => ?_⟩
    · rintro ⟨actions, same, rfl⟩
      cases paged.symm.trans same
      exact whole
    · rw [(planned.2 outcome done).1]
      exact whole
  · have never {plan : SyncPlan} : full ≠ .ok plan := fun same => nomatch failed.symm.trans same
    refine ⟨fun plan => ⟨fun same => absurd same never, ?_⟩, fun verifies => absurd ?_ notOk, fun plan same => absurd same never, fun outcome done => ?_⟩
    · rintro ⟨actions, same, -⟩
      rcases planDirtyPages_cases context verifyWindow selection syncWindow ledger none with ⟨-, dirtyOk⟩ | ⟨⟨other, stops⟩, -⟩
      · exact absurd dirtyOk notOk
      · cases stops.symm.trans same
    · refine List.forall_mem_map.mpr fun row _ => row.isOk_outcome fun oid => ?_
      have verified := verifies oid
      change ((environment.verify oid).mapError SyncError.failure).isOk
      cases answer : environment.verify oid with
      | error failure =>
        rw [answer] at verified
        cases verified
      | ok status => rfl
    · exact absurd (planned.2 outcome done).2 notOk

end Gat
