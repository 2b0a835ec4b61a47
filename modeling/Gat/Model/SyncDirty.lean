import Gat.Model.Selection
import Gat.Model.StateStore
import Gat.Model.SyncExecute

/-! # Planning from dirty rows

A trusting sync reads only the dirty rows of the ledger, a page at a time in path order, and plans each page with
the same buffer as the full merge. A page is applied before the next one is read.
-/

namespace Gat

variable {ε φ : Type}

/-- A dirty path with its desired and its materialized object. -/
structure DirtyRow where
  path : GatPath
  desired : Option Oid
  materialized : Option Oid
deriving DecidableEq

def DirtyRow.read (entry : GatPath × LedgerRow) : DirtyRow := ⟨entry.1, entry.2.desired, entry.2.materialized.map Prod.fst⟩

/-- The dirty rows in a scope after a path. -/
def Ledger.dirtyRowsAfter (ledger : Ledger) (scope after : Option GatPath) : List DirtyRow :=
  (ledger.entries.filter fun entry =>
    entry.2.dirty && scope.all (inScope · entry.1) && after.all (· < entry.1)).map DirtyRow.read

/-- One page of them. -/
def Ledger.dirtyRowsInScopeAfter (ledger : Ledger) (scope after : Option GatPath) (limit : ℕ) : List DirtyRow :=
  (ledger.dirtyRowsAfter scope after).take limit

/-- What the planner does with a dirty row. -/
def DirtyRow.classified (row : DirtyRow) : Classified :=
  match row.desired, row.materialized with
  | some oid, prior => .pending ⟨⟨row.path, oid⟩, if prior.isSome then .replace else .materialize⟩
  | none, some _ => .ready (.remove row.path)
  | none, none => .unchanged

/-- A complete plan. -/
structure SyncPlan where
  actions : List SyncAction := []
  validatedStateMutations : List StateMutation := []
deriving DecidableEq

/-- Collects a complete plan. -/
def collectPlanSink : PlanSink ε SyncPlan where
  action action := modify fun plan => { plan with actions := plan.actions ++ [action] }
  stateMutation mutation := modify fun plan => { plan with validatedStateMutations := plan.validatedStateMutations ++ [mutation] }

/-- The streams that the full merge reads from a ledger. -/
def Ledger.desiredStream (ledger : Ledger) (selection : Selection) : DesiredStream ε :=
  ⟨ledger.desiredRows selection, ledger.desiredRows_ordered selection, none⟩

def Ledger.priorStream (ledger : Ledger) (selection : Selection) : PriorStream ε :=
  ⟨ledger.materializedRows selection, ledger.materializedRows_ordered selection, none⟩

/-- The plan of the full merge. -/
def collectPlan (context : PlanContext ε) (windows : PlanWindows) (desired : DesiredStream ε) (prior : PriorStream ε) : Outcome ε SyncPlan :=
  let (result, plan) := (mergeDesiredWithPrior context windows collectPlanSink desired prior).exec {}
  result.map fun _ => plan

section Page

variable (context : PlanContext ε) (windows : PlanWindows) {σ : Type} (sink : PlanSink ε σ) (selection : ScopedSelection)

/-- Buffer a selected row. -/
def MergeBuffer.pushDirty (buffer : MergeBuffer) (row : DirtyRow) : Fallible (Fault ε) σ MergeBuffer :=
  if selection.matchesStr row.path.text then buffer.push context windows sink row.classified else return buffer

/-- Buffer the rows of a page one after another, and flush the buffer. -/
def planDirtyRows (rows : List DirtyRow) : Fallible (Fault ε) σ PUnit := do
  let buffer ← rows.foldlM (MergeBuffer.pushDirty context windows sink selection) {}
  let _ ← buffer.flush context windows sink

end Page

/-- Plan a page; its own length is the window of the buffer. -/
def planFromDirtyRows (context : PlanContext ε) (verifyWindow : ℕ+) (rows : List DirtyRow) (selection : ScopedSelection) :
    Outcome ε (List SyncAction) :=
  if nonempty : rows = [] then .ok []
  else
    let windows : PlanWindows := ⟨⟨rows.length, List.length_pos_iff.mpr nonempty⟩, verifyWindow⟩
    let (result, plan) := (planDirtyRows context windows collectPlanSink selection rows).exec {}
    result.map fun _ => plan.actions

theorem Ledger.pairwise_dirtyRowsAfter (ledger : Ledger) (scope after : Option GatPath) :
    (ledger.dirtyRowsAfter scope after).Pairwise fun first second => first.path < second.path :=
  List.pairwise_map.mpr (ledger.sorted.filter _)

/-- The rows after the last path of a page are the rows that the page has left out. -/
theorem Ledger.page_append_dirtyRowsAfter {ledger : Ledger} {scope after : Option GatPath} {limit : ℕ} {page : List DirtyRow}
    (isPage : ledger.dirtyRowsInScopeAfter scope after limit = page) (nonempty : page ≠ []) :
    page ++ ledger.dirtyRowsAfter scope (some (page.getLast nonempty).path) = ledger.dirtyRowsAfter scope after := by
  have split := List.page_append_filter_last DirtyRow.path (ledger.pairwise_dirtyRowsAfter scope after) isPage nonempty
  have paged : page ⊆ ledger.dirtyRowsAfter scope after := isPage ▸ List.take_subset limit _
  have last := paged (List.getLast_mem nonempty)
  obtain ⟨entry, inside, isLast⟩ := List.mem_map.mp last
  rw [List.mem_filter, Bool.and_eq_true_iff] at inside
  have later : (ledger.dirtyRowsAfter scope after).filter (fun row => (page.getLast nonempty).path < row.path) =
      ledger.dirtyRowsAfter scope (some (page.getLast nonempty).path) := by
    unfold dirtyRowsAfter
    rw [List.filter_map, List.filter_filter, ← isLast]
    refine congrArg (List.map _) (List.filter_congr fun other _ => ?_)
    -- the last row of the page is itself after the start
    have start : entry.1 < other.1 → after.all (· < other.1) := fun beyond => by
      cases after with
      | none => rfl
      | some key => simpa using (of_decide_eq_true inside.2.2).trans beyond
    by_cases beyond : entry.1 < other.1
    · simp [DirtyRow.read, beyond, start beyond]
    · simp [DirtyRow.read, beyond]
  rw [← later, split]

section Pages

variable (context : PlanContext ε) (verifyWindow : ℕ+) (selection : ScopedSelection) (limit : ℕ+) (ledger : Ledger)

set_option linter.unusedVariables false in
/-- The plans of all pages, one after another. -/
def planDirtyPages (after : Option GatPath) : Outcome ε (List SyncAction) :=
  match page : ledger.dirtyRowsInScopeAfter selection.scopePath after limit with
  | [] => .ok []
  | first :: rest => do
    let actions ← planFromDirtyRows context verifyWindow (first :: rest) selection
    let later ← planDirtyPages (some ((first :: rest).getLast (List.cons_ne_nil first rest)).path)
    return actions ++ later
termination_by (ledger.dirtyRowsAfter selection.scopePath after).length
decreasing_by
  rw [← Ledger.page_append_dirtyRowsAfter page (List.cons_ne_nil first rest), List.length_append, List.length_cons]
  omega

end Pages

/-- Apply a collected plan: its actions before its stat refreshes. -/
def applyActions (environment : SyncEnvironment ε φ) (force : Bool) (plan : SyncPlan) : Executing ε φ SyncOutcome :=
  runSink environment force fun sink => do
    forM plan.actions sink.action
    forM plan.validatedStateMutations sink.stateMutation

/-- Add the outcome of a later page. -/
def SyncOutcome.merge (outcome other : SyncOutcome) : SyncOutcome where
  materialized := outcome.materialized + other.materialized
  replaced := outcome.replaced + other.replaced
  removed := outcome.removed + other.removed
  rematerialized := outcome.rematerialized + other.rematerialized
  conflicts := outcome.conflicts ++ other.conflicts
  missing := outcome.missing ++ other.missing
  corrupted := outcome.corrupted ++ other.corrupted

end Gat
