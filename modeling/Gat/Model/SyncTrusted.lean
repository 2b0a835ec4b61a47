import Gat.Proofs.SyncDirty

/-! # A trusting sync

The loop reads the ledger that the pages before have changed. Their actions are about paths up to the end of their
page, so each page is shorter by its own rows.
-/

namespace Gat

variable {ε φ : Type}

/-- The plans of the pages of a trusting sync, and what it leaves. -/
structure TrustedRun (ε φ : Type) where
  planned : List SyncAction
  result : Outcome (SyncError ε) SyncOutcome
  files : SortedMap GatPath φ
  ledger : Ledger

section Loop

variable (environment : SyncEnvironment ε φ) (verifyWindow syncWindow : ℕ+) (selection : ScopedSelection) (force : Bool)

set_option linter.unusedVariables false in
/-- The loop of `execute_mutating_sync` under a trusting policy. -/
def trustedLoop (after : Option GatPath) (outcome : SyncOutcome) (files : SortedMap GatPath φ) (ledger : Ledger) : TrustedRun ε φ :=
  match page : ledger.dirtyRowsInScopeAfter selection.scopePath after syncWindow with
  | [] => ⟨[], .ok outcome, files, ledger⟩
  | first :: rest =>
    match plan : planFromDirtyRows (environment.planContext .trustState) verifyWindow (first :: rest) selection with
    | .error fault => ⟨[], .error fault, files, ledger⟩
    | .ok actions =>
      match applied : (applyActions environment force ⟨actions, []⟩).exec { files, ledger } with
      | (.error fault, session) => ⟨actions, .error fault, session.files, session.ledger⟩
      | (.ok chunkOutcome, session) =>
        let last := ((first :: rest).getLast (List.cons_ne_nil first rest)).path
        let later := trustedLoop (some last) (outcome.merge chunkOutcome) session.files session.ledger
        { later with planned := actions ++ later.planned }
termination_by (ledger.dirtyRowsAfter selection.scopePath after).length
decreasing_by
  have same := dirtyRowsAfter_applyActions environment force page (List.cons_ne_nil first rest) plan files
  rw [applied] at same
  rw [same, ← Ledger.page_append_dirtyRowsAfter page (List.cons_ne_nil first rest), List.length_append, List.length_cons]
  omega

end Loop

end Gat
