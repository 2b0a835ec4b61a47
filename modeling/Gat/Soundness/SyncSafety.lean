import Gat.Proofs.SyncTable

/-! # A sync keeps local edits

Whatever a validated run does and wherever it stops, a path holds what it held or the effect of its own
decision. An edited file only gets decisions without an effect, force adds the resolution of a conflict
and nothing else, and a path is never changed towards an object that is not valid.
-/

namespace Gat

variable {ε φ : Type}

/-- A decision as a run applies it: as planned, or with force the resolution of a conflict. -/
inductive Applies (force : Bool) : PlanEvent → PlanEvent → Prop
  | planned (event : PlanEvent) : Applies force event event
  | resolved {resolution : ConflictResolution} (forced : force = true) :
      Applies force (.action (.conflict resolution)) (.action resolution.intoAction)

/-- The effect of a decision under force is the effect of what is applied for it. -/
theorem exists_applies (force : Bool) (event : PlanEvent) :
    ∃ applied, Applies force event applied ∧ event.effect force = applied.effect false ∧ event.refresh? = applied.refresh? := by
  cases event with
  | refresh mutation => exact ⟨_, .planned _, rfl, rfl⟩
  | action action =>
    cases action with
    | conflict resolution =>
      cases force with
      | false => exact ⟨_, .planned _, rfl, rfl⟩
      | true => exact ⟨_, .resolved rfl, by cases resolution <;> rfl, rfl⟩
    | _ => exact ⟨_, .planned _, rfl, rfl⟩

theorem effect_of_withholds {action : SyncAction} (withholds : action.withholds) :
    PlanEvent.effect false (.action action) = .keep := by
  cases action <;> first | rfl | cases withholds

section Run

variable (environment : SyncEnvironment ε φ) (windows : PlanWindows) (options : SyncOptions) (store : SyncStore φ)

/-- A path after a run holds what it held, or what its own decision makes of it. -/
structure OwnEffect (path : GatPath) : Prop where
  file : (validatedSync environment windows options store).2.files.get? path = store.files.get? path ∨
    ∃ event applied, decisionAt environment options store path = .ok (some event) ∧ Applies options.force event applied ∧
      (validatedSync environment windows options store).2.files.get? path =
        leafAfter environment false applied (store.files.get? path)
  row : (validatedSync environment windows options store).2.ledger.get? path = store.ledger.get? path ∨
    ∃ event applied, decisionAt environment options store path = .ok (some event) ∧ Applies options.force event applied ∧
      (validatedSync environment windows options store).2.ledger.get? path =
        rowAfter environment false applied (store.ledger.get? path)

/-- An edited path: it is only ever withheld, and without force it is kept and reported. -/
structure Withheld (path : GatPath) : Prop where
  decision : ∀ event, decisionAt environment options store path = .ok (some event) →
    ∃ action : SyncAction, event = .action action ∧ action.withholds
  kept : options.force = false → (validatedSync environment windows options store).2.files.get? path = store.files.get? path ∧
    (validatedSync environment windows options store).2.ledger.get? path = store.ledger.get? path
  reported : options.force = false → options.selection.selects path →
    ∀ outcome, (validatedSync environment windows options store).1 = .ok outcome → path ∈ outcome.withheld

variable {environment windows options store} {trace : List PlanEvent} {result : Outcome (SyncError ε) PUnit}

theorem ownEffect (run : SyncRun environment windows options store trace result) (path : GatPath) :
    OwnEffect environment windows options store path := by
  constructor
  · rcases run.file path with same | ⟨event, member, rfl, same⟩
    · exact Or.inl same
    · obtain ⟨applied, applies, effect, -⟩ := exists_applies options.force event
      exact Or.inr ⟨event, applied, run.decisionAt member, applies, same.trans (congrFun (leafAfter_congr effect) _)⟩
  · rcases run.row path with same | ⟨event, member, rfl, same⟩
    · exact Or.inl same
    · obtain ⟨applied, applies, effect, refresh⟩ := exists_applies options.force event
      exact Or.inr ⟨event, applied, run.decisionAt member, applies, same.trans (congrFun (rowAfter_congr effect refresh) _)⟩

theorem withheld_of_differs (validating : (options.effectivePolicy store).validation = .validate)
    (run : SyncRun environment windows options store trace result) {path : GatPath} {status : WorktreeFileStatus}
    (observed : environment.fileStatusAt store.ledger path = .ok status) (differs : status.kind = .differs) :
    Withheld environment windows options store path := by
  have decision (event : PlanEvent) (decided : decisionAt environment options store path = .ok (some event)) :
      ∃ action : SyncAction, event = .action action ∧ action.withholds := by
    by_cases selected : options.selection.selects path
    · obtain ⟨other, seen, cell⟩ := decided_decisionAt validating selected decided
      cases seen.symm.trans observed
      obtain ⟨action, same, withholds⟩ := cell.withholds differs
      cases same
      exact ⟨action, rfl, withholds⟩
    · cases (decisionAt_of_not_selected selected).symm.trans decided
  refine ⟨decision, fun unforced => ⟨?_, ?_⟩, fun unforced selected outcome succeeded => ?_⟩
  · rcases run.file path with same | ⟨event, member, rfl, same⟩
    · exact same
    · obtain ⟨action, rfl, withholds⟩ := decision event (run.decisionAt member)
      rw [same, leafAfter_of_keep (unforced ▸ effect_of_withholds withholds)]
  · rcases run.row path with same | ⟨event, member, rfl, same⟩
    · exact same
    · obtain ⟨action, rfl, withholds⟩ := decision event (run.decisionAt member)
      rw [same, rowAfter, mutationOf, unforced, effect_of_withholds withholds]
      rfl
  · obtain ⟨rfl, tally, -, -⟩ := run.complete outcome succeeded
    obtain ⟨event, decided, delivered⟩ := run.exists_decision path
    obtain ⟨other, seen, cell⟩ := decided_decisionAt validating selected decided
    cases seen.symm.trans observed
    obtain ⟨action, rfl, withholds⟩ := cell.withholds differs
    have here := path_plannedAt decided
    rw [tally, ← here, unforced]
    exact reported_of_withholds (delivered _ rfl) withholds

theorem kept_of_invalid (validating : (options.effectivePolicy store).validation = .validate)
    (run : SyncRun environment windows options store trace result) {path : GatPath} {oid : Oid}
    (desired : store.ledger.desiredOid path = some oid) (invalid : environment.verify oid ≠ .ok .valid) :
    (validatedSync environment windows options store).2.files.get? path = store.files.get? path ∧
      (validatedSync environment windows options store).2.ledger.materializedOid path = store.ledger.materializedOid path := by
  have invalidHere : (environment.planContext (options.effectivePolicy store)).verify oid ≠ .ok .valid := by
    rw [SyncEnvironment.planContext, Ne, Except.mapError_eq_ok_iff]
    exact invalid
  have keeps (event : PlanEvent) (decided : decisionAt environment options store path = .ok (some event)) :
      event.effect options.force = .keep ∧
        ∀ mutation, event.refresh? = some mutation → ∃ path proof, mutation = .refreshStat path proof := by
    by_cases selected : options.selection.selects path
    · obtain ⟨status, -, cell⟩ := decided_decisionAt validating selected decided
      rw [Ledger.desiredEntry, desired] at cell
      exact ⟨cell.keeps_of_invalid invalidHere options.force, fun _ => cell.refreshStat⟩
    · cases (decisionAt_of_not_selected selected).symm.trans decided
  constructor
  · rcases run.file path with same | ⟨event, member, rfl, same⟩
    · exact same
    · rw [same, leafAfter_of_keep (keeps event (run.decisionAt member)).1]
  · unfold Ledger.materializedOid
    rcases run.row path with same | ⟨event, member, rfl, same⟩
    · rw [same]
    · obtain ⟨kept, refreshes⟩ := keeps event (run.decisionAt member)
      rw [same, materialized_rowAfter_of_keep _ kept refreshes]

end Run

/-- A validated run, successful or not, changes a path by its own decision only; an edited path is withheld,
kept and reported, and a path whose object is not valid is kept whatever is forced. -/
theorem sync_keeps_local_edits (environment : SyncEnvironment ε φ) (windows : PlanWindows) (options : SyncOptions)
    (store : SyncStore φ) (validating : (options.effectivePolicy store).validation = .validate) :
    (∀ path, OwnEffect environment windows options store path) ∧
      (∀ path status, environment.fileStatusAt store.ledger path = .ok status → status.kind = .differs →
        Withheld environment windows options store path) ∧
      ∀ path oid, store.ledger.desiredOid path = some oid → environment.verify oid ≠ .ok .valid →
        (validatedSync environment windows options store).2.files.get? path = store.files.get? path ∧
          (validatedSync environment windows options store).2.ledger.materializedOid path = store.ledger.materializedOid path := by
  obtain ⟨trace, result, run⟩ := exists_syncRun environment windows options store
  exact ⟨ownEffect run, fun _ _ => withheld_of_differs validating run, fun _ _ => kept_of_invalid validating run⟩

namespace EditedFile

def path : GatPath := .a

def object (byte : UInt8) : Oid := .filled byte

/-- The file was materialized as one object, another one is desired, and its content is neither. -/
def environment : SyncEnvironment Unit Unit where
  worktree := ⟨fun _ => .ok (.file none (.ok (object 3, ⟨0, 0, 0⟩))), fun _ => []⟩
  verify _ := .ok .valid
  inspectDestination _ := .ok .missing
  stage _ := .ok ((), none)
  unlink _ := .ok ()
  commit _ := .ok ()
  prune _ := .ok ()
  desiredFault := none
  priorFault := none
  syncExcludes := .ok ()
  clearValidationRequired := .ok ()

def options : SyncOptions := ⟨⟨true, fun _ => true, fun _ _ => rfl⟩, false, .validate false⟩

def store : SyncStore Unit := ⟨⟨[(path, ())], by decide⟩, ⟨[(path, ⟨some (object 2), some (object 1, none)⟩)], by decide⟩, true⟩

end EditedFile

/-- An edited file with an outdated row is withheld. -/
theorem sync_keeps_local_edits_file :
    EditedFile.environment.fileStatusAt EditedFile.store.ledger EditedFile.path = .ok .differs ∧
      Withheld EditedFile.environment ⟨2, 2⟩ EditedFile.options EditedFile.store EditedFile.path :=
  have observed : EditedFile.environment.fileStatusAt EditedFile.store.ledger EditedFile.path = .ok .differs := rfl
  ⟨observed, (sync_keeps_local_edits EditedFile.environment ⟨2, 2⟩ EditedFile.options EditedFile.store rfl).2.1 _ _ observed rfl⟩

end Gat
