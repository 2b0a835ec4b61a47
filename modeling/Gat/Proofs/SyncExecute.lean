import Gat.Model.SyncExecute
import Gat.Proofs.SyncLedger
import Gat.Proofs.SyncMerge

/-! # What the execution sink does

A delivery does one of four things to a session, all or nothing, and around it the sink may only commit.
Committing does not change the ledger that the session stands for, the committed one followed by the
pending batch.
-/

namespace Gat

variable {ε φ : Type} {environment : SyncEnvironment ε φ} {force : Bool}

/-- The ledger a session stands for once its batch is committed. -/
def Session.virtualLedger (session : Session φ) : Ledger := session.ledger.applyBatch session.ops

/-- A session after some of its batch may have been committed. -/
structure Flushed (before after : Session φ) : Prop where
  files : after.files = before.files
  outcome : after.outcome = before.outcome
  batch : (after.ledger = before.ledger ∧ after.ops = before.ops) ∨ (after.ledger = before.virtualLedger ∧ after.ops = [])

namespace Flushed

variable {before between after : Session φ}

theorem refl (session : Session φ) : Flushed session session := ⟨rfl, rfl, Or.inl ⟨rfl, rfl⟩⟩

theorem virtualLedger (flushed : Flushed before after) : after.virtualLedger = before.virtualLedger := by
  rcases flushed.batch with ⟨ledger, ops⟩ | ⟨ledger, ops⟩
  · rw [Session.virtualLedger, ledger, ops]
    rfl
  · rw [Session.virtualLedger, ledger, ops, Ledger.applyBatch_nil]

end Flushed

variable (environment) in
/-- A batch is committed before anything is pruned, and a failed commit changes nothing. -/
theorem exec_flushBatch (session : Session φ) :
    Flushed session ((flushBatch environment).exec session).2 ∧
      (((flushBatch environment).exec session).1 = .ok ⟨⟩ →
        ((flushBatch environment).exec session).2.ledger = session.virtualLedger) := by
  have noOps (empty : session.ops = []) : (flushBatch environment).exec session = (.ok ⟨⟩, session) := by
    rw [flushBatch, Fallible.exec_bind_ok (Fallible.exec_get session), if_pos empty]
    rfl
  by_cases empty : session.ops = []
  · rw [noOps empty]
    refine ⟨Flushed.refl session, fun _ => ?_⟩
    rw [Session.virtualLedger, empty, Ledger.applyBatch_nil]
  rw [flushBatch, Fallible.exec_bind_ok (Fallible.exec_get session), if_neg empty]
  cases committed : environment.commit session.ops with
  | error failure => exact ⟨Flushed.refl session, nofun⟩
  | ok done =>
    by_cases none : session.removals = []
    · simp only [attempt, Except.mapError, Outcome.ofExcept, Fallible.raise_ok, pure_bind, if_neg (not_not_intro none)]
      exact ⟨⟨rfl, rfl, Or.inr ⟨rfl, rfl⟩⟩, fun _ => rfl⟩
    · simp only [attempt, Except.mapError, Outcome.ofExcept, Fallible.raise_ok, pure_bind, if_pos none]
      cases environment.prune session.removals <;> exact ⟨⟨rfl, rfl, Or.inr ⟨rfl, rfl⟩⟩, fun _ => rfl⟩

theorem exec_flushPending (session : Session φ) : Flushed session ((flushPending environment).exec session).2 := by
  have flushed := (exec_flushBatch environment session).1
  rw [flushPending, Fallible.exec_bind_ok (Fallible.exec_observe _ session)]
  exact ⟨flushed.files, flushed.outcome, flushed.batch⟩

theorem exec_flushIfBatchFull (session : Session φ) : Flushed session ((flushIfBatchFull environment).exec session).2 := by
  rw [flushIfBatchFull, Fallible.exec_bind_ok (Fallible.exec_get session)]
  split_ifs
  · exact exec_flushPending session
  · exact Flushed.refl session

/-! ## The effect of one delivery -/

/-- What a resolved action does to its path. -/
inductive ActionEffect where
  | write (entry : Entry)
  | remove (path : GatPath)
  | keep

def SyncAction.effect : SyncAction → ActionEffect
  | .materialize entry | .replace entry | .rematerialize entry => .write entry
  | .remove path => .remove path
  | .missingObject _ _ | .corrupted _ _ | .conflict _ => .keep

/-- What an event does to its path; a refresh leaves the file alone. -/
def PlanEvent.effect (force : Bool) : PlanEvent → ActionEffect
  | .action decision => (resolveAction decision force).effect
  | .refresh _ => .keep

/-- The file of an event's path after the event. -/
def leafAfter (environment : SyncEnvironment ε φ) (force : Bool) (event : PlanEvent) (before : Option φ) : Option φ :=
  match event.effect force with
  | .write entry =>
    match environment.stage entry with
    | .ok staged => some staged.1
    | .error _ => before
  | .remove _ => none
  | .keep => before

/-- The ledger mutation of an event. -/
def mutationOf (environment : SyncEnvironment ε φ) (force : Bool) (event : PlanEvent) : Option StateMutation :=
  match event.effect force with
  | .write entry =>
    match environment.stage entry with
    | .ok staged => some (.upsert ⟨entry.path, entry.oid, staged.2⟩)
    | .error _ => none
  | .remove path => some (.removeExact path)
  | .keep => event.refresh?

/-- The row of an event's path after the event. -/
def rowAfter (environment : SyncEnvironment ε φ) (force : Bool) (event : PlanEvent) (before : Option LedgerRow) :
    Option LedgerRow :=
  match mutationOf environment force event with
  | some mutation => mutation.change before
  | none => before

/-- The tally after an event. -/
def outcomeAfter (force : Bool) (outcome : SyncOutcome) : PlanEvent → SyncOutcome
  | .refresh _ => outcome
  | .action action => recordAction outcome (resolveAction action force)

/-- An event has taken effect. -/
structure Performed (environment : SyncEnvironment ε φ) (force : Bool) (event : PlanEvent) (before after : Session φ) : Prop where
  files : ∀ path, after.files.get? path =
    if event.path = path then leafAfter environment force event (before.files.get? path) else before.files.get? path
  ledger : after.ledger = before.ledger
  ops : after.ops = before.ops ++ (mutationOf environment force event).toList
  outcome : after.outcome = outcomeAfter force before.outcome event
  prepared : ∀ entry, event.effect force = .write entry → ∃ staged, environment.stage entry = .ok staged

@[simp] theorem path_resolveAction (action : SyncAction) (force : Bool) : (resolveAction action force).path = action.path := by
  cases action with
  | conflict resolution =>
    cases force with
    | false => rfl
    | true => exact resolution.path_intoAction
  | _ => rfl

theorem SyncAction.path_of_effect_write {action : SyncAction} {entry : Entry} (effect : action.effect = .write entry) :
    entry.path = action.path := by
  cases action <;> cases effect <;> rfl

theorem SyncAction.path_of_effect_remove {action : SyncAction} {path : GatPath} (effect : action.effect = .remove path) :
    path = action.path := by
  cases action <;> cases effect
  rfl

/-- The arm that works off an effect. -/
def applyEffect (environment : SyncEnvironment ε φ) : ActionEffect → Executing ε φ PUnit
  | .write entry => applyMaterialization environment entry
  | .remove path => applyRemoval environment path
  | .keep => pure ⟨⟩

theorem applyResolved_eq (action : SyncAction) :
    applyResolved environment action = (applyEffect environment action.effect >>= fun _ =>
      modify fun session => { session with outcome := recordAction session.outcome action }) := by
  cases action <;> rfl

variable (environment) in
theorem exec_clearDestination (path : GatPath) (session : Session φ) :
    Flushed session ((clearDestination environment path).exec session).2 := by
  unfold clearDestination
  rw [Fallible.exec_bind_ok (Fallible.exec_get session)]
  by_cases none : session.removals = []
  · rw [if_neg (not_not_intro none)]
    exact Flushed.refl session
  rw [if_pos none]
  cases answered : environment.inspectDestination path with
  | error failure => exact Flushed.refl session
  | ok kind =>
    simp only [attempt, Except.mapError, Outcome.ofExcept, Fallible.raise_ok, pure_bind]
    split_ifs
    · exact exec_flushPending session
    · exact Flushed.refl session

variable (environment) in
theorem exec_applyMaterialization (entry : Entry) (session : Session φ) :
    (∃ flushed staged, Flushed session flushed ∧ environment.stage entry = .ok staged ∧
      (applyMaterialization environment entry).exec session = (.ok ⟨⟩, { flushed with
        files := flushed.files.insert entry.path staged.1
        ops := flushed.ops ++ [.upsert ⟨entry.path, entry.oid, staged.2⟩] })) ∨
    Flushed session ((applyMaterialization environment entry).exec session).2 ∧
      ((applyMaterialization environment entry).exec session).1 ≠ .ok ⟨⟩ := by
  have cleared := exec_clearDestination environment entry.path session
  unfold applyMaterialization materializeFile
  rcases ran : (clearDestination environment entry.path).exec session with ⟨result, flushed⟩
  rw [ran] at cleared
  cases result with
  | error failure =>
    rw [Fallible.exec_bind_error ran]
    exact Or.inr ⟨cleared, nofun⟩
  | ok done =>
    rw [Fallible.exec_bind_ok ran]
    cases answered : environment.stage entry with
    | error failure => exact Or.inr ⟨cleared, nofun⟩
    | ok staged => exact Or.inl ⟨flushed, staged, cleared, rfl, rfl⟩

variable (environment) in
theorem exec_applyRemoval (path : GatPath) (session : Session φ) :
    (∃ after, (applyRemoval environment path).exec session = (.ok ⟨⟩, after) ∧
      (∀ other, after.files.get? other = if path = other then none else session.files.get? other) ∧
      after.ledger = session.ledger ∧ after.ops = session.ops ++ [.removeExact path] ∧ after.outcome = session.outcome) ∨
    ((applyRemoval environment path).exec session).2 = session ∧
      ((applyRemoval environment path).exec session).1 ≠ .ok ⟨⟩ := by
  unfold applyRemoval doRemove
  cases answered : environment.unlink path with
  | error failure => exact Or.inr ⟨rfl, nofun⟩
  | ok done =>
    left
    simp only [attempt, Except.mapError, Outcome.ofExcept, Fallible.raise_ok, pure_bind, bind_assoc]
    rw [Fallible.exec_bind_ok (Fallible.exec_get session)]
    by_cases absent : (session.files.get? path).isNone
    · rw [if_pos absent]
      refine ⟨_, rfl, fun other => ?_, rfl, rfl, rfl⟩
      split_ifs with same
      · exact same ▸ Option.isNone_iff_eq_none.mp absent
      · rfl
    · rw [if_neg absent]
      refine ⟨_, rfl, fun other => (SortedMap.get?_erase session.files path other).trans ?_, rfl, rfl, rfl⟩
      split_ifs <;> rfl

variable (environment force) in
/-- A resolved action takes effect at once, or it fails and only commits. -/
theorem exec_applyAction (action : SyncAction) (session : Session φ) :
    (∃ flushed after, Flushed session flushed ∧ Performed environment force (.action action) flushed after ∧
      (applyAction environment force action).exec session = (.ok ⟨⟩, after)) ∨
    Flushed session ((applyAction environment force action).exec session).2 ∧
      ((applyAction environment force action).exec session).1 ≠ .ok ⟨⟩ := by
  unfold applyAction
  rw [applyResolved_eq]
  cases effect : (resolveAction action force).effect with
  | write entry =>
    rw [applyEffect]
    have here := (SyncAction.path_of_effect_write effect).trans (path_resolveAction action force)
    have written : PlanEvent.effect force (.action action) = .write entry := effect
    rcases exec_applyMaterialization environment entry session with
      ⟨flushed, staged, before, answered, ran⟩ | ⟨before, failed⟩
    · left
      rw [Fallible.exec_bind_ok ran]
      refine ⟨flushed, _, before, ?_, Fallible.exec_modify _ _⟩
      refine ⟨fun path => ?_, rfl, ?_, rfl, fun other same => ?_⟩
      · refine (SortedMap.get?_insert flushed.files entry.path path staged.1).trans ?_
        rw [PlanEvent.path, leafAfter, written, here]
        simp only [answered]
        split_ifs <;> rfl
      · rw [mutationOf, written]
        simp only [answered]
        rfl
      · cases written.symm.trans same
        exact ⟨staged, answered⟩
    · right
      rcases ran : (applyMaterialization environment entry).exec session with ⟨result, after⟩
      rw [ran] at before failed
      cases result with
      | ok done => exact absurd rfl failed
      | error failure =>
        rw [Fallible.exec_bind_error ran]
        exact ⟨before, nofun⟩
  | remove path =>
    rw [applyEffect]
    have here := (SyncAction.path_of_effect_remove effect).trans (path_resolveAction action force)
    have removed : PlanEvent.effect force (.action action) = .remove path := effect
    rcases exec_applyRemoval environment path session with
      ⟨after, ran, files, ledger, ops, outcome⟩ | ⟨unchanged, failed⟩
    · left
      rw [Fallible.exec_bind_ok ran]
      refine ⟨session, _, Flushed.refl session, ?_, Fallible.exec_modify _ _⟩
      refine ⟨fun other => ?_, ledger, ?_, ?_, fun entry same => ?_⟩
      · rw [PlanEvent.path, leafAfter, removed, ← here]
        exact files other
      · rw [mutationOf, removed]
        exact ops
      · change recordAction after.outcome _ = recordAction session.outcome _
        rw [outcome]
      · cases removed.symm.trans same
    · right
      rcases ran : (applyRemoval environment path).exec session with ⟨result, after⟩
      rw [ran] at unchanged failed
      cases result with
      | ok done => exact absurd rfl failed
      | error failure =>
        rw [Fallible.exec_bind_error ran]
        exact ⟨unchanged ▸ Flushed.refl _, nofun⟩
  | keep =>
    have kept : PlanEvent.effect force (.action action) = .keep := effect
    left
    refine ⟨session, _, Flushed.refl session, ?_, Fallible.exec_modify _ _⟩
    refine ⟨fun path => ?_, rfl, ?_, rfl, fun entry same => ?_⟩
    · rw [leafAfter, kept, ite_self]
    · rw [mutationOf, kept]
      exact (List.append_nil _).symm
    · cases kept.symm.trans same

variable (environment force) in
/-- A delivery takes effect between two commits, or it fails before it does. -/
theorem exec_send (event : PlanEvent) (session : Session φ) :
    (∃ flushed performed, Flushed session flushed ∧ Performed environment force event flushed performed ∧
      Flushed performed (((executePlanSink environment force).send event).exec session).2) ∨
    Flushed session (((executePlanSink environment force).send event).exec session).2 ∧
      (((executePlanSink environment force).send event).exec session).1 ≠ .ok ⟨⟩ := by
  cases event with
  | action action =>
    change (∃ flushed performed, _ ∧ _ ∧ Flushed performed ((do
      applyAction environment force action
      flushIfBatchFull environment : Executing ε φ PUnit).exec session).2) ∨ _
    rcases exec_applyAction environment force action session with
      ⟨flushed, after, before, performed, ran⟩ | ⟨before, failed⟩
    · left
      rw [Fallible.exec_bind_ok ran]
      exact ⟨flushed, after, before, performed, exec_flushIfBatchFull after⟩
    · right
      rcases ran : (applyAction environment force action).exec session with ⟨result, after⟩
      rw [ran] at before failed
      cases result with
      | ok done => exact absurd rfl failed
      | error failure =>
        change Flushed session (((applyAction environment force action) >>= fun _ => flushIfBatchFull environment).exec session).2 ∧
          (((applyAction environment force action) >>= fun _ => flushIfBatchFull environment).exec session).1 ≠ _
        rw [Fallible.exec_bind_error ran]
        exact ⟨before, nofun⟩
  | refresh mutation =>
    left
    refine ⟨session, _, Flushed.refl session, ?_, exec_flushIfBatchFull { session with ops := session.ops ++ [mutation] }⟩
    refine ⟨fun path => (ite_self _).symm, rfl, rfl, rfl, fun entry same => ?_⟩
    cases same

section Effects

variable {environment : SyncEnvironment ε φ} {force otherForce : Bool} {event other : PlanEvent}

theorem leafAfter_congr (same : event.effect force = other.effect otherForce) :
    leafAfter environment force event = leafAfter environment otherForce other := by
  unfold leafAfter
  rw [same]

theorem rowAfter_congr (same : event.effect force = other.effect otherForce) (refresh : event.refresh? = other.refresh?) :
    rowAfter environment force event = rowAfter environment otherForce other := by
  unfold rowAfter mutationOf
  rw [same, refresh]

theorem leafAfter_of_keep (keeps : event.effect force = .keep) (before : Option φ) :
    leafAfter environment force event before = before := by
  rw [leafAfter, keeps]

variable (environment) in
/-- An event without an effect can only refresh the stat evidence of its row. -/
theorem materialized_rowAfter_of_keep (keeps : event.effect force = .keep)
    (refreshes : ∀ mutation, event.refresh? = some mutation → ∃ path proof, mutation = .refreshStat path proof)
    (before : Option LedgerRow) :
    ((rowAfter environment force event before).bind LedgerRow.materialized).map Prod.fst =
      (before.bind LedgerRow.materialized).map Prod.fst := by
  rw [rowAfter, mutationOf, keeps]
  cases found : event.refresh? with
  | none => rfl
  | some mutation =>
    obtain ⟨path, proof, rfl⟩ := refreshes mutation found
    cases before with
    | none => rfl
    | some row => cases held : row.materialized <;> simp [StateMutation.change, held]

theorem rowAfter_write {entry : Entry} (writes : event.effect force = .write entry) {staged : φ × Option StatProof}
    (prepared : environment.stage entry = .ok staged) (before : Option LedgerRow) :
    ((rowAfter environment force event before).bind LedgerRow.materialized).map Prod.fst = some entry.oid := by
  rw [rowAfter, mutationOf, writes]
  simp only [prepared]
  rfl

theorem rowAfter_remove {path : GatPath} (removes : event.effect force = .remove path) (before : Option LedgerRow) :
    ((rowAfter environment force event before).bind LedgerRow.materialized).map Prod.fst = none := by
  rw [rowAfter, mutationOf, removes]
  cases before with
  | none => rfl
  | some row => cases desired : row.desired <;> simp [StateMutation.change, desired]

end Effects

/-! ## What a run can change at one path -/

theorem path_mutationOf {event : PlanEvent} {mutation : StateMutation}
    (found : mutationOf environment force event = some mutation) : mutation.path = event.path := by
  unfold mutationOf at found
  cases event with
  | refresh refreshed =>
    cases found
    rfl
  | action decision =>
    have here := path_resolveAction decision force
    cases effect : (resolveAction decision force).effect with
    | write entry =>
      rw [show PlanEvent.effect force (.action decision) = .write entry from effect] at found
      cases answered : environment.stage entry with
      | error failure => simp [answered] at found
      | ok staged =>
        simp only [answered] at found
        cases found
        exact (SyncAction.path_of_effect_write effect).trans here
    | remove path =>
      rw [show PlanEvent.effect force (.action decision) = .remove path from effect] at found
      cases found
      exact (SyncAction.path_of_effect_remove effect).trans here
    | keep =>
      rw [show PlanEvent.effect force (.action decision) = .keep from effect] at found
      cases found

/-- At a path a session holds one of some files and, committed or pending, one of some rows. -/
structure Settles (path : GatPath) (files : Set (Option φ)) (rows : Set (Option LedgerRow)) (session : Session φ) : Prop where
  file : session.files.get? path ∈ files
  row : session.ledger.get? path ∈ rows
  pending : session.virtualLedger.get? path ∈ rows

namespace Settles

variable {path : GatPath} {files : Set (Option φ)} {rows : Set (Option LedgerRow)} {before after : Session φ}

theorem mono {moreFiles : Set (Option φ)} {moreRows : Set (Option LedgerRow)} (settles : Settles path files rows before)
    (filesSub : files ⊆ moreFiles) (rowsSub : rows ⊆ moreRows) : Settles path moreFiles moreRows before :=
  ⟨filesSub settles.file, rowsSub settles.row, rowsSub settles.pending⟩

theorem flushed (settles : Settles path files rows before) (flushed : Flushed before after) :
    Settles path files rows after := by
  refine ⟨flushed.files ▸ settles.file, ?_, flushed.virtualLedger ▸ settles.pending⟩
  rcases flushed.batch with ⟨ledger, -⟩ | ⟨ledger, -⟩
  · exact ledger ▸ settles.row
  · exact ledger ▸ settles.pending

end Settles

theorem Performed.virtualLedger {event : PlanEvent} {before after : Session φ}
    (performed : Performed environment force event before after) :
    after.virtualLedger = before.virtualLedger.applyBatch (mutationOf environment force event).toList := by
  rw [Session.virtualLedger, performed.ledger, performed.ops, Ledger.applyBatch_append]
  rfl

/-- A mutation of an event changes the row of its path only. -/
theorem get?_applyBatch_mutationOf (ledger : Ledger) (event : PlanEvent) (path : GatPath) :
    (ledger.applyBatch (mutationOf environment force event).toList).get? path =
      if event.path = path then rowAfter environment force event (ledger.get? path) else ledger.get? path := by
  unfold rowAfter
  cases found : mutationOf environment force event with
  | none => exact (ite_self _).symm
  | some mutation =>
    rw [← path_mutationOf found]
    exact ledger.get?_apply mutation path

section AtPath

variable {path : GatPath} {files : Set (Option φ)} {rows : Set (Option LedgerRow)} {session : Session φ} {event : PlanEvent}

variable (environment force) in
/-- A delivery for another path changes nothing here. -/
theorem Settles.send_other (settles : Settles path files rows session) (other : event.path ≠ path) :
    Settles path files rows (((executePlanSink environment force).send event).exec session).2 := by
  rcases exec_send environment force event session with
    ⟨flushed, performed, before, effect, after⟩ | ⟨before, -⟩
  · have between := settles.flushed before
    refine Settles.flushed ⟨?_, ?_, ?_⟩ after
    · rw [effect.files, if_neg other]
      exact between.file
    · exact effect.ledger ▸ between.row
    · rw [effect.virtualLedger, get?_applyBatch_mutationOf, if_neg other]
      exact between.pending
  · exact settles.flushed before

/-- The delivery for this path has its effect once or not at all. -/
theorem Settles.send_own {file : Option φ} {row : Option LedgerRow} (settles : Settles path {file} {row} session)
    (own : event.path = path) :
    Settles path {file, leafAfter environment force event file} {row, rowAfter environment force event row}
      (((executePlanSink environment force).send event).exec session).2 := by
  rcases exec_send environment force event session with
    ⟨flushed, performed, before, effect, after⟩ | ⟨before, -⟩
  · have between := settles.flushed before
    refine Settles.flushed ⟨?_, ?_, ?_⟩ after
    · rw [effect.files, if_pos own, Set.mem_singleton_iff.mp between.file]
      exact Or.inr rfl
    · exact Or.inl (effect.ledger ▸ between.row)
    · rw [effect.virtualLedger, get?_applyBatch_mutationOf, if_pos own, Set.mem_singleton_iff.mp between.pending]
      exact Or.inr rfl
  · exact (settles.flushed before).mono (by simp) (by simp)

end AtPath

/-- The files that a trace can leave at a path. -/
def leavesOf (environment : SyncEnvironment ε φ) (force : Bool) (trace : List PlanEvent) (path : GatPath) (file : Option φ) :
    Set (Option φ) :=
  { leaf | leaf = file ∨ ∃ event ∈ trace, event.path = path ∧ leaf = leafAfter environment force event file }

/-- The ledger rows that a trace can leave at a path. -/
def rowsOf (environment : SyncEnvironment ε φ) (force : Bool) (trace : List PlanEvent) (path : GatPath)
    (row : Option LedgerRow) : Set (Option LedgerRow) :=
  { after | after = row ∨ ∃ event ∈ trace, event.path = path ∧ after = rowAfter environment force event row }

variable (environment force) in
/-- Wherever the delivery of a trace stops, a path has changed by its own event at most. -/
theorem settles_trace {trace : List PlanEvent} (distinct : (trace.map PlanEvent.path).Nodup) {path : GatPath}
    {file : Option φ} {row : Option LedgerRow} {session : Session φ} (start : Settles path {file} {row} session) :
    Settles path (leavesOf environment force trace path file) (rowsOf environment force trace path row)
      ((forM trace (executePlanSink environment force).send).exec session).2 := by
  induction trace generalizing session with
  | nil => exact start.mono (fun _ same => Or.inl same) fun _ same => Or.inl same
  | cons event trace ih =>
    rw [List.map_cons, List.nodup_cons] at distinct
    rw [List.forM_cons, Fallible.exec_bind]
    have widen {after : Session φ} (later : Settles path (leavesOf environment force trace path file)
        (rowsOf environment force trace path row) after) : Settles path (leavesOf environment force (event :: trace) path file)
        (rowsOf environment force (event :: trace) path row) after := by
      refine later.mono ?_ ?_ <;>
      · rintro _ (same | ⟨other, member, here, same⟩)
        · exact Or.inl same
        · exact Or.inr ⟨other, List.mem_cons_of_mem event member, here, same⟩
    by_cases own : event.path = path
    · have stepped : Settles path (leavesOf environment force (event :: trace) path file)
          (rowsOf environment force (event :: trace) path row)
          (((executePlanSink environment force).send event).exec session).2 := by
        refine (start.send_own own).mono ?_ ?_ <;>
        · rintro _ (same | same)
          · exact Or.inl same
          · exact Or.inr ⟨event, List.mem_cons_self, own, same⟩
      rcases ran : ((executePlanSink environment force).send event).exec session with ⟨result, after⟩
      rw [ran] at stepped
      cases result with
      | error failure => exact stepped
      | ok done =>
        -- the path has had its event
        refine Fallible.exec_forM_preserves (fun other member state holds => holds.send_other environment force fun same => ?_) stepped
        exact distinct.1 (List.mem_map.mpr ⟨other, member, same.trans own.symm⟩)
    · have stepped := start.send_other environment force own
      rcases ran : ((executePlanSink environment force).send event).exec session with ⟨result, after⟩
      rw [ran] at stepped
      cases result with
      | error failure => exact widen (stepped.mono (fun _ same => Or.inl same) fun _ same => Or.inl same)
      | ok done => exact widen (ih distinct.2 stepped)

/-! ## What a complete run has done -/

/-- A session after all events of a trace have taken effect. -/
structure Completed (environment : SyncEnvironment ε φ) (force : Bool) (start : Ledger) (trace : List PlanEvent)
    (session : Session φ) : Prop where
  ledger : session.virtualLedger = start.applyBatch (trace.filterMap (mutationOf environment force))
  outcome : session.outcome = trace.foldl (outcomeAfter force) {}
  prepared : ∀ event ∈ trace, ∀ entry, event.effect force = .write entry → ∃ staged, environment.stage entry = .ok staged

variable (environment force) in
theorem completed_trace {trace : List PlanEvent} {start after : Session φ} (fresh : Completed environment force start.ledger [] start)
    (ran : (forM trace (executePlanSink environment force).send).exec start = (.ok ⟨⟩, after)) :
    Completed environment force start.ledger trace after := by
  refine Fallible.exec_forM_complete (Completed environment force start.ledger) ?_ fresh ran
  intro sent event session next holds sentOk
  have sends := exec_send environment force event session
  rw [sentOk] at sends
  rcases sends with ⟨flushed, performed, before, effect, flushedAfter⟩ | ⟨-, failed⟩
  · refine ⟨?_, ?_, ?_⟩
    · rw [flushedAfter.virtualLedger, effect.virtualLedger, before.virtualLedger, holds.ledger, List.filterMap_append,
        Ledger.applyBatch_append]
      cases found : mutationOf environment force event <;> simp [found]
    · rw [flushedAfter.outcome, effect.outcome, before.outcome, holds.outcome, List.foldl_append]
      rfl
    · intro other member
      rcases List.mem_append.mp member with old | new
      · exact holds.prepared other old
      · rw [List.mem_singleton.mp new]
        exact effect.prepared
  · exact absurd rfl failed

variable (environment) in
/-- Closing a run commits what has been applied; a run that succeeds has committed all of it. -/
theorem exec_finish (result : Outcome (SyncError ε) PUnit) (session : Session φ) :
    Flushed session ((finish environment result).exec session).2 ∧
      ∀ outcome, ((finish environment result).exec session).1 = .ok outcome →
        result = .ok ⟨⟩ ∧ outcome = session.outcome ∧
          ((finish environment result).exec session).2.ledger = session.virtualLedger := by
  have flushes := exec_flushBatch environment session
  rcases ran : (flushBatch environment).exec session with ⟨flushResult, after⟩
  rw [ran] at flushes
  unfold finish
  rcases result with (primary | _) | done
  · dsimp only
    rw [Fallible.exec_bind_ok (Fallible.exec_get session)]
    split_ifs
    · exact ⟨Flushed.refl session, nofun⟩
    · rw [Fallible.exec_bind_ok (Fallible.exec_observe _ session), ran]
      rcases flushResult with (secondary | _) | committed <;> exact ⟨flushes.1, nofun⟩
  · exact ⟨Flushed.refl session, nofun⟩
  · dsimp only
    cases flushResult with
    | error failure =>
      rw [Fallible.exec_bind_error ran]
      exact ⟨flushes.1, nofun⟩
    | ok committed =>
      rw [Fallible.exec_bind_ok ran, Fallible.exec_bind_ok (Fallible.exec_get after)]
      refine ⟨flushes.1, fun outcome same => ⟨rfl, ?_, flushes.2 rfl⟩⟩
      cases same
      exact flushes.1.outcome

end Gat
