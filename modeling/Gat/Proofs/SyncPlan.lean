import Gat.Model.SyncPlan

/-! # What the planner delivers

A planning program only knows its sink, so its run is a fixed trace of deliveries followed by a fixed
result. The trace is compared with the outcomes of the rows, each classified and verified on its own:
the buffer holds the outcomes that the trace still lacks.
-/

namespace Gat

variable {ε β γ : Type}

/-- One call of a sink. -/
inductive PlanEvent where
  | action (decision : SyncAction)
  | refresh (mutation : StateMutation)
deriving DecidableEq

namespace PlanEvent

def path : PlanEvent → GatPath
  | .action decision => decision.path
  | .refresh mutation => mutation.path

def action? : PlanEvent → Option SyncAction
  | .action decision => some decision
  | .refresh _ => none

def refresh? : PlanEvent → Option StateMutation
  | .action _ => none
  | .refresh mutation => some mutation

end PlanEvent

def PlanSink.send {σ : Type} (sink : PlanSink ε σ) : PlanEvent → Fallible (Fault ε) σ PUnit
  | .action action => sink.action action
  | .refresh mutation => sink.stateMutation mutation

/-- The actions of a trace in order. -/
def actionsOf (trace : List PlanEvent) : List SyncAction := trace.filterMap PlanEvent.action?

/-- The stat refreshes of a trace in order. -/
def refreshesOf (trace : List PlanEvent) : List StateMutation := trace.filterMap PlanEvent.refresh?

@[simp] theorem actionsOf_append (first second : List PlanEvent) :
    actionsOf (first ++ second) = actionsOf first ++ actionsOf second :=
  List.filterMap_append

@[simp] theorem refreshesOf_append (first second : List PlanEvent) :
    refreshesOf (first ++ second) = refreshesOf first ++ refreshesOf second :=
  List.filterMap_append

@[simp] theorem mem_actionsOf {trace : List PlanEvent} {decision : SyncAction} :
    decision ∈ actionsOf trace ↔ .action decision ∈ trace := by
  refine List.mem_filterMap.trans ⟨?_, fun member => ⟨_, member, rfl⟩⟩
  rintro ⟨_ | _, member, same⟩ <;> cases same
  exact member

@[simp] theorem mem_refreshesOf {trace : List PlanEvent} {mutation : StateMutation} :
    mutation ∈ refreshesOf trace ↔ .refresh mutation ∈ trace := by
  refine List.mem_filterMap.trans ⟨?_, fun member => ⟨_, member, rfl⟩⟩
  rintro ⟨_ | _, member, same⟩ <;> cases same
  exact member

/-- A trace whose actions and refreshes are among those of another has its events there. -/
theorem mem_of_parts {trace events : List PlanEvent} (actions : ∀ decision ∈ actionsOf trace, decision ∈ actionsOf events)
    (refreshes : ∀ mutation ∈ refreshesOf trace, mutation ∈ refreshesOf events) {event : PlanEvent}
    (member : event ∈ trace) : event ∈ events := by
  cases event with
  | action decision => exact mem_actionsOf.mp (actions decision (mem_actionsOf.mpr member))
  | refresh mutation => exact mem_refreshesOf.mp (refreshes mutation (mem_refreshesOf.mpr member))

/-- Without refreshes a list of events is its list of actions. -/
theorem map_actionsOf {events : List PlanEvent} (noRefresh : refreshesOf events = []) :
    (actionsOf events).map PlanEvent.action = events := by
  induction events with
  | nil => rfl
  | cons event events ih =>
    cases event with
    | action decision => exact congrArg (PlanEvent.action decision :: ·) (ih noRefresh)
    | refresh mutation => cases noRefresh

theorem map_actionsOf_sublist (events : List PlanEvent) : ((actionsOf events).map PlanEvent.action).Sublist events := by
  induction events with
  | nil => exact List.Sublist.slnil
  | cons event events ih =>
    cases event with
    | action decision => exact ih.cons_cons _
    | refresh mutation => exact ih.cons _

/-- A list of events is its actions and its refreshes, interleaved. -/
theorem perm_parts (events : List PlanEvent) :
    events.Perm ((actionsOf events).map PlanEvent.action ++ (refreshesOf events).map PlanEvent.refresh) := by
  induction events with
  | nil => exact List.Perm.nil
  | cons event events ih =>
    cases event with
    | action decision => exact ih.cons _
    | refresh mutation => exact (ih.cons _).trans List.perm_middle.symm

/-! ## Programs over a sink -/

/-- A program that only knows its sink. -/
abbrev Producer (ε β : Type) := ∀ σ, PlanSink ε σ → Fallible (Fault ε) σ β

/-- The program delivers the trace and then ends with the result, whatever the sink is. -/
def Delivers (program : Producer ε β) (trace : List PlanEvent) (result : Outcome ε β) : Prop :=
  ∀ σ (sink : PlanSink ε σ), program σ sink = do
    forM trace sink.send
    Fallible.raise result

namespace Delivers

theorem result (result : Outcome ε β) : Delivers (fun _ _ => Fallible.raise result) [] result := fun _ _ => rfl

theorem event (event : PlanEvent) : Delivers (fun _ (sink : PlanSink ε _) => sink.send event) [event] (.ok ⟨⟩) :=
  fun σ sink => by simp

/-- Traces of successive programs are concatenated. -/
theorem bind {program : Producer ε β} (next : β → Producer ε γ) {trace rest : List PlanEvent} {value : β}
    {ended : Outcome ε γ} (first : Delivers program trace (.ok value)) (second : Delivers (next value) rest ended) :
    Delivers (fun σ sink => program σ sink >>= fun value => next value σ sink) (trace ++ rest) ended := by
  intro σ sink
  dsimp only
  rw [first, bind_assoc, Fallible.raise_ok, pure_bind, second, List.forM_append, bind_assoc]

theorem bind_error {program : Producer ε β} (next : β → Producer ε γ) {trace : List PlanEvent} {failure : Fault ε}
    (first : Delivers program trace (.error failure)) :
    Delivers (fun σ sink => program σ sink >>= fun value => next value σ sink) trace (.error failure) := by
  intro σ sink
  dsimp only
  rw [first, bind_assoc, Fallible.raise_error, Fallible.throw_bind]
  rfl

end Delivers

/-- Actions that are already resolved reach the sink in order. -/
theorem delivers_actions {α : Type} {resolve : α → Outcome ε SyncAction} {rows : List α} {actions : List SyncAction}
    (resolved : List.Forall₂ (fun row action => resolve row = .ok action) rows actions) :
    Delivers (fun _ sink => forM rows fun row => do sink.action (← Fallible.raise (resolve row)))
      (actions.map PlanEvent.action) (.ok ⟨⟩) := by
  induction resolved with
  | nil => exact Delivers.result _
  | cons first _ ih =>
    intro σ sink
    have later := ih σ sink
    dsimp only at later ⊢
    rw [List.forM_cons, later, first, Fallible.raise_ok, pure_bind, List.map_cons, List.forM_cons, bind_assoc]
    rfl

/-! ## Outcomes of rows -/

namespace PlanContext

variable (context : PlanContext ε)

/-- What a classified row does once its own object has been verified. -/
def outcome : Classified → Except ε (Option PlanEvent)
  | .pending kind => (context.verify kind.entry.oid).map fun status =>
      some (.action (classifyObject status kind.entry kind.intent))
  | .ready action => .ok (some (.action action))
  | .refresh mutation => .ok (some (.refresh mutation))
  | .unchanged => .ok none

/-- One path of the union, classified and verified on its own. -/
def planRow (desired : Option Entry) (prior : Option MaterializedRow) : Except ε (Option PlanEvent) := do
  context.outcome (← context.classify desired prior)

end PlanContext

/-- The deliveries among outcomes. -/
def eventsOf (outcomes : List (Except ε (Option PlanEvent))) : List PlanEvent :=
  outcomes.filterMap fun outcome => outcome.toOption.join

theorem toOption_join_eq_some_iff {outcome : Except ε (Option PlanEvent)} {event : PlanEvent} :
    outcome.toOption.join = some event ↔ outcome = .ok (some event) := by
  cases outcome <;> simp [Except.toOption]

theorem mem_eventsOf {outcomes : List (Except ε (Option PlanEvent))} {event : PlanEvent} :
    event ∈ eventsOf outcomes ↔ .ok (some event) ∈ outcomes := by
  simp [eventsOf, toOption_join_eq_some_iff]

@[simp] theorem eventsOf_append (first second : List (Except ε (Option PlanEvent))) :
    eventsOf (first ++ second) = eventsOf first ++ eventsOf second :=
  List.filterMap_append

@[simp] theorem eventsOf_some (event : PlanEvent) : eventsOf [(.ok (some event) : Except ε (Option PlanEvent))] = [event] :=
  rfl

@[simp] theorem eventsOf_none : eventsOf [(.ok none : Except ε (Option PlanEvent))] = [] := rfl

/-- No outcome is a failure. -/
def AllOk (outcomes : List (Except ε (Option PlanEvent))) : Prop := ∀ outcome ∈ outcomes, outcome.isOk

@[simp] theorem allOk_append (first second : List (Except ε (Option PlanEvent))) :
    AllOk (first ++ second) ↔ AllOk first ∧ AllOk second :=
  List.forall_mem_append

@[simp] theorem allOk_ok (event : Option PlanEvent) : AllOk [(.ok event : Except ε (Option PlanEvent))] := by
  rintro _ member
  cases List.mem_singleton.mp member
  rfl

/-! ## The verification batch -/

private theorem flatMap_windows {α : Type} (size count : ℕ) (items : List α) :
    ((List.range count).map fun index => (items.drop (index * size)).take size).flatten = items.take (count * size) := by
  induction count with
  | zero => simp
  | succ count ih => rw [List.range_succ, List.map_append, List.flatten_append, ih, Nat.succ_mul, List.take_add]; simp

/-- The windows of a list cover it in order. -/
theorem flatten_chunks {α : Type} (size : ℕ+) (items : List α) : (chunks size items).flatten = items := by
  unfold chunks
  rw [flatMap_windows]
  apply List.take_of_length_le
  have exact := Nat.div_add_mod (items.length + size - 1) size
  have rest := Nat.mod_lt (items.length + size - 1) size.pos
  rw [Nat.mul_comm] at exact
  have positive := size.pos
  omega

/-- The statuses of a batch are those of its objects, window by window. -/
theorem verifyWindows_eq (context : PlanContext ε) (windows : PlanWindows) (oids : List Oid) :
    verifyWindows context windows oids = Outcome.ofExcept (oids.mapM context.verify) := by
  have batch (groups : List (List Oid)) (before : List ObjectVerification) :
      groups.foldlM (verifyWindow context) before =
        Outcome.ofExcept ((groups.flatten.mapM context.verify).map (before ++ ·)) := by
    induction groups generalizing before with
    | nil => simp [pure, Except.pure, Except.map, Outcome.ofExcept]
    | cons group groups ih =>
      rw [List.foldlM_cons, List.flatten_cons, List.mapM_append, verifyWindow]
      rcases found : group.mapM context.verify with failure | statuses
      · rfl
      · have aligned := (Except.mapM_eq_ok_iff.mp found).length_eq
        simp only [Outcome.ofExcept, bind, Except.bind, if_pos aligned, pure, Except.pure, ih]
        rcases groups.flatten.mapM context.verify with failure | others
        · rfl
        · simp [Except.map]
  unfold verifyWindows
  rw [batch, flatten_chunks]
  rcases oids.mapM context.verify with failure | statuses <;> rfl

/-! ## The merge buffer -/

/-- The classification that a buffered row keeps. -/
def BufferedRow.classified : BufferedRow → Classified
  | .ready action => .ready action
  | .pending kind _ => .pending kind

namespace MergeBuffer

/-- The outcomes that are still to be delivered. -/
def outcomes (context : PlanContext ε) (buffer : MergeBuffer) : List (Except ε (Option PlanEvent)) :=
  buffer.rows.map fun row => context.outcome row.classified

/-- Every pending row names the slot of its own object, and exactly the objects of pending rows are queued. -/
structure Aligned (buffer : MergeBuffer) : Prop where
  slot : ∀ kind slot, .pending kind slot ∈ buffer.rows → buffer.pendingOids[slot]? = some kind.entry.oid
  lookup : ∀ entry ∈ buffer.pendingSlots, buffer.pendingOids[entry.2]? = some entry.1
  queued : ∀ oid ∈ buffer.pendingOids, ∃ kind slot, .pending kind slot ∈ buffer.rows ∧ kind.entry.oid = oid

theorem aligned_empty : Aligned {} := ⟨by simp, by simp, by simp⟩

namespace Aligned

variable {buffer : MergeBuffer}

theorem slots_eq_nil (aligned : buffer.Aligned) (noOids : buffer.pendingOids = []) : buffer.pendingSlots = [] := by
  refine List.eq_nil_iff_forall_not_mem.mpr fun entry member => ?_
  simpa [noOids] using aligned.lookup entry member

theorem eq_empty (aligned : buffer.Aligned) (noRows : buffer.rows = []) : buffer = {} := by
  have noOids : buffer.pendingOids = [] := by
    refine List.eq_nil_iff_forall_not_mem.mpr fun oid member => ?_
    obtain ⟨kind, slot, row, -⟩ := aligned.queued oid member
    rw [noRows] at row
    cases row
  have noSlots := aligned.slots_eq_nil noOids
  obtain ⟨rows, pendingOids, pendingSlots⟩ := buffer
  cases noRows
  cases noOids
  cases noSlots
  rfl

/-- Once the queued objects are verified, every row resolves to the action of its own object. -/
theorem resolve (aligned : buffer.Aligned) {context : PlanContext ε} {statuses : List ObjectVerification}
    (verified : List.Forall₂ (fun oid status => context.verify oid = .ok status) buffer.pendingOids statuses) :
    ∀ row ∈ buffer.rows, ∃ action, MergeBuffer.resolve (ε := ε) statuses row = .ok action ∧
      context.outcome row.classified = .ok (some (.action action)) := by
  rintro (action | ⟨kind, slot⟩) member
  · exact ⟨action, rfl, rfl⟩
  · have queued := aligned.slot kind slot member
    obtain ⟨inside, own⟩ := List.getElem?_eq_some_iff.mp queued
    have bound : slot < statuses.length := verified.length_eq ▸ inside
    have status := List.Forall₂.get verified inside bound
    rw [List.get_eq_getElem, own, List.get_eq_getElem] at status
    refine ⟨classifyObject statuses[slot] kind.entry kind.intent, ?_, ?_⟩
    · rw [MergeBuffer.resolve, List.getElem?_eq_getElem]
    · rw [BufferedRow.classified, PlanContext.outcome, status]
      rfl

/-- A flush delivers all its rows, or delivers nothing because one of its objects cannot be verified. -/
theorem flush_cases (aligned : buffer.Aligned) (context : PlanContext ε) (windows : PlanWindows) :
    (∃ actions : List SyncAction, buffer.outcomes context = actions.map (fun action => .ok (some (.action action))) ∧
      Delivers (fun _ sink => buffer.flush context windows sink) (actions.map PlanEvent.action) (.ok {})) ∨
    ∃ failure, Delivers (fun _ sink => buffer.flush context windows sink) [] (.error (.error failure)) ∧
      ¬AllOk (buffer.outcomes context) := by
  by_cases noRows : buffer.rows = []
  · obtain rfl := aligned.eq_empty noRows
    exact Or.inl ⟨[], rfl, Delivers.result _⟩
  rcases verified : buffer.pendingOids.mapM context.verify with failure | statuses
  · right
    refine ⟨failure, fun σ sink => ?_, fun allOk => ?_⟩
    · dsimp only
      rw [flush, if_neg noRows, verifyWindows_eq, verified]
      rfl
    · obtain ⟨oid, queued, failed⟩ := Except.exists_of_mapM_error verified
      obtain ⟨kind, slot, member, rfl⟩ := aligned.queued oid queued
      have okay := allOk _ (List.mem_map_of_mem member)
      rw [BufferedRow.classified, PlanContext.outcome, failed] at okay
      cases okay
  · left
    have statusOf := Except.mapM_eq_ok_iff.mp verified
    obtain ⟨actions, resolved⟩ := List.exists_forall₂ (aligned.resolve statusOf)
    have drained : (if buffer.pendingOids = [] then buffer.pendingSlots else []) = [] := by
      split_ifs with noOids
      · exact aligned.slots_eq_nil noOids
      · rfl
    refine ⟨actions, ?_, ?_⟩
    · refine List.forall₂_eq_eq_eq ▸ ?_
      rw [outcomes, List.forall₂_map_left_iff, List.forall₂_map_right_iff]
      exact resolved.imp fun _ _ both => both.2
    · have delivers := delivers_actions (resolved.imp fun _ _ both => both.1)
      have whole := delivers.bind (fun _ _ _ => Fallible.raise _) (Delivers.result (.ok ({} : MergeBuffer)))
      rw [List.append_nil] at whole
      intro σ sink
      rw [← whole σ sink]
      dsimp only
      rw [flush, if_neg noRows, verifyWindows_eq, verified, drained]
      simp only [Outcome.ofExcept, Fallible.raise_ok, pure_bind]
      rw [if_neg (not_not_intro statusOf.length_eq.symm)]

end Aligned

/-- Buffered rows are deliveries of actions only. -/
theorem refreshesOf_outcomes (context : PlanContext ε) (buffer : MergeBuffer) :
    refreshesOf (eventsOf (buffer.outcomes context)) = [] := by
  refine List.filterMap_eq_nil_iff.mpr fun event member => ?_
  obtain ⟨_, among, delivered⟩ := List.mem_filterMap.mp member
  obtain ⟨row, -, rfl⟩ := List.mem_map.mp among
  cases row with
  | ready action =>
    cases delivered
    rfl
  | pending kind slot =>
    rw [BufferedRow.classified, PlanContext.outcome] at delivered
    cases verified : context.verify kind.entry.oid with
    | error failure =>
      rw [verified] at delivered
      cases delivered
    | ok status =>
      rw [verified] at delivered
      cases delivered
      rfl

end MergeBuffer

/-- A refresh is never sent after an event of a later path. -/
def Settled (first second : PlanEvent) : Prop := second.refresh?.isSome → first.path < second.path

/-- A program works off outcomes in order: it stops at a failed one, or it keeps the undelivered rest in a
buffer. -/
inductive Progress (context : PlanContext ε) (program : Producer ε MergeBuffer)
    (outcomes : List (Except ε (Option PlanEvent))) : Prop where
  | continued (trace : List PlanEvent) (buffer : MergeBuffer) (delivers : Delivers program trace (.ok buffer))
      (aligned : buffer.Aligned)
      (actions : actionsOf (eventsOf outcomes) = actionsOf trace ++ actionsOf (eventsOf (buffer.outcomes context)))
      (refreshes : refreshesOf (eventsOf outcomes) = refreshesOf trace)
      (allOk : AllOk outcomes ↔ AllOk (buffer.outcomes context))
      (settled : (eventsOf outcomes).Pairwise (fun first second => first.path < second.path) → trace.Pairwise Settled)
  | stopped (trace : List PlanEvent) (failure : ε) (delivers : Delivers program trace (.error (.error failure)))
      (actions : actionsOf trace <+: actionsOf (eventsOf outcomes))
      (refreshes : refreshesOf trace <+: refreshesOf (eventsOf outcomes)) (failed : ¬AllOk outcomes)
      (settled : (eventsOf outcomes).Pairwise (fun first second => first.path < second.path) → trace.Pairwise Settled)

namespace Progress

variable {context : PlanContext ε} {program : Producer ε MergeBuffer} {outcomes more : List (Except ε (Option PlanEvent))}

/-- Work on further outcomes continues with the rest that the buffer keeps. -/
theorem bind (next : MergeBuffer → Producer ε MergeBuffer) (first : Progress context program outcomes)
    (second : ∀ buffer : MergeBuffer, buffer.Aligned → Progress context (next buffer) (buffer.outcomes context ++ more)) :
    Progress context (fun σ sink => program σ sink >>= fun buffer => next buffer σ sink) (outcomes ++ more) := by
  have prefixed {events : List PlanEvent} (ordered : (eventsOf (outcomes ++ more)).Pairwise (·.path < ·.path))
      (part : List.Sublist events (eventsOf (outcomes ++ more))) : events.Pairwise (·.path < ·.path) :=
    ordered.sublist part
  cases first with
  | stopped trace failure delivers actions refreshes failed settled =>
    refine .stopped trace failure (delivers.bind_error next) ?_ ?_ (fun allOk => failed ((allOk_append _ _).mp allOk).1)
      fun ordered => settled (prefixed ordered ?_)
    · simpa using actions.trans (List.prefix_append _ _)
    · simpa using refreshes.trans (List.prefix_append _ _)
    · simp
  | continued trace buffer delivers aligned actions refreshes allOk settled =>
    have remaining : actionsOf (eventsOf (outcomes ++ more)) =
        actionsOf trace ++ actionsOf (eventsOf (buffer.outcomes context ++ more)) := by
      simp [actions]
    have newRefreshes : refreshesOf (eventsOf (buffer.outcomes context ++ more)) = refreshesOf (eventsOf more) := by
      simp [buffer.refreshesOf_outcomes]
    have ok : AllOk (outcomes ++ more) ↔ AllOk (buffer.outcomes context ++ more) := by simp [allOk]
    -- the undelivered rest is part of the outcomes, so its order is inherited
    have rest (ordered : (eventsOf (outcomes ++ more)).Pairwise (·.path < ·.path)) :
        (eventsOf (buffer.outcomes context ++ more)).Pairwise (·.path < ·.path) := by
      refine prefixed ordered ?_
      rw [eventsOf_append, eventsOf_append]
      refine List.Sublist.append ?_ (List.Sublist.refl _)
      rw [← map_actionsOf (buffer.refreshesOf_outcomes context)]
      refine List.Sublist.trans ?_ (map_actionsOf_sublist (eventsOf outcomes))
      rw [actions, List.map_append]
      exact List.sublist_append_right _ _
    have joined {later : List PlanEvent} (laterRefreshes : ∀ mutation ∈ refreshesOf later, mutation ∈ refreshesOf (eventsOf more))
        (laterSettled : (eventsOf (buffer.outcomes context ++ more)).Pairwise (·.path < ·.path) → later.Pairwise Settled)
        (ordered : (eventsOf (outcomes ++ more)).Pairwise (·.path < ·.path)) : (trace ++ later).Pairwise Settled := by
      have parts := ordered
      rw [eventsOf_append, List.pairwise_append] at parts
      refine List.pairwise_append.mpr ⟨settled parts.1, laterSettled (rest ordered), ?_⟩
      intro sent member event new isRefresh
      cases event with
      | action decision => cases isRefresh
      | refresh mutation =>
        refine parts.2.2 sent (mem_of_parts ?_ ?_ member) _ (mem_refreshesOf.mp (laterRefreshes _ (mem_refreshesOf.mpr new)))
        · exact fun decision inside => actions ▸ List.mem_append_left _ inside
        · exact fun mutation inside => refreshes ▸ inside
    cases second buffer aligned with
    | stopped later failure delivers' actions' refreshes' failed settled' =>
      rw [newRefreshes] at refreshes'
      refine .stopped (trace ++ later) failure (delivers.bind next delivers') ?_ ?_ (mt ok.mp failed)
        (joined (fun _ inside => refreshes'.subset inside) settled')
      · rw [actionsOf_append, remaining]
        exact (List.prefix_append_right_inj _).mpr actions'
      · rw [refreshesOf_append, eventsOf_append, refreshesOf_append, refreshes]
        exact (List.prefix_append_right_inj _).mpr refreshes'
    | continued later last delivers' aligned' actions' refreshes' allOk' settled' =>
      rw [newRefreshes] at refreshes'
      refine .continued (trace ++ later) last (delivers.bind next delivers') aligned' ?_ ?_ (ok.trans allOk')
        (joined (fun _ inside => refreshes' ▸ inside) settled')
      · rw [remaining, actions', actionsOf_append, List.append_assoc]
      · rw [refreshesOf_append, eventsOf_append, refreshesOf_append, refreshes, refreshes']

end Progress

/-! ## One row -/

namespace MergeBuffer.Aligned

variable {buffer : MergeBuffer} (context : PlanContext ε) (windows : PlanWindows)

theorem flush (aligned : buffer.Aligned) :
    Progress context (fun _ sink => buffer.flush context windows sink) (buffer.outcomes context) := by
  rcases aligned.flush_cases context windows with ⟨actions, whole, delivers⟩ | ⟨failure, delivers, failed⟩
  · have sent : eventsOf (buffer.outcomes context) = actions.map PlanEvent.action := by
      rw [whole, eventsOf, List.filterMap_map, ← List.filterMap_eq_map]
      rfl
    refine .continued _ _ delivers aligned_empty ?_ ?_ ⟨fun _ => by simp [AllOk, outcomes], fun _ => ?_⟩ fun ordered => ?_
    · rw [sent]
      exact (List.append_nil _).symm
    · rw [sent]
    · rw [whole]
      rintro _ member
      obtain ⟨action, -, rfl⟩ := List.mem_map.mp member
      rfl
    · rw [← sent]
      exact ordered.imp (S := Settled) fun below _ => below
  · exact .stopped [] failure delivers (List.nil_prefix) (List.nil_prefix) failed fun _ => List.Pairwise.nil

theorem flushIfFull (aligned : buffer.Aligned) :
    Progress context (fun _ sink => buffer.flushIfFull context windows sink) (buffer.outcomes context) := by
  unfold MergeBuffer.flushIfFull
  split_ifs
  · exact aligned.flush context windows
  · exact .continued [] buffer (Delivers.result (.ok buffer)) aligned rfl (buffer.refreshesOf_outcomes context) Iff.rfl
      fun _ => List.Pairwise.nil

theorem pushReady (aligned : buffer.Aligned) (action : SyncAction) :
    Progress context (fun _ sink => buffer.pushReady context windows sink action)
      (buffer.outcomes context ++ [context.outcome (.ready action)]) := by
  have pushed : Aligned { buffer with rows := buffer.rows ++ [.ready action] } := by
    refine ⟨fun kind slot member => aligned.slot kind slot ?_, aligned.lookup, fun oid member => ?_⟩
    · simpa using member
    · obtain ⟨kind, slot, row, own⟩ := aligned.queued oid member
      exact ⟨kind, slot, List.mem_append_left _ row, own⟩
  have progress := pushed.flushIfFull context windows
  rwa [outcomes, List.map_append, List.map_singleton] at progress

/-- The slot of an object names that object, and slots that are taken stay. -/
theorem slotFor (aligned : buffer.Aligned) (oid : Oid) :
    (buffer.slotFor oid).2.pendingOids[(buffer.slotFor oid).1]? = some oid ∧
      (∀ (slot : ℕ) (other : Oid), buffer.pendingOids[slot]? = some other →
        (buffer.slotFor oid).2.pendingOids[slot]? = some other) ∧
      (∀ entry ∈ (buffer.slotFor oid).2.pendingSlots,
        (buffer.slotFor oid).2.pendingOids[entry.2]? = some entry.1) ∧
      (∀ other ∈ (buffer.slotFor oid).2.pendingOids, other = oid ∨ other ∈ buffer.pendingOids) ∧
      (buffer.slotFor oid).2.rows = buffer.rows := by
  unfold MergeBuffer.slotFor
  cases found : buffer.pendingSlots.lookup oid with
  | some slot =>
    obtain ⟨key, member, same⟩ : ∃ key, (key, slot) ∈ buffer.pendingSlots ∧ key = oid := by
      obtain ⟨before, after, split, -⟩ := List.lookup_eq_some_iff.mp found
      exact ⟨oid, by rw [split]; simp, rfl⟩
    subst same
    exact ⟨aligned.lookup _ member, fun _ _ taken => taken, aligned.lookup, fun _ member => Or.inr member, rfl⟩
  | none =>
    have keep (slot : ℕ) (other : Oid) (taken : buffer.pendingOids[slot]? = some other) :
        (buffer.pendingOids ++ [oid])[slot]? = some other := by
      obtain ⟨inside, -⟩ := List.getElem?_eq_some_iff.mp taken
      rwa [List.getElem?_append_left inside]
    refine ⟨by simp, keep, fun entry member => ?_, fun other member => ?_, rfl⟩
    · rcases List.mem_cons.mp member with rfl | old
      · simp
      · exact keep _ _ (aligned.lookup entry old)
    · rcases List.mem_append.mp member with old | new
      · exact Or.inr old
      · exact Or.inl (List.mem_singleton.mp new)

theorem pushPending (aligned : buffer.Aligned) (kind : PendingCache) :
    Progress context (fun _ sink => buffer.pushPending context windows sink kind)
      (buffer.outcomes context ++ [context.outcome (.pending kind)]) := by
  obtain ⟨own, keep, lookup, queued, sameRows⟩ := aligned.slotFor kind.entry.oid
  let pushed : MergeBuffer := { (buffer.slotFor kind.entry.oid).2 with
    rows := (buffer.slotFor kind.entry.oid).2.rows ++ [.pending kind (buffer.slotFor kind.entry.oid).1] }
  have rows : pushed.rows = buffer.rows ++ [.pending kind (buffer.slotFor kind.entry.oid).1] := by rw [← sameRows]
  have alignedPushed : pushed.Aligned := by
    refine ⟨fun other slot member => ?_, lookup, fun oid member => ?_⟩
    · rw [rows, List.mem_append] at member
      rcases member with old | new
      · exact keep _ _ (aligned.slot other slot old)
      · cases List.mem_singleton.mp new
        exact own
    · rw [rows]
      rcases queued oid member with rfl | old
      · exact ⟨kind, _, List.mem_append_right _ List.mem_cons_self, rfl⟩
      · obtain ⟨other, slot, row, same⟩ := aligned.queued oid old
        exact ⟨other, slot, List.mem_append_left _ row, same⟩
  have whole : pushed.outcomes context = buffer.outcomes context ++ [context.outcome (.pending kind)] := by
    rw [outcomes, rows, List.map_append, List.map_singleton]
    rfl
  rw [← whole]
  unfold MergeBuffer.pushPending
  change Progress context (fun _ sink => if windows.verifyWindow ≤ pushed.pendingOids.length then
    pushed.flush context windows sink else pushed.flushIfFull context windows sink) _
  split_ifs
  · exact alignedPushed.flush context windows
  · exact alignedPushed.flushIfFull context windows

/-- Handing over one classified path. -/
theorem push (aligned : buffer.Aligned) (classified : Classified) :
    Progress context (fun _ sink => buffer.push context windows sink classified)
      (buffer.outcomes context ++ [context.outcome classified]) := by
  cases classified with
  | pending kind => exact aligned.pushPending context windows kind
  | ready action => exact aligned.pushReady context windows action
  | refresh mutation =>
    have sent := (Delivers.event (.refresh mutation)).bind (fun _ _ _ => Fallible.raise _)
      (Delivers.result (ε := ε) (.ok buffer))
    refine .continued _ buffer sent aligned ?_ ?_ ?_ fun _ => List.pairwise_singleton _ _
    · rw [PlanContext.outcome, eventsOf_append, eventsOf_some, actionsOf_append]
      exact List.append_nil _
    · rw [PlanContext.outcome, eventsOf_append, eventsOf_some, refreshesOf_append, buffer.refreshesOf_outcomes]
      rfl
    · simp [PlanContext.outcome]
  | unchanged =>
    refine .continued [] buffer (Delivers.result (.ok buffer)) aligned ?_ ?_ ?_ fun _ => List.Pairwise.nil
    · rw [PlanContext.outcome, eventsOf_append, eventsOf_none, List.append_nil]
      rfl
    · rw [PlanContext.outcome, eventsOf_append, eventsOf_none, List.append_nil, buffer.refreshesOf_outcomes]
      rfl
    · simp [PlanContext.outcome]

/-- One path of the union. -/
theorem mergeRow (aligned : buffer.Aligned) (desired : Option Entry) (prior : Option MaterializedRow) :
    Progress context (fun _ sink => Gat.mergeRow context windows sink buffer desired prior)
      (buffer.outcomes context ++ [context.planRow desired prior]) := by
  unfold Gat.mergeRow PlanContext.planRow
  cases context.classify desired prior with
  | ok classified => exact aligned.push context windows classified
  | error failure =>
    refine .stopped [] failure (Delivers.result _) List.nil_prefix List.nil_prefix ?_ fun _ => List.Pairwise.nil
    intro allOk
    cases allOk _ (List.mem_append_right _ List.mem_cons_self)

end MergeBuffer.Aligned

end Gat
