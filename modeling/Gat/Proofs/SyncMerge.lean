import Gat.Proofs.SyncPlan
import Mathlib.Data.List.Dedup
import Mathlib.Data.List.Sort

/-! # The merge visits the union of both sides

The merge loop visits every path of either stream once, in ascending order, with the row that each stream
has for it. A stream that fails cuts this list short.
-/

namespace Gat

variable {ε : Type}

/-- The row of a stream at a path. -/
def RowStream.row? {ρ : Type} {path : ρ → GatPath} (stream : RowStream ε path) (at_ : GatPath) : Option ρ :=
  stream.rows.find? fun row => path row = at_

/-- The paths of two streams in ascending order. -/
def unionPaths (desired : DesiredStream ε) (prior : PriorStream ε) : List GatPath :=
  ((desired.rows.map Entry.path ++ prior.rows.map MaterializedRow.path).dedup).mergeSort

/-- What is planned for a path on its own. -/
def plannedAt (context : PlanContext ε) (desired : DesiredStream ε) (prior : PriorStream ε) (path : GatPath) :
    Except ε (Option PlanEvent) :=
  context.planRow (desired.row? path) (prior.row? path)

theorem mem_unionPaths {desired : DesiredStream ε} {prior : PriorStream ε} {path : GatPath} :
    path ∈ unionPaths desired prior ↔
      (∃ entry ∈ desired.rows, entry.path = path) ∨ ∃ row ∈ prior.rows, row.path = path := by
  simp [unionPaths, List.mem_mergeSort]

theorem pairwise_unionPaths (desired : DesiredStream ε) (prior : PriorStream ε) :
    (unionPaths desired prior).Pairwise (· < ·) := by
  have sorted := List.pairwise_mergeSort' (· ≤ ·)
    (desired.rows.map Entry.path ++ prior.rows.map MaterializedRow.path).dedup
  have distinct : (unionPaths desired prior).Nodup := (List.mergeSort_perm _ _).nodup_iff.mpr (List.nodup_dedup _)
  exact (sorted.and distinct).imp fun both => lt_of_le_of_ne both.1 both.2

/-! ## The rows that the loop visits -/

/-- A path of the union with the row of each side. -/
structure UnionRow where
  path : GatPath
  desired : Option Entry
  prior : Option MaterializedRow

/-- The rows that the loop visits and the stream failure that ends it. -/
def visitedRows (desiredFault priorFault : Option ε) : List Entry → List MaterializedRow → List UnionRow × Option ε
  | [], [] => ([], desiredFault.or priorFault)
  | desired :: restDesired, [] =>
    if priorFault.isSome then ([], priorFault)
    else
      let rest := visitedRows desiredFault priorFault restDesired []
      (⟨desired.path, some desired, none⟩ :: rest.1, rest.2)
  | [], prior :: restPrior =>
    if desiredFault.isSome then ([], desiredFault)
    else
      let rest := visitedRows desiredFault priorFault [] restPrior
      (⟨prior.path, none, some prior⟩ :: rest.1, rest.2)
  | desired :: restDesired, prior :: restPrior =>
    if desired.path = prior.path then
      let rest := visitedRows desiredFault priorFault restDesired restPrior
      (⟨desired.path, some desired, some prior⟩ :: rest.1, rest.2)
    else if desired.path < prior.path then
      let rest := visitedRows desiredFault priorFault restDesired (prior :: restPrior)
      (⟨desired.path, some desired, none⟩ :: rest.1, rest.2)
    else
      let rest := visitedRows desiredFault priorFault (desired :: restDesired) restPrior
      (⟨prior.path, none, some prior⟩ :: rest.1, rest.2)
termination_by desired prior => desired.length + prior.length

/-- The loop works off its rows and then fails if a stream did. -/
theorem mergeRows_eq {σ : Type} (context : PlanContext ε) (windows : PlanWindows) (sink : PlanSink ε σ)
    (desiredFault priorFault : Option ε) (desired : List Entry) (prior : List MaterializedRow) (buffer : MergeBuffer) :
    mergeRows context windows sink desiredFault priorFault desired prior buffer = do
      let visited := visitedRows desiredFault priorFault desired prior
      let buffer ← visited.1.foldlM (fun buffer row => mergeRow context windows sink buffer row.desired row.prior) buffer
      endOfRows visited.2
      return buffer := by
  fun_induction visitedRows desiredFault priorFault desired prior generalizing buffer with
  | case1 =>
    rw [mergeRows]
    cases desiredFault <;> cases priorFault <;> rfl
  | case2 desired restDesired failed =>
    obtain ⟨failure, rfl⟩ := Option.isSome_iff_exists.mp failed
    rw [mergeRows]
    rfl
  | case3 desired restDesired noFault rest ih =>
    obtain rfl : priorFault = none := by simpa using noFault
    rw [mergeRows]
    simp only [List.foldlM_cons, bind_assoc, ih, rest]
    rfl
  | case4 prior restPrior failed =>
    obtain ⟨failure, rfl⟩ := Option.isSome_iff_exists.mp failed
    rw [mergeRows]
    rfl
  | case5 prior restPrior noFault rest ih =>
    obtain rfl : desiredFault = none := by simpa using noFault
    rw [mergeRows]
    simp only [List.foldlM_cons, bind_assoc, ih, rest]
    rfl
  | case6 desired restDesired prior restPrior same rest ih =>
    rw [mergeRows, if_pos same]
    simp only [List.foldlM_cons, bind_assoc, ih, rest]
  | case7 desired restDesired prior restPrior other before rest ih =>
    rw [mergeRows, if_neg other, if_pos before]
    simp only [List.foldlM_cons, bind_assoc, ih, rest]
  | case8 desired restDesired prior restPrior other after rest ih =>
    rw [mergeRows, if_neg other, if_neg after]
    simp only [List.foldlM_cons, bind_assoc, ih, rest]

/-- A stream that is cut before its end fails there. -/
def CutBy {ρ : Type} (fault : Option ε) (read rows : List ρ) : Prop := read <+: rows ∧ (fault = none → read = rows)

theorem CutBy.tail {ρ : Type} {fault : Option ε} {row : ρ} {read rows : List ρ} (cut : CutBy fault (row :: read) rows) :
    ∃ rest, rows = row :: rest ∧ CutBy fault read rest := by
  obtain ⟨rest, rfl⟩ := cut.1
  exact ⟨read ++ rest, rfl, List.prefix_append _ _, fun noFault => by simpa using cut.2 noFault⟩

/-- A failing stream only cuts the visited rows short. -/
theorem visitedRows_prefix {desiredFault priorFault : Option ε} {readDesired desired : List Entry}
    {readPrior prior : List MaterializedRow} (desiredCut : CutBy desiredFault readDesired desired)
    (priorCut : CutBy priorFault readPrior prior) :
    (visitedRows desiredFault priorFault readDesired readPrior).1 <+: (visitedRows (none : Option ε) none desired prior).1 ∧
      ((visitedRows desiredFault priorFault readDesired readPrior).2 = none ↔ desiredFault = none ∧ priorFault = none) := by
  induction readDesired, readPrior using visitedRows.induct desiredFault priorFault generalizing desired prior with
  | case1 =>
    rw [visitedRows]
    exact ⟨List.nil_prefix, Option.or_eq_none_iff⟩
  | case2 entry restDesired failed =>
    obtain ⟨failure, rfl⟩ := Option.isSome_iff_exists.mp failed
    rw [visitedRows]
    exact ⟨List.nil_prefix, by simp⟩
  | case3 entry restDesired noFault ih =>
    obtain rfl : [] = prior := priorCut.2 (by simpa using noFault)
    obtain ⟨desired, rfl, restCut⟩ := desiredCut.tail
    rw [visitedRows, if_neg noFault, visitedRows]
    exact ⟨(List.prefix_cons_inj _).mpr (ih restCut priorCut).1, (ih restCut priorCut).2⟩
  | case4 row restPrior failed =>
    obtain ⟨failure, rfl⟩ := Option.isSome_iff_exists.mp failed
    rw [visitedRows]
    exact ⟨List.nil_prefix, by simp⟩
  | case5 row restPrior noFault ih =>
    obtain rfl : [] = desired := desiredCut.2 (by simpa using noFault)
    obtain ⟨prior, rfl, restCut⟩ := priorCut.tail
    rw [visitedRows, if_neg noFault, visitedRows]
    exact ⟨(List.prefix_cons_inj _).mpr (ih desiredCut restCut).1, (ih desiredCut restCut).2⟩
  | case6 entry restDesired row restPrior same ih =>
    obtain ⟨desired, rfl, desiredRest⟩ := desiredCut.tail
    obtain ⟨prior, rfl, priorRest⟩ := priorCut.tail
    rw [visitedRows, if_pos same, visitedRows, if_pos same]
    exact ⟨(List.prefix_cons_inj _).mpr (ih desiredRest priorRest).1, (ih desiredRest priorRest).2⟩
  | case7 entry restDesired row restPrior other before ih =>
    obtain ⟨desired, rfl, desiredRest⟩ := desiredCut.tail
    obtain ⟨prior, rfl, -⟩ := priorCut.tail
    rw [visitedRows, if_neg other, if_pos before, visitedRows, if_neg other, if_pos before]
    exact ⟨(List.prefix_cons_inj _).mpr (ih desiredRest priorCut).1, (ih desiredRest priorCut).2⟩
  | case8 entry restDesired row restPrior other after ih =>
    obtain ⟨desired, rfl, -⟩ := desiredCut.tail
    obtain ⟨prior, rfl, priorRest⟩ := priorCut.tail
    rw [visitedRows, if_neg other, if_neg after, visitedRows, if_neg other, if_neg after]
    exact ⟨(List.prefix_cons_inj _).mpr (ih desiredCut priorRest).1, (ih desiredCut priorRest).2⟩

theorem RowStream.cutBy {ρ : Type} {path : ρ → GatPath} (stream : RowStream ε path) :
    CutBy stream.failure stream.readable stream.rows := by
  unfold CutBy RowStream.failure RowStream.readable
  cases stream.fault with
  | none => exact ⟨List.prefix_refl _, fun _ => rfl⟩
  | some fault => exact ⟨List.take_prefix _ _, nofun⟩

/-- Rows that visit every path of both sides once and in order, each with its own rows. -/
structure Visits (rows : List UnionRow) (desired : List Entry) (prior : List MaterializedRow) : Prop where
  ordered : rows.Pairwise fun left right => left.path < right.path
  own : ∀ row ∈ rows, row.desired = desired.find? (fun entry => entry.path = row.path) ∧
    row.prior = prior.find? fun other => other.path = row.path
  all : ∀ path, (∃ row ∈ rows, row.path = path) ↔
    (∃ entry ∈ desired, entry.path = path) ∨ ∃ other ∈ prior, other.path = path

private theorem find?_toList_append {ρ : Type} {path : ρ → GatPath} {first : Option ρ} {rest : List ρ} {key : GatPath}
    (own : ∀ row ∈ first, path row = key) (above : ∀ row ∈ rest, key < path row) :
    (first.toList ++ rest).find? (fun row => path row = key) = first ∧
      ∀ other, key < other → (first.toList ++ rest).find? (fun row => path row = other) = rest.find? fun row => path row = other := by
  have absent : rest.find? (fun row => path row = key) = none := by
    refine List.find?_eq_none.mpr fun row member => ?_
    simpa using (above row member).ne'
  cases first with
  | none => exact ⟨absent, fun _ _ => rfl⟩
  | some row =>
    have same : path row = key := own row rfl
    refine ⟨by simp [same], fun other later => ?_⟩
    rw [Option.toList_some, List.singleton_append, List.find?_cons_of_neg]
    simpa [same] using later.ne

/-- Both sides start at the visited path, and everything else comes later. -/
theorem Visits.cons (head : UnionRow) {rows : List UnionRow} {desired : List Entry} {prior : List MaterializedRow}
    (rest : Visits rows desired prior) (some : head.desired.isSome ∨ head.prior.isSome)
    (desiredOwn : ∀ entry ∈ head.desired, entry.path = head.path) (priorOwn : ∀ other ∈ head.prior, other.path = head.path)
    (desiredAbove : ∀ entry ∈ desired, head.path < entry.path) (priorAbove : ∀ other ∈ prior, head.path < other.path) :
    Visits (head :: rows) (head.desired.toList ++ desired) (head.prior.toList ++ prior) := by
  have above (row : UnionRow) (member : row ∈ rows) : head.path < row.path := by
    rcases (rest.all row.path).mp ⟨row, member, rfl⟩ with ⟨entry, inside, same⟩ | ⟨other, inside, same⟩
    · exact same ▸ desiredAbove entry inside
    · exact same ▸ priorAbove other inside
  have desiredFind := find?_toList_append desiredOwn desiredAbove
  have priorFind := find?_toList_append priorOwn priorAbove
  refine ⟨List.pairwise_cons.mpr ⟨above, rest.ordered⟩, fun row member => ?_, fun path => ?_⟩
  · rcases List.mem_cons.mp member with rfl | later
    · exact ⟨desiredFind.1.symm, priorFind.1.symm⟩
    · rw [desiredFind.2 _ (above row later), priorFind.2 _ (above row later)]
      exact rest.own row later
  · have here : head.path = path ↔ (∃ entry ∈ head.desired, entry.path = path) ∨ ∃ other ∈ head.prior, other.path = path := by
      constructor
      · rintro rfl
        rcases some with present | present
        · obtain ⟨entry, same⟩ := Option.isSome_iff_exists.mp present
          exact Or.inl ⟨entry, same, desiredOwn entry same⟩
        · obtain ⟨other, same⟩ := Option.isSome_iff_exists.mp present
          exact Or.inr ⟨other, same, priorOwn other same⟩
      · rintro (⟨entry, inside, rfl⟩ | ⟨other, inside, rfl⟩)
        · exact (desiredOwn entry inside).symm
        · exact (priorOwn other inside).symm
    simp only [List.exists_mem_cons_iff, here, rest.all path, List.mem_append, Option.mem_toList, Option.mem_def,
      or_and_right, exists_or]
    exact or_or_or_comm

/-- Without a fault the loop visits the union. -/
theorem visits_visitedRows {desired : List Entry} {prior : List MaterializedRow}
    (desiredOrdered : desired.Pairwise fun left right => left.path < right.path)
    (priorOrdered : prior.Pairwise fun left right => left.path < right.path) :
    Visits (visitedRows (none : Option ε) none desired prior).1 desired prior := by
  have extend {key : GatPath} {ρ : Type} {path : ρ → GatPath} {row : ρ} {rows : List ρ} (before : key < path row)
      (above : ∀ other ∈ rows, path row < path other) : ∀ other ∈ row :: rows, key < path other := by
    rintro other member
    rcases List.mem_cons.mp member with rfl | later
    · exact before
    · exact before.trans (above other later)
  fun_induction visitedRows (none : Option ε) none desired prior with
  | case1 => exact ⟨List.Pairwise.nil, by simp, by simp⟩
  | case2 desired restDesired failed => cases failed
  | case4 prior restPrior failed => cases failed
  | case3 desired restDesired noFault rest ih =>
    have parts := List.pairwise_cons.mp desiredOrdered
    exact Visits.cons ⟨desired.path, some desired, none⟩ (ih parts.2 priorOrdered) (Or.inl rfl) (by simp) (by simp) parts.1 (by simp)
  | case5 prior restPrior noFault rest ih =>
    have parts := List.pairwise_cons.mp priorOrdered
    exact Visits.cons ⟨prior.path, none, some prior⟩ (ih desiredOrdered parts.2) (Or.inr rfl) (by simp) (by simp) (by simp) parts.1
  | case6 desired restDesired prior restPrior same rest ih =>
    have desiredParts := List.pairwise_cons.mp desiredOrdered
    have priorParts := List.pairwise_cons.mp priorOrdered
    exact Visits.cons ⟨desired.path, some desired, some prior⟩ (ih desiredParts.2 priorParts.2) (Or.inl rfl) (by simp)
      (by simp [same]) desiredParts.1 (same ▸ priorParts.1)
  | case7 desired restDesired prior restPrior other before rest ih =>
    have desiredParts := List.pairwise_cons.mp desiredOrdered
    have priorParts := List.pairwise_cons.mp priorOrdered
    exact Visits.cons ⟨desired.path, some desired, none⟩ (ih desiredParts.2 priorOrdered) (Or.inl rfl) (by simp)
      (by simp) desiredParts.1 (extend before priorParts.1)
  | case8 desired restDesired prior restPrior other after rest ih =>
    have desiredParts := List.pairwise_cons.mp desiredOrdered
    have priorParts := List.pairwise_cons.mp priorOrdered
    have before : prior.path < desired.path := lt_of_le_of_ne (not_lt.mp after) (Ne.symm other)
    exact Visits.cons ⟨prior.path, none, some prior⟩ (ih desiredOrdered priorParts.2) (Or.inr rfl) (by simp)
      (by simp) (extend before desiredParts.1) priorParts.1

/-! ## Every decision names its path -/

@[simp] theorem path_classifyObject (status : ObjectVerification) (entry : Entry) (intent : MaterializationIntent) :
    (classifyObject status entry intent).path = entry.path := by
  cases status <;> cases intent <;> rfl

/-- The classification is about a path. -/
def Classified.About (path : GatPath) : Classified → Prop
  | .pending kind => kind.entry.path = path
  | .ready action => action.path = path
  | .refresh mutation => mutation.path = path
  | .unchanged => True

namespace PlanContext

variable {context : PlanContext ε} {path : GatPath}

theorem path_outcome {classified : Classified} (about : classified.About path) {event : PlanEvent}
    (planned : context.outcome classified = .ok (some event)) : event.path = path := by
  cases classified with
  | pending kind =>
    cases verified : context.verify kind.entry.oid with
    | error failure => simp [outcome, verified, Except.map] at planned
    | ok status =>
      obtain rfl : PlanEvent.action (classifyObject status kind.entry kind.intent) = event := by
        simpa [outcome, verified, Except.map] using planned
      exact (path_classifyObject _ _ _).trans about
  | ready action =>
    cases planned
    exact about
  | refresh mutation =>
    cases planned
    exact about
  | unchanged => cases planned

theorem entry_desiredOnlyPending {desired : Entry} {kind : PendingCache}
    (found : context.desiredOnlyPending desired = .ok kind) : kind.entry = desired := by
  unfold desiredOnlyPending at found
  cases policy : context.policy.validation with
  | trustState =>
    rw [policy] at found
    cases found
    rfl
  | validate =>
    rw [policy] at found
    cases inspected : context.fileStatusWithoutPrior desired.path desired.oid with
    | error failure => simp [inspected, bind, Except.bind] at found
    | ok status =>
      simp only [inspected, bind, Except.bind, pure, Except.pure, Except.ok.injEq] at found
      rw [← found]

theorem path_priorOnlyAction {prior : MaterializedRow} {action : SyncAction}
    (found : context.priorOnlyAction prior = .ok (some action)) : action.path = prior.path := by
  unfold priorOnlyAction at found
  cases policy : context.policy.validation with
  | trustState =>
    rw [policy] at found
    cases found
    rfl
  | validate =>
    rw [policy] at found
    cases inspected : context.fileStatus prior with
    | error failure => simp [inspected, bind, Except.bind] at found
    | ok status =>
      obtain ⟨kind, refresh⟩ := status
      simp only [inspected, bind, Except.bind, pure, Except.pure] at found
      cases kind with
      | absent => cases found
      | matching =>
        cases found
        rfl
      | differs =>
        cases found
        rfl

theorem about_classifyBoth {desired : Entry} {prior : MaterializedRow} {classified : Classified}
    (found : context.classifyBoth desired prior = .ok classified) : classified.About desired.path := by
  unfold classifyBoth at found
  cases policy : context.policy.validation with
  | trustState =>
    simp only [policy, pure, Except.pure, Except.ok.injEq] at found
    split_ifs at found <;> cases found
    · trivial
    · rfl
  | validate =>
    rw [policy] at found
    cases inspected : context.fileStatus prior with
    | error failure => simp [inspected, bind, Except.bind] at found
    | ok status =>
      obtain ⟨kind, refresh⟩ := status
      simp only [inspected, bind, Except.bind, pure, Except.pure] at found
      cases kind <;> cases refresh <;> simp only at found <;> split_ifs at found <;> cases found <;> first | rfl | trivial

/-- A classification is about the path of its rows. -/
theorem about_classify {desired : Option Entry} {prior : Option MaterializedRow} (desiredOwn : ∀ entry ∈ desired, entry.path = path)
    (priorOwn : ∀ row ∈ prior, row.path = path) {classified : Classified}
    (found : context.classify desired prior = .ok classified) : classified.About path := by
  cases desired with
  | none =>
    cases prior with
    | none =>
      cases found
      trivial
    | some prior =>
      cases decided : context.priorOnlyAction prior with
      | error failure => simp [classify, decided, bind, Except.bind] at found
      | ok action =>
        simp only [classify, decided, bind, Except.bind, pure, Except.pure, Except.ok.injEq] at found
        cases action with
        | none =>
          rw [← found]
          trivial
        | some action =>
          rw [← found]
          exact (path_priorOnlyAction decided).trans (priorOwn prior rfl)
  | some desired =>
    cases prior with
    | none =>
      cases decided : context.desiredOnlyPending desired with
      | error failure => simp [classify, decided, bind, Except.bind] at found
      | ok kind =>
        simp only [classify, decided, bind, Except.bind, pure, Except.pure, Except.ok.injEq] at found
        rw [← found]
        exact (congrArg Entry.path (entry_desiredOnlyPending decided)).trans (desiredOwn desired rfl)
    | some prior => exact desiredOwn desired rfl ▸ about_classifyBoth found

theorem path_planRow {desired : Option Entry} {prior : Option MaterializedRow} (desiredOwn : ∀ entry ∈ desired, entry.path = path)
    (priorOwn : ∀ row ∈ prior, row.path = path) {event : PlanEvent}
    (planned : context.planRow desired prior = .ok (some event)) : event.path = path := by
  cases found : context.classify desired prior with
  | error failure => simp [planRow, found, bind, Except.bind] at planned
  | ok classified =>
    have outcome : context.outcome classified = .ok (some event) := by
      simpa [planRow, found, bind, Except.bind] using planned
    exact path_outcome (about_classify desiredOwn priorOwn found) outcome

end PlanContext

/-! ## The delivery of a whole plan -/

section Plan

variable (context : PlanContext ε) (windows : PlanWindows) (desired : DesiredStream ε) (prior : PriorStream ε)

/-- The outcome of every path of the union. -/
def plannedOutcomes : List (Except ε (Option PlanEvent)) := (unionPaths desired prior).map (plannedAt context desired prior)

theorem map_planRow_visitedRows :
    (visitedRows (none : Option ε) none desired.rows prior.rows).1.map (fun row => context.planRow row.desired row.prior) =
      plannedOutcomes context desired prior := by
  have visits := visits_visitedRows (ε := ε) desired.ordered prior.ordered
  set rows := (visitedRows (none : Option ε) none desired.rows prior.rows).1
  have paths : rows.map UnionRow.path = unionPaths desired prior := by
    refine List.eq_of_key_lt id (List.pairwise_map.mpr visits.ordered) (pairwise_unionPaths desired prior) fun path => ?_
    rw [mem_unionPaths, ← visits.all, List.mem_map]
  rw [plannedOutcomes, ← paths, List.map_map]
  refine List.map_congr_left fun row member => ?_
  rw [(visits.own row member).1, (visits.own row member).2]
  rfl

/-- What a run of the planner hands to its sink, compared with the outcomes of the paths on their own. -/
structure PlanTrace (trace : List PlanEvent) (result : Outcome ε PUnit) : Prop where
  actions : actionsOf trace <+: actionsOf (eventsOf (plannedOutcomes context desired prior))
  refreshes : refreshesOf trace <+: refreshesOf (eventsOf (plannedOutcomes context desired prior))
  settled : trace.Pairwise Settled
  succeeds : result = .ok ⟨⟩ ↔ desired.failure = none ∧ prior.failure = none ∧ AllOk (plannedOutcomes context desired prior)
  complete : result = .ok ⟨⟩ → actionsOf trace = actionsOf (eventsOf (plannedOutcomes context desired prior)) ∧
    refreshesOf trace = refreshesOf (eventsOf (plannedOutcomes context desired prior))
  noPanic : result ≠ Outcome.panic

variable {context windows desired prior}

theorem RowStream.path_of_row? {ρ : Type} {path : ρ → GatPath} {stream : RowStream ε path} {key : GatPath} :
    ∀ row ∈ stream.row? key, path row = key := by
  intro row found
  simpa using List.find?_some found

theorem path_plannedAt {path : GatPath} {event : PlanEvent}
    (planned : plannedAt context desired prior path = .ok (some event)) : event.path = path :=
  PlanContext.path_planRow RowStream.path_of_row? RowStream.path_of_row? planned

/-- The planned events are in strict path order, so each path has at most one. -/
theorem pairwise_plannedEvents (context : PlanContext ε) (desired : DesiredStream ε) (prior : PriorStream ε) :
    (eventsOf (plannedOutcomes context desired prior)).Pairwise fun first second => first.path < second.path := by
  unfold eventsOf plannedOutcomes
  rw [List.filterMap_map]
  refine (pairwise_unionPaths desired prior).filterMap _ fun first second before event planned other otherPlanned => ?_
  rw [path_plannedAt (toOption_join_eq_some_iff.mp planned), path_plannedAt (toOption_join_eq_some_iff.mp otherPlanned)]
  exact before

/-- Buffering the visited rows one after another works off their outcomes. -/
theorem progress_foldlM (context : PlanContext ε) (windows : PlanWindows) (rows : List UnionRow) {buffer : MergeBuffer} (aligned : buffer.Aligned) :
    Progress context (fun _ sink => rows.foldlM (fun buffer row =>
      mergeRow context windows sink buffer row.desired row.prior) buffer)
      (buffer.outcomes context ++ rows.map fun row => context.planRow row.desired row.prior) := by
  induction rows generalizing buffer with
  | nil =>
    rw [List.map_nil, List.append_nil]
    exact .continued [] buffer (Delivers.result (.ok buffer)) aligned rfl (buffer.refreshesOf_outcomes context) Iff.rfl
      fun _ => List.Pairwise.nil
  | cons row rows ih =>
    have first := aligned.mergeRow context windows row.desired row.prior
    have whole := first.bind (fun buffer _ sink => rows.foldlM (fun buffer row =>
      mergeRow context windows sink buffer row.desired row.prior) buffer) fun buffer aligned => ih aligned
    rw [List.append_assoc, List.singleton_append] at whole
    simpa only [List.foldlM_cons, List.map_cons] using whole

/-- A list of actions sent after a trace keeps refreshes settled. -/
theorem settled_append_actions {trace : List PlanEvent} (settled : trace.Pairwise Settled) (actions : List SyncAction) :
    (trace ++ actions.map PlanEvent.action).Pairwise Settled := by
  have onlyActions (event : PlanEvent) : ∀ other ∈ actions.map PlanEvent.action, Settled event other := by
    intro other member isRefresh
    obtain ⟨action, -, rfl⟩ := List.mem_map.mp member
    cases isRefresh
  refine List.pairwise_append.mpr ⟨settled, ?_, fun event _ => onlyActions event⟩
  exact List.pairwise_of_forall_mem_list fun event _ other => onlyActions event other

/-- What has been sent of some outcomes when a run over them ends. -/
structure Sent (outcomes : List (Except ε (Option PlanEvent))) (trace : List PlanEvent) (result : Outcome ε PUnit) : Prop where
  actions : actionsOf trace <+: actionsOf (eventsOf outcomes)
  refreshes : refreshesOf trace <+: refreshesOf (eventsOf outcomes)
  settled : (eventsOf outcomes).Pairwise (fun first second => first.path < second.path) → trace.Pairwise Settled
  succeeds : result = .ok ⟨⟩ ↔ AllOk outcomes
  complete : result = .ok ⟨⟩ → actionsOf trace = actionsOf (eventsOf outcomes) ∧ refreshesOf trace = refreshesOf (eventsOf outcomes)
  noPanic : result ≠ Outcome.panic

/-- Flushing the buffer at the end sends the rest of the outcomes, or one of them has failed. -/
theorem Progress.finish (windows : PlanWindows) {program : Producer ε MergeBuffer} {outcomes : List (Except ε (Option PlanEvent))}
    (progress : Progress context program outcomes) :
    ∃ trace result, Delivers (fun σ sink => program σ sink >>= fun buffer => do let _ ← buffer.flush context windows sink) trace result ∧
      Sent outcomes trace result := by
  let flush (buffer : MergeBuffer) : Producer ε PUnit := fun _ sink => do let _ ← buffer.flush context windows sink
  -- a failed run has delivered a part of the outcomes
  have failedTrace {trace : List PlanEvent} {failure : ε} (actions : actionsOf trace <+: actionsOf (eventsOf outcomes))
      (refreshes : refreshesOf trace <+: refreshesOf (eventsOf outcomes))
      (settled : (eventsOf outcomes).Pairwise (fun first second => first.path < second.path) → trace.Pairwise Settled)
      (failed : ¬AllOk outcomes) : Sent outcomes trace (.error (.error failure)) :=
    ⟨actions, refreshes, settled, ⟨by rintro ⟨⟩, fun okay => absurd okay failed⟩, by rintro ⟨⟩, by rintro ⟨⟩⟩
  cases progress with
  | stopped trace failure delivers actions refreshes failed settled =>
    exact ⟨trace, _, delivers.bind_error flush, failedTrace actions refreshes settled failed⟩
  | continued trace buffer delivers aligned actions refreshes allOk settled =>
    have part : actionsOf trace <+: actionsOf (eventsOf outcomes) := actions ▸ List.prefix_append _ _
    rcases aligned.flush_cases context windows with ⟨drained, rest, flushed⟩ | ⟨failure, flushed, failed⟩
    · have drain := flushed.bind (fun _ _ _ => Fallible.raise _) (Delivers.result (.ok PUnit.unit))
      have last := delivers.bind flush drain
      rw [List.append_nil] at last
      have restEvents : eventsOf (buffer.outcomes context) = drained.map PlanEvent.action := by
        rw [rest, eventsOf, List.filterMap_map, ← List.filterMap_eq_map]
        rfl
      have restOk : AllOk (buffer.outcomes context) := by
        rw [rest]
        rintro _ member
        obtain ⟨action, -, rfl⟩ := List.mem_map.mp member
        rfl
      have complete : actionsOf (trace ++ drained.map PlanEvent.action) = actionsOf (eventsOf outcomes) ∧
          refreshesOf (trace ++ drained.map PlanEvent.action) = refreshesOf (eventsOf outcomes) := by
        have noRefresh := buffer.refreshesOf_outcomes context
        rw [restEvents] at actions noRefresh
        rw [actionsOf_append, refreshesOf_append, actions, refreshes, noRefresh, List.append_nil]
        exact ⟨rfl, rfl⟩
      refine ⟨_, _, last, ?_, ?_, fun ordered => settled_append_actions (settled ordered) drained, ?_, fun _ => complete, by rintro ⟨⟩⟩
      · exact complete.1 ▸ List.prefix_refl _
      · exact complete.2 ▸ List.prefix_refl _
      · exact ⟨fun _ => allOk.mpr restOk, fun _ => rfl⟩
    · have stopped := flushed.bind_error fun _ _ _ => Fallible.raise (.ok PUnit.unit)
      refine ⟨trace ++ [], .error (.error failure), delivers.bind flush stopped, ?_⟩
      rw [List.append_nil]
      exact failedTrace part (refreshes ▸ List.prefix_refl _) settled fun okay => failed (allOk.mp okay)

/-- The end of a run, once the visited rows are buffered. -/
def endOfPlan (context : PlanContext ε) (windows : PlanWindows) (fault : Option ε) (buffer : MergeBuffer) : Producer ε PUnit :=
  fun _ sink => do
    endOfRows fault
    let _ ← buffer.flush context windows sink

private theorem exists_planTrace_of_rows (windows : PlanWindows) {program : Producer ε MergeBuffer} {seen unseen : List (Except ε (Option PlanEvent))}
    {fault : Option ε} (progress : Progress context program seen)
    (whole : seen ++ unseen = plannedOutcomes context desired prior)
    (faultless : fault = none ↔ desired.failure = none ∧ prior.failure = none) (all : fault = none → unseen = []) :
    ∃ trace result, Delivers (fun σ sink => program σ sink >>= fun buffer => endOfPlan context windows fault buffer σ sink)
      trace result ∧ PlanTrace context desired prior trace result := by
  have ordered := pairwise_plannedEvents context desired prior
  cases fault with
  | none =>
    obtain rfl := all rfl
    rw [List.append_nil] at whole
    subst whole
    obtain ⟨trace, result, delivers, sent⟩ := progress.finish windows
    refine ⟨trace, result, delivers, sent.actions, sent.refreshes, sent.settled ordered, ?_, sent.complete, sent.noPanic⟩
    rw [sent.succeeds]
    exact ⟨fun allOk => ⟨(faultless.mp rfl).1, (faultless.mp rfl).2, allOk⟩, fun both => both.2.2⟩
  | some failure =>
    -- whatever has been seen, the run fails where its stream does
    have failedTrace {trace : List PlanEvent} {failure : ε} (actions : actionsOf trace <+: actionsOf (eventsOf seen))
        (refreshes : refreshesOf trace <+: refreshesOf (eventsOf seen)) (settled : trace.Pairwise Settled) :
        PlanTrace context desired prior trace (.error (.error failure)) := by
      refine ⟨?_, ?_, settled, ⟨nofun, fun okay => absurd (faultless.mpr ⟨okay.1, okay.2.1⟩) nofun⟩, nofun, nofun⟩
      · rw [← whole, eventsOf_append, actionsOf_append]
        exact actions.trans (List.prefix_append _ _)
      · rw [← whole, eventsOf_append, refreshesOf_append]
        exact refreshes.trans (List.prefix_append _ _)
    rw [← whole, eventsOf_append, List.pairwise_append] at ordered
    cases progress with
    | stopped trace failure delivers actions refreshes failed settled =>
      exact ⟨trace, _, delivers.bind_error (endOfPlan context windows _), failedTrace actions refreshes (settled ordered.1)⟩
    | continued trace buffer delivers aligned actions refreshes allOk settled =>
      refine ⟨trace ++ [], .error (.error failure), delivers.bind (endOfPlan context windows (some failure)) (Delivers.result _), ?_⟩
      rw [List.append_nil]
      exact failedTrace (actions ▸ List.prefix_append _ _) (refreshes ▸ List.prefix_refl _) (settled ordered.1)

/-- Whatever the sink and the windows are, a run of the planner is a trace of the planned events. -/
theorem exists_planTrace (context : PlanContext ε) (windows : PlanWindows) (desired : DesiredStream ε) (prior : PriorStream ε) :
    ∃ trace result, Delivers (fun _ sink => mergeDesiredWithPrior context windows sink desired prior) trace result ∧
      PlanTrace context desired prior trace result := by
  obtain ⟨cut, faultless⟩ := visitedRows_prefix desired.cutBy prior.cutBy
  have progress := progress_foldlM context windows
    (visitedRows desired.failure prior.failure desired.readable prior.readable).1 MergeBuffer.aligned_empty
  have seen := cut.map fun row => context.planRow row.desired row.prior
  rw [map_planRow_visitedRows] at seen
  obtain ⟨unseen, whole⟩ := seen
  have all (noFault : (visitedRows desired.failure prior.failure desired.readable prior.readable).2 = none) : unseen = [] := by
    obtain ⟨desiredEnds, priorEnds⟩ := faultless.mp noFault
    rw [desiredEnds, priorEnds, desired.cutBy.2 desiredEnds, prior.cutBy.2 priorEnds, map_planRow_visitedRows] at whole
    exact List.append_right_eq_self.mp whole
  have ran := exists_planTrace_of_rows windows progress whole faultless all
  simpa only [mergeDesiredWithPrior, mergeRows_eq, endOfPlan, bind_assoc, pure_bind] using ran

/-! ## What a trace says about each path -/

/-- Nothing is planned for a path of neither stream. -/
theorem plannedAt_of_notMem {path : GatPath} (outside : path ∉ unionPaths desired prior) :
    plannedAt context desired prior path = .ok none := by
  rw [mem_unionPaths, not_or] at outside
  have noDesired : desired.row? path = none :=
    List.find?_eq_none.mpr fun entry member => by simpa using fun same => outside.1 ⟨entry, member, same⟩
  have noPrior : prior.row? path = none :=
    List.find?_eq_none.mpr fun row member => by simpa using fun same => outside.2 ⟨row, member, same⟩
  rw [plannedAt, noDesired, noPrior]
  rfl

theorem mem_plannedEvents {event : PlanEvent} :
    event ∈ eventsOf (plannedOutcomes context desired prior) ↔ plannedAt context desired prior event.path = .ok (some event) := by
  rw [mem_eventsOf, plannedOutcomes, List.mem_map]
  constructor
  · rintro ⟨path, -, planned⟩
    rwa [path_plannedAt planned]
  · intro planned
    refine ⟨event.path, ?_, planned⟩
    by_contra outside
    rw [plannedAt_of_notMem outside] at planned
    cases planned

/-- Every path of the union is decided when every path is, for the others need no decision. -/
theorem allOk_plannedOutcomes : AllOk (plannedOutcomes context desired prior) ↔ ∀ path, (plannedAt context desired prior path).isOk := by
  unfold AllOk plannedOutcomes
  rw [List.forall_mem_map]
  refine ⟨fun allOk path => ?_, fun allOk path _ => allOk path⟩
  by_cases inside : path ∈ unionPaths desired prior
  · exact allOk path inside
  · rw [plannedAt_of_notMem inside]
    rfl

namespace PlanTrace

variable {trace : List PlanEvent} {result : Outcome ε PUnit}

/-- Every delivery is what is planned for its own path. -/
theorem planned (traced : PlanTrace context desired prior trace result) {event : PlanEvent} (member : event ∈ trace) :
    plannedAt context desired prior event.path = .ok (some event) :=
  mem_plannedEvents.mp (mem_of_parts (fun _ inside => traced.actions.subset inside)
    (fun _ inside => traced.refreshes.subset inside) member)

/-- No path gets two deliveries. -/
theorem nodup_paths (traced : PlanTrace context desired prior trace result) : (trace.map PlanEvent.path).Nodup := by
  have ordered := pairwise_plannedEvents context desired prior
  have parts := (ordered.imp fun below => ne_of_lt below).perm (perm_parts _) Ne.symm
  rw [List.pairwise_append] at parts
  refine ((perm_parts trace).map _).nodup_iff.mpr (List.pairwise_map.mpr (List.pairwise_append.mpr ⟨?_, ?_, ?_⟩))
  · exact parts.1.sublist (traced.actions.sublist.map _)
  · exact parts.2.1.sublist (traced.refreshes.sublist.map _)
  · exact fun first member second other =>
      parts.2.2 first ((traced.actions.sublist.map _).subset member) second ((traced.refreshes.sublist.map _).subset other)

/-- A complete delivery is the planned events in some order. -/
theorem perm (traced : PlanTrace context desired prior trace result) (complete : result = .ok ⟨⟩) :
    trace.Perm (eventsOf (plannedOutcomes context desired prior)) := by
  obtain ⟨actions, refreshes⟩ := traced.complete complete
  refine (perm_parts trace).trans ?_
  rw [actions, refreshes]
  exact (perm_parts _).symm

end PlanTrace

end Plan

end Gat
