import Gat.Proofs.DesiredRows

/-! # Selection queries are exact

A selection is compiled to a span that may retrieve too much and never too little. The cursor hands out what the
span retrieves, each row once and in path order, and the selection itself decides about every row.
-/

namespace Gat

open AncestorFree

variable {selection : ScopedSelection} {path : GatPath}

/-! ## The span of a selection -/

/-- Text before an ASCII byte of text is text. -/
private theorem valid_take_firstMetaIndex {pattern : Str} (utf8 : Utf8.Valid pattern) {index : ℕ} (found : firstMetaIndex pattern = some index) :
    Utf8.Valid (pattern.take index) := by
  obtain ⟨bound, isMeta, -⟩ := List.findIdx?_eq_some_iff_getElem.mp found
  have split : pattern = pattern.take index ++ pattern[index] :: pattern.drop (index + 1) := by
    rw [← List.drop_eq_getElem_cons, List.take_append_drop]
  have table : ∀ byte ∈ ascii "*?[", Utf8.IsAscii byte := Utf8.forall_mem_of_all (by decide)
  exact (Utf8.Valid.split_ascii (table _ (of_decide_eq_true isMeta)) (split ▸ utf8)).1

/-- A path is the scope joined with its relative part. -/
private theorem text_eq_joinScope {scope : GatPath} {rel : Str} (found : relativePath path.text scope.text = some rel) :
    path.text = joinScope scope.text rel := by
  unfold joinScope
  rcases relativePath_eq_some_iff.mp found with ⟨same, rfl⟩ | split
  · rw [if_pos rfl, same]
  · rw [if_neg, split]
    rintro rfl
    exact (LockFormat.isCanonical_join_iff.mp (split ▸ path.isCanonical)).2.1 rfl

private theorem valid_joinScope (scope : GatPath) {rel : Str} (utf8 : Utf8.Valid rel) : Utf8.Valid (joinScope scope.text rel) := by
  unfold joinScope
  split_ifs
  · exact scope.utf8
  · exact scope.utf8.append (Utf8.Valid.cons_ascii (by decide) utf8)

/-- Joining with a scope keeps beginnings. -/
private theorem joinScope_prefix (scope : Str) {pattern rel : Str} (begins : pattern <+: rel) :
    joinScope scope pattern <+: joinScope scope rel := by
  unfold joinScope
  split_ifs with empty _ relEmpty
  · exact List.prefix_refl _
  · exact List.prefix_append _ _
  · exact absurd (List.prefix_nil.mp (relEmpty ▸ begins)) empty
  · exact (List.prefix_append_right_inj _).mpr ((List.cons_prefix_cons).mpr ⟨rfl, begins⟩)

/-- What an include glob matches below the scope is admitted by its bound at the scope. -/
private theorem admits_includeBound {pattern : GatGlobPattern} {bound : CandidateBound}
    (isBound : includeBound selection.scopePath pattern = some bound) {rel : Str} (inScope : selection.relative path.text = some rel)
    (found : pattern.compiled rel = true) : bound.Admits path.text := by
  have admits := pattern.bounded rel found
  obtain ⟨scope, filter⟩ := selection
  unfold includeBound GatGlobPattern.bound at isBound
  cases scope with
  | root =>
    obtain rfl := Option.some.inj inScope
    cases bounded : globBound pattern.normalized with
    | any => simp [bounded] at isBound
    | exact only =>
      obtain rfl : .exact only = bound := by simpa [bounded, ScopedSelection.scopePath] using isBound
      rwa [bounded] at admits
    | prefixOf begin =>
      obtain rfl : .prefixOf begin = bound := by simpa [bounded, ScopedSelection.scopePath] using isBound
      rwa [bounded] at admits
  | path scope =>
    have joined := text_eq_joinScope inScope
    cases bounded : globBound pattern.normalized with
    | any => simp [bounded] at isBound
    | exact only =>
      obtain rfl : .exact (joinScope scope.text only) = bound := by simpa [bounded, ScopedSelection.scopePath] using isBound
      rw [bounded] at admits
      exact joined.trans (congrArg (joinScope scope.text) admits)
    | prefixOf begin =>
      obtain rfl : .prefixOf (joinScope scope.text begin) = bound := by simpa [bounded, ScopedSelection.scopePath] using isBound
      rw [bounded] at admits
      exact joined ▸ joinScope_prefix scope.text admits

private theorem utf8Text_includeBound {pattern : GatGlobPattern} {bound : CandidateBound} {scope : Option GatPath}
    (isBound : includeBound scope pattern = some bound) : bound.Utf8Text := by
  have utf8Join {rel : Str} (utf8 : Utf8.Valid rel) : Utf8.Valid (scope.elim rel fun scope => joinScope scope.text rel) := by
    cases scope with
    | none => exact utf8
    | some scope => exact valid_joinScope scope utf8
  unfold includeBound GatGlobPattern.bound globBound at isBound
  dsimp only at isBound
  split at isBound
  · cases isBound
  · next only bounded =>
    obtain rfl := Option.some.inj isBound
    split at bounded
    · obtain rfl := GlobBound.exact.inj bounded
      exact utf8Join pattern.utf8
    · cases bounded
    · cases bounded
  · next begin bounded =>
    obtain rfl := Option.some.inj isBound
    split at bounded
    · cases bounded
    · cases bounded
    · next index _ found =>
      obtain rfl := GlobBound.prefixOf.inj bounded
      exact utf8Join (valid_take_firstMetaIndex pattern.utf8 found)

/-- The span retrieves every path that the selection accepts. -/
theorem retrieves_queryForSelection (accepted : selection.matchesStr path.text) :
    (DesiredQuery.queryForSelection selection).span.Retrieves path := by
  obtain ⟨rel, inScope, selects⟩ : ∃ rel, selection.relative path.text = some rel ∧ selection.filter.matchesPath rel := by
    unfold ScopedSelection.matchesStr at accepted
    split at accepted
    · next rel found => exact ⟨rel, found, accepted⟩
    · cases accepted
  have whole : (DesiredQuery.inScope selection.scopePath).span.Retrieves path := by
    obtain ⟨scope, filter⟩ := selection
    cases scope with
    | root => trivial
    | path scope => exact GatPath.under_of_relativePath inScope
  unfold DesiredQuery.queryForSelection
  dsimp only
  split_ifs with noInclude
  · exact whole
  split
  · exact whole
  · next bounds isBounds =>
    have each := Option.mapM_eq_some_iff.mp isBounds
    obtain ⟨pattern, isInclude, found⟩ : ∃ pattern ∈ selection.filter.includes, pattern.compiled rel = true := by
      unfold GlobFilter.matchesPath at selects
      split_ifs at selects with missed
      rw [Bool.and_eq_true, not_and, Bool.not_eq_true'] at missed
      simpa [GlobFilter.anyMatch] using missed (by simpa using noInclude)
    obtain ⟨bound, isBound, found'⟩ := List.exists_of_forall₂ each isInclude
    refine retrieves_spanFromBounds (fun other member => ?_) isBound (admits_includeBound found' inScope found)
    obtain ⟨pattern, -, isOther⟩ := List.exists_of_forall₂ each.flip member
    exact utf8Text_includeBound isOther

theorem wellFormed_queryForSelection (selection : ScopedSelection) : (DesiredQuery.queryForSelection selection).span.WellFormed := by
  have whole (scope : Option GatPath) : (DesiredQuery.inScope scope).span.WellFormed := by cases scope <;> trivial
  unfold DesiredQuery.queryForSelection
  dsimp only
  split_ifs
  · exact whole _
  split
  · exact whole _
  · exact wellFormed_spanFromBounds _

/-- A selection restricts neither the shard nor, by itself, the retrieved rows. -/
private theorem queryForSelection_eq (selection : ScopedSelection) :
    DesiredQuery.queryForSelection selection = ⟨(DesiredQuery.queryForSelection selection).span, none, none⟩ := by
  unfold DesiredQuery.queryForSelection
  dsimp only
  split_ifs
  · rfl
  split <;> rfl

/-- A selection's cursor hands out the retrieved rows that its residual accepts. -/
private theorem desiredRowsOn_eq (table : StateTable) (residual : Option ScopedSelection) {rows : List Entry} (sorted : StrictlySorted rows)
    (mem_iff : ∀ row, row ∈ rows ↔ row ∈ table.desiredRows ∧ (DesiredQuery.queryForSelection selection).span.Retrieves row.path) :
    table.desiredRowsOn ⟨(DesiredQuery.queryForSelection selection).span, none, residual⟩ =
      rows.filter fun row => residual.all fun selection => selection.matchesStr row.path.text :=
  DesiredRows.collect_eq (DesiredQuery.streams_openRows (wellFormed_queryForSelection selection) sorted mem_iff)

/-! ## The main result -/

/-- The span of a selection misses none of its paths, the cursor hands out what the span retrieves in strict path
order, and a streamed selection is exactly the desired rows that it accepts. -/
theorem desired_rows_for_selection (table : StateTable) (selection : ScopedSelection) :
    (∀ path : GatPath, selection.matchesStr path.text → (DesiredQuery.queryForSelection selection).span.Retrieves path) ∧
      (StrictlySorted (table.desiredRowsOn (.queryForSelection selection)) ∧
        ∀ row, row ∈ table.desiredRowsOn (.queryForSelection selection) ↔
          row ∈ table.desiredRows ∧ (DesiredQuery.queryForSelection selection).span.Retrieves row.path) ∧
      StrictlySorted (table.desiredRowsOn (.forSelection selection)) ∧
      table.desiredRowsOn (.forSelection selection) = table.desiredRows.filter fun row => selection.matchesStr row.path.text := by
  classical
  have sorted := table.strictlySorted_desiredRows
  -- the retrieved rows of the table, as a list
  set candidates := table.desiredRows.filter fun row => decide ((DesiredQuery.queryForSelection selection).span.Retrieves row.path)
    with isCandidates
  have mem_candidates (row : Entry) : row ∈ candidates ↔
      row ∈ table.desiredRows ∧ (DesiredQuery.queryForSelection selection).span.Retrieves row.path := by
    rw [isCandidates, List.mem_filter, decide_eq_true_eq]
  have candidatesSorted : StrictlySorted candidates := sorted.filter _
  have retrieved : table.desiredRowsOn (.queryForSelection selection) = candidates := by
    rw [queryForSelection_eq, desiredRowsOn_eq table none candidatesSorted mem_candidates]
    exact List.filter_eq_self.mpr fun _ _ => rfl
  have selected : table.desiredRowsOn (.forSelection selection) =
      table.desiredRows.filter fun row => selection.matchesStr row.path.text := by
    have accepted : table.desiredRowsOn (.forSelection selection) = candidates.filter fun row => selection.matchesStr row.path.text := by
      unfold DesiredQuery.forSelection
      dsimp only
      split_ifs with unrestricted
      · rw [retrieved]
        exact (List.filter_eq_self.mpr fun row _ => selection.matchesStr_of_isUnrestricted unrestricted row.path.text).symm
      · rw [queryForSelection_eq]
        exact desiredRowsOn_eq table (some selection) candidatesSorted mem_candidates
    rw [accepted, isCandidates, List.filter_filter]
    refine List.filter_congr fun row _ => ?_
    rw [Bool.and_eq_left_iff_imp]
    exact fun accepts => decide_eq_true (retrieves_queryForSelection accepts)
  refine ⟨fun path => retrieves_queryForSelection, ⟨?_, ?_⟩, ?_, selected⟩
  · rw [retrieved]
    exact candidatesSorted
  · rw [retrieved]
    exact mem_candidates
  · rw [selected]
    exact sorted.filter _

end Gat
