import Gat.Proofs.DirectoryConflict

/-! # Both conflict searches decide one question

Whether few changed paths are looked up or many are walked beside the existing ones, a pair is returned exactly when a
changed path and a remaining one are related, and what is returned is such a pair.
-/

namespace Gat

open AncestorFree

/-- An ancestor and a path below it, one of them changed and the other one existing. -/
structure Clash (changed existing : List GatPath) (conflict : GatPath × GatPath) : Prop where
  above : IsAncestor Byte.slash conflict.1.text conflict.2.text
  sides : conflict.1 ∈ changed ∧ conflict.2 ∈ existing ∨ conflict.1 ∈ existing ∧ conflict.2 ∈ changed

/-- Some changed path is above or below an existing one. -/
def Related (changed existing : List GatPath) : Prop :=
  ∃ path ∈ changed, ∃ other ∈ existing, IsAncestor Byte.slash path.text other.text ∨ IsAncestor Byte.slash other.text path.text

variable {changed existing : List GatPath}

theorem not_unrelated_iff : ¬Unrelated changed existing ↔ Related changed existing := by
  unfold Unrelated Related
  push Not
  refine exists_congr fun path => and_congr_right fun _ => exists_congr fun other => and_congr_right fun _ => ?_
  tauto

theorem isSome_iff_related {found : Option (GatPath × GatPath)} (none_iff : found = none ↔ Unrelated changed existing) :
    found.isSome ↔ Related changed existing := by
  rw [← not_unrelated_iff, ← none_iff, Option.isSome_iff_ne_none]

/-! ## What the walk reports -/

variable (changed existing) in
/-- Every open path is one of its side. -/
def FromSides (opened : OpenPaths) : Prop :=
  ∀ entry ∈ opened, entry.2 = true ∧ entry.1 ∈ changed ∨ entry.2 = false ∧ entry.1 ∈ existing

/-- One step reports a pair of both sides or opens a path of its own. -/
theorem mergeWalkCheckAndOpen_fromSides {opened : OpenPaths} (sides : FromSides changed existing opened) {path : GatPath} {isChanged : Bool}
    (own : isChanged = true ∧ path ∈ changed ∨ isChanged = false ∧ path ∈ existing) :
    (∀ conflict, mergeWalkCheckAndOpen opened path isChanged = .error conflict → Clash changed existing conflict) ∧
      ∀ next, mergeWalkCheckAndOpen opened path isChanged = .ok next → FromSides changed existing next := by
  unfold mergeWalkCheckAndOpen
  dsimp only
  split
  · next other found =>
    refine ⟨?_, nofun⟩
    rintro conflict ⟨⟩
    have member := sides other (List.mem_of_mem_filter (List.mem_of_find?_eq_some found))
    have isOther := List.find?_some found
    simp only [decide_eq_true_eq] at isOther
    refine ⟨isDirectoryPrefix_iff.mp isOther.2, ?_⟩
    rcases own with ⟨rfl, isPath⟩ | ⟨rfl, isPath⟩ <;> rcases member with ⟨side, isOwn⟩ | ⟨side, isOwn⟩
    · exact absurd side isOther.1
    · exact Or.inr ⟨isOwn, isPath⟩
    · exact Or.inl ⟨isOwn, isPath⟩
    · exact absurd side isOther.1
  · refine ⟨nofun, ?_⟩
    rintro next ⟨⟩
    intro entry member
    rcases List.mem_append.mp member with before | single
    · exact sides entry (List.mem_of_mem_filter before)
    · rw [List.mem_singleton.mp single]
      exact own

theorem walkExisting_fromSides {path : GatPath} {pending : List GatPath} {opened : OpenPaths} (sides : FromSides changed existing opened)
    (listed : pending ⊆ existing) :
    (∀ conflict, walkExisting path opened pending = .error conflict → Clash changed existing conflict) ∧
      ∀ next rest, walkExisting path opened pending = .ok (next, rest) → FromSides changed existing next ∧ rest ⊆ existing := by
  induction pending generalizing opened with
  | nil =>
    refine ⟨by rintro _ ⟨⟩, ?_⟩
    rintro next rest ⟨⟩
    exact ⟨sides, listed⟩
  | cons first pending ih =>
    rw [walkExisting]
    split_ifs with before
    · have own : false = true ∧ first ∈ changed ∨ false = false ∧ first ∈ existing := Or.inr ⟨rfl, listed List.mem_cons_self⟩
      have step := mergeWalkCheckAndOpen_fromSides sides own
      cases stepped : mergeWalkCheckAndOpen opened first false with
      | error conflict =>
        refine ⟨?_, by rintro _ _ ⟨⟩⟩
        rintro other ⟨⟩
        exact step.1 conflict stepped
      | ok next => exact ih (step.2 next stepped) (List.subset_of_cons_subset listed)
    · refine ⟨by rintro _ ⟨⟩, ?_⟩
      rintro next rest ⟨⟩
      exact ⟨sides, listed⟩

theorem walkChanged_fromSides {pending paths : List GatPath} {opened : OpenPaths} (sides : FromSides changed existing opened)
    (listed : pending ⊆ existing) (isChanged : paths ⊆ changed) :
    (∀ conflict, walkChanged opened pending paths = .error conflict → Clash changed existing conflict) ∧
      ∀ next rest, walkChanged opened pending paths = .ok (next, rest) → FromSides changed existing next ∧ rest ⊆ existing := by
  induction paths generalizing opened pending with
  | nil =>
    refine ⟨by rintro _ ⟨⟩, ?_⟩
    rintro next rest ⟨⟩
    exact ⟨sides, listed⟩
  | cons path paths ih =>
    rw [walkChanged]
    have walk := @walkExisting_fromSides changed existing path pending opened sides listed
    cases walked : walkExisting path opened pending with
    | error conflict =>
      refine ⟨?_, by rintro _ _ ⟨⟩⟩
      rintro other ⟨⟩
      exact walk.1 conflict walked
    | ok passed =>
      obtain ⟨between, rest⟩ := passed
      obtain ⟨sides, listed⟩ := walk.2 between rest walked
      have own : true = true ∧ path ∈ changed ∨ true = false ∧ path ∈ existing := Or.inl ⟨rfl, isChanged List.mem_cons_self⟩
      have step := mergeWalkCheckAndOpen_fromSides sides own
      cases stepped : mergeWalkCheckAndOpen between path true with
      | error conflict =>
        refine ⟨?_, ?_⟩
        · intro other stopped
          change (mergeWalkCheckAndOpen between path true >>= fun opened => walkChanged opened rest paths) = _ at stopped
          rw [stepped] at stopped
          cases stopped
          exact step.1 conflict stepped
        · intro next remaining done
          change (mergeWalkCheckAndOpen between path true >>= fun opened => walkChanged opened rest paths) = _ at done
          rw [stepped] at done
          cases done
      | ok next =>
        change (∀ _, (mergeWalkCheckAndOpen between path true >>= fun opened => walkChanged opened rest paths) = _ → _) ∧
          ∀ _ _, (mergeWalkCheckAndOpen between path true >>= fun opened => walkChanged opened rest paths) = _ → _
        rw [stepped]
        exact ih (step.2 next stepped) listed (List.subset_of_cons_subset isChanged)

theorem drainExisting_fromSides {pending : List GatPath} {opened : OpenPaths} (sides : FromSides changed existing opened)
    (listed : pending ⊆ existing) {conflict : GatPath × GatPath} (stopped : drainExisting opened pending = .error conflict) :
    Clash changed existing conflict := by
  induction pending generalizing opened with
  | nil => cases stopped
  | cons first pending ih =>
    rw [drainExisting] at stopped
    split_ifs at stopped with inRange
    have own : false = true ∧ first ∈ changed ∨ false = false ∧ first ∈ existing := Or.inr ⟨rfl, listed List.mem_cons_self⟩
    have step := mergeWalkCheckAndOpen_fromSides sides own
    cases stepped : mergeWalkCheckAndOpen opened first false with
    | error other =>
      rw [stepped] at stopped
      cases stopped
      exact step.1 _ stepped
    | ok next =>
      rw [stepped] at stopped
      exact ih (step.2 next stepped) (List.subset_of_cons_subset listed) stopped

/-! ## Both searches -/

namespace StateTable

variable {table : StateTable} {exclude : Finset LockShardId}

theorem findDirectoryConflictBulk_clash {paths : List GatPath} {conflict : GatPath × GatPath}
    (found : table.findDirectoryConflictBulk paths exclude = some conflict) : Clash paths (table.remaining exclude) conflict := by
  have closed : FromSides paths (table.remaining exclude) [] := fun _ member => absurd member List.not_mem_nil
  have walk := walkChanged_fromSides closed (List.Subset.refl _) (List.Subset.refl paths)
  cases walked : walkChanged [] (table.remaining exclude) paths with
  | error other =>
    cases (findDirectoryConflictBulk_of_stopped walked).symm.trans found
    exact walk.1 _ walked
  | ok passed =>
    obtain ⟨opened, rest⟩ := passed
    obtain ⟨sides, listed⟩ := walk.2 opened rest walked
    obtain ⟨ifDone, ifStopped⟩ := findDirectoryConflictBulk_of_walked walked
    cases drained : drainExisting opened rest with
    | error other =>
      cases (ifStopped other drained).symm.trans found
      exact drainExisting_fromSides sides listed drained
    | ok _ => cases (ifDone drained).symm.trans found

/-- What is recorded for an ancestor is a path below it. -/
theorem mem_of_get?_foldl_orInsert {pairs : List (Str × GatPath)} {held : SortedMap Str GatPath} {key : Str} {value : GatPath}
    (found : (pairs.foldl (fun (found : SortedMap Str GatPath) pair => found.alter pair.1 fun value => some (value.getD pair.2)) held).get?
      key = some value) : held.get? key = some value ∨ (key, value) ∈ pairs := by
  induction pairs generalizing held with
  | nil => exact Or.inl found
  | cons pair pairs ih =>
    rcases ih found with before | later
    · rw [SortedMap.get?_alter] at before
      split_ifs at before with same
      · cases known : held.get? pair.1 with
        | none =>
          rw [known] at before
          cases before
          exact Or.inr (same ▸ List.mem_cons_self)
        | some other =>
          rw [known] at before
          cases before
          exact Or.inl (same ▸ known)
      · exact Or.inl before
    · exact Or.inr (List.mem_cons_of_mem _ later)

theorem findDirectoryConflictSparse_clash {paths : List GatPath} {conflict : GatPath × GatPath}
    (found : table.findDirectoryConflictSparse paths exclude = some conflict) : Clash paths (table.remaining exclude) conflict := by
  unfold findDirectoryConflictSparse at found
  dsimp only at found
  generalize isAncestors : List.foldl _ _ _ = ancestors at found
  split at found
  · next isConflict =>
    cases found
    obtain ⟨path, isChanged, found⟩ := List.exists_of_findSome?_eq_some isConflict
    obtain ⟨row, isRow, rfl⟩ := Option.map_eq_some_iff.mp found
    have inRange := List.find?_some isRow
    simp only [decide_eq_true_eq] at inRange
    obtain ⟨oid, desired⟩ := mem_desiredOwners.mp (List.mem_of_find?_eq_some isRow)
    exact ⟨GatPath.isAncestor_iff_descendantRange.mpr ⟨inRange.1, inRange.2.1⟩,
      Or.inl ⟨isChanged, mem_remaining.mpr ⟨oid, row.2, desired, inRange.2.2⟩⟩⟩
  · obtain ⟨chunk, -, found⟩ := List.exists_of_findSome?_eq_some found
    obtain ⟨row, isRow, found⟩ := List.exists_of_findSome?_eq_some found
    split_ifs at found with kept
    obtain ⟨path, isPath, rfl⟩ := Option.map_eq_some_iff.mp found
    obtain ⟨oid, desired⟩ := mem_desiredOwners.mp isRow
    rw [← isAncestors] at isPath
    rcases mem_of_get?_foldl_orInsert isPath with before | listed
    · cases before
    · obtain ⟨changed, isChanged, below⟩ := List.mem_flatMap.mp listed
      obtain ⟨ancestor, isAncestor, same⟩ := List.mem_map.mp below
      cases same
      exact ⟨mem_pathAncestors.mp isAncestor, Or.inr ⟨mem_remaining.mpr ⟨oid, row.2, desired, kept.2⟩, isChanged⟩⟩

end StateTable

/-- For every state, every changed paths and every excluded shards, the sparse and the bulk search return a pair exactly when a changed
path and a desired path outside these shards are related, and only such a pair. The number of paths, which chooses between them,
does not matter. -/
theorem directory_conflict_searches_agree (table : StateTable) (paths : List GatPath) (exclude : Finset LockShardId) :
    let sorted := paths.toFinset.sort
    ((table.findDirectoryConflictSparse sorted exclude).isSome ↔ Related paths (table.remaining exclude)) ∧
      ((table.findDirectoryConflictBulk sorted exclude).isSome ↔ Related paths (table.remaining exclude)) ∧
      ((table.findDirectoryConflict paths exclude).isSome ↔ Related paths (table.remaining exclude)) ∧
      ∀ conflict, table.findDirectoryConflictSparse sorted exclude = some conflict ∨ table.findDirectoryConflictBulk sorted exclude = some conflict ∨
        table.findDirectoryConflict paths exclude = some conflict → Clash paths (table.remaining exclude) conflict := by
  intro sorted
  have members : ∀ path, path ∈ sorted ↔ path ∈ paths := fun path => by simp only [sorted, Finset.mem_sort, List.mem_toFinset]
  have same : Unrelated sorted (table.remaining exclude) ↔ Unrelated paths (table.remaining exclude) := by
    simp only [Unrelated, members]
  have widen : ∀ {conflict}, Clash sorted (table.remaining exclude) conflict → Clash paths (table.remaining exclude) conflict := by
    intro conflict clash
    exact ⟨clash.above, by simpa only [members] using clash.sides⟩
  have ascending : sorted.Pairwise (· < ·) := paths.toFinset.sortedLT_sort.pairwise
  refine ⟨isSome_iff_related ?_, isSome_iff_related ?_, isSome_iff_related ?_, ?_⟩
  · exact StateTable.findDirectoryConflictSparse_eq_none_iff.trans same
  · exact (StateTable.findDirectoryConflictBulk_eq_none_iff ascending).trans same
  · exact StateTable.findDirectoryConflict_eq_none_iff
  · have sparse : ∀ conflict, table.findDirectoryConflictSparse sorted exclude = some conflict → Clash paths (table.remaining exclude) conflict :=
      fun conflict found => widen (StateTable.findDirectoryConflictSparse_clash found)
    have bulk : ∀ conflict, table.findDirectoryConflictBulk sorted exclude = some conflict → Clash paths (table.remaining exclude) conflict :=
      fun conflict found => widen (StateTable.findDirectoryConflictBulk_clash found)
    rintro conflict (found | found | found)
    · exact sparse conflict found
    · exact bulk conflict found
    · unfold StateTable.findDirectoryConflict at found
      dsimp only at found
      split_ifs at found with empty few
      · exact sparse conflict found
      · exact bulk conflict found

end Gat
