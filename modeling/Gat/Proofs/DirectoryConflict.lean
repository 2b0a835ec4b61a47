import Gat.Model.DesiredRefresh
import Gat.Proofs.LexicalTree
import Gat.Proofs.LockMerge
import Gat.Proofs.SyncPlan

/-! # The search for directory conflicts

Few changed paths are looked up one by one, many are walked together with the existing paths. Both find an ancestor
pair exactly when there is one between the two sides. The walk keeps every earlier path that a later one may still
be below.
-/

namespace Gat

open AncestorFree

/-- No changed path is above or below an existing one. -/
def Unrelated (changed existing : List GatPath) : Prop :=
  ∀ path ∈ changed, ∀ other ∈ existing,
    ¬IsAncestor Byte.slash path.text other.text ∧ ¬IsAncestor Byte.slash other.text path.text

theorem exceedsDirectoryUpperBound_eq_false_iff {path ancestor : Str} :
    exceedsDirectoryUpperBound path ancestor = false ↔ path < ancestor ++ ascii "0" := by
  induction path generalizing ancestor with
  | nil => cases ancestor <;> exact iff_of_true rfl List.Lex.nil
  | cons byte path ih =>
    cases ancestor with
    | nil =>
      change decide (0x30 ≤ byte) = false ↔ byte :: path < [(0x30 : UInt8)]
      rw [decide_eq_false_iff_not, not_le, List.cons_lt_cons_iff]
      exact ⟨Or.inl, fun below => below.resolve_right fun same => List.not_lt_nil _ same.2⟩
    | cons other ancestor =>
      rw [exceedsDirectoryUpperBound, List.cons_append, List.cons_lt_cons_iff]
      rcases lt_trichotomy byte other with less | rfl | greater
      · rw [if_pos less]
        exact iff_of_true rfl (Or.inl less)
      · rw [if_neg (lt_irrefl _), if_neg (lt_irrefl _), ih]
        simp
      · rw [if_neg (lt_asymm greater), if_pos greater]
        refine iff_of_false (by simp) ?_
        rintro (below | ⟨same, -⟩)
        · exact lt_asymm greater below
        · exact greater.ne same.symm

/-- A path that a later path is below has not been passed. -/
theorem not_exceeds_of_isAncestor {ancestor path later : GatPath} (before : path ≤ later)
    (above : IsAncestor Byte.slash ancestor.text later.text) :
    exceedsDirectoryUpperBound path.text ancestor.text = false := by
  rw [exceedsDirectoryUpperBound_eq_false_iff]
  exact (GatPath.le_iff.mp before).trans_lt (GatPath.isAncestor_iff_descendantRange.mp above).2

/-! ## The merge walk -/

/-- No path is above one from the other side. -/
def SidesApart (walked : List (GatPath × Bool)) : Prop :=
  ∀ first ∈ walked, ∀ second ∈ walked, first.2 ≠ second.2 → ¬IsAncestor Byte.slash first.1.text second.1.text

theorem SidesApart.subset {walked larger : List (GatPath × Bool)} (apart : SidesApart larger) (included : walked ⊆ larger) :
    SidesApart walked :=
  fun first isFirst second isSecond => apart first (included isFirst) second (included isSecond)

/-- The walk has passed some paths and keeps those that a later path can be below. -/
structure Walked (walked : List (GatPath × Bool)) (opened : OpenPaths) : Prop where
  passed : opened ⊆ walked
  kept : ∀ entry ∈ walked, ∀ path, (∀ other ∈ walked, other.1 ≤ path) → IsAncestor Byte.slash entry.1.text path.text → entry ∈ opened
  apart : SidesApart walked

theorem Walked.nil : Walked [] [] := ⟨List.Subset.refl _, fun _ member => (nomatch member), fun _ member => (nomatch member)⟩

variable {walked : List (GatPath × Bool)} {opened : OpenPaths} {path : GatPath}

/-- One step of the walk reports a conflict of the paths passed or passes the path. -/
theorem mergeWalkCheckAndOpen_cases (state : Walked walked opened) (last : ∀ other ∈ walked, other.1 ≤ path) (isChanged : Bool) :
    (∃ conflict, mergeWalkCheckAndOpen opened path isChanged = .error conflict ∧ ¬SidesApart (walked ++ [(path, isChanged)])) ∨
      ∃ next, mergeWalkCheckAndOpen opened path isChanged = .ok next ∧ Walked (walked ++ [(path, isChanged)]) next := by
  have here : (path, isChanged) ∈ walked ++ [(path, isChanged)] := by simp
  unfold mergeWalkCheckAndOpen
  dsimp only
  split
  · next other found =>
    have member := state.passed (List.mem_of_mem_filter (List.mem_of_find?_eq_some found))
    have isOther := List.find?_some found
    simp only [decide_eq_true_eq] at isOther
    obtain ⟨different, above⟩ := isOther
    refine Or.inl ⟨_, rfl, fun apart => ?_⟩
    exact apart other (List.mem_append_left _ member) _ here different (isDirectoryPrefix_iff.mp above)
  · next nothing =>
    refine Or.inr ⟨_, rfl, ?_, ?_, ?_⟩
    · exact List.append_subset.mpr
        ⟨fun entry kept => List.mem_append_left _ (state.passed (List.mem_of_mem_filter kept)), List.subset_append_right _ _⟩
    · intro entry member later above ancestry
      rcases List.mem_append.mp member with member | single
      · have open? := state.kept entry member later (fun other listed => above other (List.mem_append_left _ listed)) ancestry
        refine List.mem_append_left _ (List.mem_filter.mpr ⟨open?, ?_⟩)
        rw [not_exceeds_of_isAncestor (above _ here) ancestry]
        rfl
      · exact List.mem_append_right _ single
    · intro first isFirst second isSecond different ancestry
      rcases List.mem_append.mp isSecond with isSecond | single
      · rcases List.mem_append.mp isFirst with isFirst | single
        · exact state.apart first isFirst second isSecond different ancestry
        · obtain rfl := List.mem_singleton.mp single
          exact lt_irrefl _ (ancestry.lt.trans_le (GatPath.le_iff.mp (last second isSecond)))
      · obtain rfl := List.mem_singleton.mp single
        rcases List.mem_append.mp isFirst with isFirst | single
        · have open? := state.kept first isFirst path last ancestry
          have none := List.find?_eq_none.mp nothing first (List.mem_filter.mpr ⟨open?, by
            rw [not_exceeds_of_isAncestor le_rfl ancestry]; rfl⟩)
          exact none (decide_eq_true ⟨different, isDirectoryPrefix_iff.mpr ancestry⟩)
        · exact different (congrArg Prod.snd (List.mem_singleton.mp single))

/-- Every path that is walked, marked with its side. -/
private def marked (isChanged : Bool) (paths : List GatPath) : List (GatPath × Bool) := paths.map fun path => (path, isChanged)

private theorem mem_marked {isChanged : Bool} {paths : List GatPath} {entry : GatPath × Bool} :
    entry ∈ marked isChanged paths ↔ entry.1 ∈ paths ∧ entry.2 = isChanged := by
  rw [marked, List.mem_map]
  constructor
  · rintro ⟨path, member, rfl⟩
    exact ⟨member, rfl⟩
  · rintro ⟨member, rfl⟩
    exact ⟨entry.1, member, rfl⟩

variable (path) in
/-- Existing paths are passed up to a changed one. -/
theorem walkExisting_cases {pending : List GatPath} (state : Walked walked opened) (sorted : pending.Pairwise (· < ·))
    (last : ∀ other ∈ walked, ∀ existing ∈ pending, other.1 ≤ existing) :
    (∃ conflict, walkExisting path opened pending = .error conflict ∧ ¬SidesApart (walked ++ marked false pending)) ∨
      ∃ front rest next, pending = front ++ rest ∧ walkExisting path opened pending = .ok (next, rest) ∧
        Walked (walked ++ marked false front) next ∧ (∀ existing ∈ front, existing < path) ∧ ∀ existing ∈ rest, path ≤ existing := by
  induction pending generalizing walked opened with
  | nil => exact Or.inr ⟨[], [], opened, rfl, rfl, by rwa [marked, List.map_nil, List.append_nil], by simp, by simp⟩
  | cons existing pending ih =>
    obtain ⟨smallest, sorted⟩ := List.pairwise_cons.mp sorted
    rw [walkExisting]
    by_cases before : existing.text < path.text
    · rw [if_pos before]
      rcases mergeWalkCheckAndOpen_cases state (fun other member => last other member existing List.mem_cons_self) false with
        ⟨conflict, stopped, clash⟩ | ⟨next, stepped, state'⟩
      · rw [stopped]
        refine Or.inl ⟨conflict, rfl, fun apart => clash (apart.subset ?_)⟩
        simp [marked]
      · rw [stepped]
        have last' : ∀ other ∈ walked ++ [(existing, false)], ∀ later ∈ pending, other.1 ≤ later := by
          intro other member later isLater
          rcases List.mem_append.mp member with member | single
          · exact last other member later (List.mem_cons_of_mem _ isLater)
          · rw [List.mem_singleton.mp single]
            exact (smallest later isLater).le
        rcases ih state' sorted last' with ⟨conflict, stopped, clash⟩ | ⟨front, rest, final, rfl, walked', stepState, below, above⟩
        · exact Or.inl ⟨conflict, stopped, by simpa [marked] using clash⟩
        · refine Or.inr ⟨existing :: front, rest, final, rfl, walked', by simpa [marked] using stepState, ?_, above⟩
          exact List.forall_mem_cons.mpr ⟨GatPath.lt_iff.mpr before, below⟩
    · rw [if_neg before]
      have above : path ≤ existing := GatPath.le_iff.mpr (not_lt.mp before)
      refine Or.inr ⟨[], existing :: pending, opened, rfl, rfl, by rwa [marked, List.map_nil, List.append_nil], by simp, ?_⟩
      exact List.forall_mem_cons.mpr ⟨above, fun later member => above.trans (smallest later member).le⟩

/-- Changed paths are passed with the existing ones before the last of them. -/
theorem walkChanged_cases {pending paths : List GatPath} (state : Walked walked opened) (sorted : pending.Pairwise (· < ·))
    (changedSorted : paths.Pairwise (· < ·)) (last : ∀ other ∈ walked, ∀ existing ∈ pending, other.1 ≤ existing)
    (lastChanged : ∀ other ∈ walked, ∀ changed ∈ paths, other.1 ≤ changed) :
    (∃ conflict, walkChanged opened pending paths = .error conflict ∧
        ¬SidesApart (walked ++ marked false pending ++ marked true paths)) ∨
      ∃ front rest next state', pending = front ++ rest ∧ walkChanged opened pending paths = .ok (next, rest) ∧
        Walked state' next ∧ (∀ entry, entry ∈ state' ↔ entry ∈ walked ++ marked false front ++ marked true paths) ∧
        ∀ other ∈ state', ∀ existing ∈ rest, other.1 ≤ existing := by
  induction paths generalizing walked opened pending with
  | nil => exact Or.inr ⟨[], pending, opened, walked, rfl, rfl, state, by simp [marked], last⟩
  | cons path paths ih =>
    obtain ⟨smallest, changedSorted⟩ := List.pairwise_cons.mp changedSorted
    rw [walkChanged]
    rcases walkExisting_cases path state sorted last with
      ⟨conflict, stopped, clash⟩ | ⟨front, rest, next, rfl, passed, state', below, above⟩
    · rw [stopped]
      exact Or.inl ⟨conflict, rfl, fun apart => clash (apart.subset (List.subset_append_left _ _))⟩
    rw [passed]
    have before : ∀ other ∈ walked ++ marked false front, other.1 ≤ path := by
      intro other member
      rcases List.mem_append.mp member with member | inFront
      · exact lastChanged other member path List.mem_cons_self
      · obtain ⟨existing, isExisting, rfl⟩ := List.mem_map.mp inFront
        exact (below existing isExisting).le
    change (∃ conflict, (mergeWalkCheckAndOpen next path true >>= fun opened => walkChanged opened rest paths) = _ ∧ _) ∨
      ∃ _ _ _ _, _ ∧ (mergeWalkCheckAndOpen next path true >>= fun opened => walkChanged opened rest paths) = _ ∧ _
    rcases mergeWalkCheckAndOpen_cases state' before true with ⟨conflict, stopped, clash⟩ | ⟨opened', stepped, stepState⟩
    · rw [stopped]
      refine Or.inl ⟨conflict, rfl, fun apart => clash (apart.subset ?_)⟩
      intro entry
      simp only [List.mem_append, mem_marked, List.mem_cons, List.not_mem_nil, Prod.ext_iff]
      tauto
    · rw [stepped]
      have last' : ∀ other ∈ walked ++ marked false front ++ [(path, true)], ∀ existing ∈ rest, other.1 ≤ existing := by
        intro other member existing isExisting
        rcases List.mem_append.mp member with member | single
        · exact (before other member).trans (above existing isExisting)
        · rw [List.mem_singleton.mp single]
          exact above existing isExisting
      have lastChanged' : ∀ other ∈ walked ++ marked false front ++ [(path, true)], ∀ changed ∈ paths, other.1 ≤ changed := by
        intro other member changed isChanged
        rcases List.mem_append.mp member with member | single
        · exact (before other member).trans (smallest changed isChanged).le
        · rw [List.mem_singleton.mp single]
          exact (smallest changed isChanged).le
      rcases ih stepState (List.pairwise_append.mp sorted).2.1 changedSorted last' lastChanged' with
        ⟨conflict, stopped, clash⟩ | ⟨front', rest', final, walked', rfl, done, restState, members, ends⟩
      · refine Or.inl ⟨conflict, stopped, fun apart => clash (apart.subset ?_)⟩
        intro entry
        simp only [List.mem_append, mem_marked, List.mem_cons, List.not_mem_nil, Prod.ext_iff]
        tauto
      · refine Or.inr ⟨front ++ front', rest', final, walked', by simp, done, restState, fun entry => ?_, ends⟩
        simp only [members, List.mem_append, mem_marked, List.mem_cons, List.not_mem_nil, Prod.ext_iff]
        tauto

/-- The rest of the existing paths is walked as far as a changed path can be above one. -/
theorem drainExisting_cases {pending : List GatPath} (state : Walked walked opened) (sorted : pending.Pairwise (· < ·))
    (last : ∀ other ∈ walked, ∀ existing ∈ pending, other.1 ≤ existing) :
    (∃ conflict, drainExisting opened pending = .error conflict ∧ ¬SidesApart (walked ++ marked false pending)) ∨
      drainExisting opened pending = .ok () ∧
        ∀ entry ∈ walked, entry.2 = true → ∀ existing ∈ pending, ¬IsAncestor Byte.slash entry.1.text existing.text := by
  induction pending generalizing walked opened with
  | nil => exact Or.inr ⟨rfl, by simp⟩
  | cons existing pending ih =>
    obtain ⟨smallest, sorted⟩ := List.pairwise_cons.mp sorted
    have before := fun other member => last other member existing List.mem_cons_self
    rw [drainExisting]
    split_ifs with inRange
    · rcases mergeWalkCheckAndOpen_cases state before false with ⟨conflict, stopped, clash⟩ | ⟨next, stepped, state'⟩
      · rw [stopped]
        refine Or.inl ⟨conflict, rfl, fun apart => clash (apart.subset ?_)⟩
        simp [marked]
      · rw [stepped]
        have last' : ∀ other ∈ walked ++ [(existing, false)], ∀ later ∈ pending, other.1 ≤ later := by
          intro other member later isLater
          rcases List.mem_append.mp member with member | single
          · exact last other member later (List.mem_cons_of_mem _ isLater)
          · rw [List.mem_singleton.mp single]
            exact (smallest later isLater).le
        rcases ih state' sorted last' with ⟨conflict, stopped, clash⟩ | ⟨done, apart⟩
        · exact Or.inl ⟨conflict, stopped, by simpa [marked] using clash⟩
        · refine Or.inr ⟨done, fun entry member isChanged => List.forall_mem_cons.mpr ⟨?_, ?_⟩⟩
          · exact state'.apart entry (List.mem_append_left _ member) (existing, false) (by simp) (by simp [isChanged])
          · exact apart entry (List.mem_append_left _ member) isChanged
    · refine Or.inr ⟨rfl, fun entry member isChanged later isLater ancestry => inRange ?_⟩
      have open? := state.kept entry member later (fun other listed => last other listed later isLater) ancestry
      have reached : existing ≤ later := by
        rcases List.mem_cons.mp isLater with rfl | isLater
        · exact le_rfl
        · exact (smallest later isLater).le
      refine List.any_eq_true.mpr ⟨entry, open?, ?_⟩
      rw [isChanged, not_exceeds_of_isAncestor reached ancestry]
      rfl

/-! ## The two searches -/

theorem sidesApart_iff {changed existing : List GatPath} :
    SidesApart (marked false existing ++ marked true changed) ↔ Unrelated changed existing := by
  constructor
  · intro apart path isChanged other isExisting
    have first : (path, true) ∈ marked false existing ++ marked true changed :=
      List.mem_append_right _ (mem_marked.mpr ⟨isChanged, rfl⟩)
    have second : (other, false) ∈ marked false existing ++ marked true changed :=
      List.mem_append_left _ (mem_marked.mpr ⟨isExisting, rfl⟩)
    exact ⟨apart _ first _ second (by simp), apart _ second _ first (by simp)⟩
  · rintro unrelated ⟨first, side⟩ isFirst ⟨second, otherSide⟩ isSecond different
    simp only [List.mem_append, mem_marked] at isFirst isSecond
    rcases isFirst with ⟨isFirst, rfl⟩ | ⟨isFirst, rfl⟩ <;> rcases isSecond with ⟨isSecond, rfl⟩ | ⟨isSecond, rfl⟩
    · exact absurd rfl different
    · exact (unrelated second isSecond first isFirst).2
    · exact (unrelated first isFirst second isSecond).1
    · exact absurd rfl different

theorem mem_pathAncestors {ancestor path : Str} : ancestor ∈ pathAncestors path ↔ IsAncestor Byte.slash ancestor path := by
  rw [pathAncestors, List.mem_filterMap, isAncestor_iff]
  constructor
  · rintro ⟨i, inside, found⟩
    split_ifs at found with letter
    obtain rfl := Option.some.inj found
    have bound := List.mem_range.mp inside
    exact ⟨List.take_prefix _ _, by rw [List.length_take, min_eq_left bound.le]; exact letter⟩
  · rintro ⟨below, letter⟩
    obtain ⟨bound, -⟩ := List.getElem?_eq_some_iff.mp letter
    exact ⟨ancestor.length, List.mem_range.mpr bound, by rw [if_pos letter, ← List.prefix_iff_eq_take.mp below]⟩

namespace StateTable

variable {table : StateTable} {exclude : Finset LockShardId}

theorem mem_desiredOwners {row : GatPath × LockShardId} :
    row ∈ table.desiredOwners ↔ ∃ oid, table.desiredAt row.1 = some (oid, row.2) := by
  rw [desiredOwners, List.mem_filterMap]
  unfold desiredAt
  constructor
  · rintro ⟨entry, member, found⟩
    obtain ⟨held, desired, rfl⟩ := Option.map_eq_some_iff.mp found
    exact ⟨held.1, by rw [SortedMap.get?_of_mem member]; exact desired⟩
  · rintro ⟨oid, found⟩
    obtain ⟨entry, isRow, desired⟩ := Option.bind_eq_some_iff.mp found
    exact ⟨(row.1, entry), SortedMap.get?_eq_some_iff.mp isRow, by rw [desired]; rfl⟩

theorem sorted_desiredOwners (table : StateTable) : table.desiredOwners.Pairwise fun first second => first.1 < second.1 := by
  refine table.sorted.filterMap _ fun first second before row found other otherFound => ?_
  obtain ⟨_, -, rfl⟩ := Option.map_eq_some_iff.mp found
  obtain ⟨_, -, rfl⟩ := Option.map_eq_some_iff.mp otherFound
  exact before

/-- The desired paths outside the excluded shards. -/
def remaining (table : StateTable) (exclude : Finset LockShardId) : List GatPath :=
  (table.desiredOwners.filter fun row => row.2 ∉ exclude).map Prod.fst

theorem mem_remaining {path : GatPath} :
    path ∈ table.remaining exclude ↔ ∃ oid shard, table.desiredAt path = some (oid, shard) ∧ shard ∉ exclude := by
  rw [remaining, List.mem_map]
  constructor
  · rintro ⟨row, kept, rfl⟩
    obtain ⟨member, outside⟩ := List.mem_filter.mp kept
    obtain ⟨oid, found⟩ := mem_desiredOwners.mp member
    exact ⟨oid, row.2, found, of_decide_eq_true outside⟩
  · rintro ⟨oid, shard, found, outside⟩
    exact ⟨(path, shard), List.mem_filter.mpr ⟨mem_desiredOwners.mpr ⟨oid, found⟩, decide_eq_true outside⟩, rfl⟩

/-- A conflict that the walk over the changed paths meets is the one found. -/
theorem findDirectoryConflictBulk_of_stopped {paths : List GatPath} {conflict : GatPath × GatPath}
    (stopped : walkChanged [] (table.remaining exclude) paths = .error conflict) :
    table.findDirectoryConflictBulk paths exclude = some conflict := by
  rw [StateTable.remaining] at stopped
  simp only [findDirectoryConflictBulk, stopped]
  rfl

/-- After the changed paths the rest of the existing ones decides. -/
theorem findDirectoryConflictBulk_of_walked {paths : List GatPath} {opened : OpenPaths} {rest : List GatPath}
    (passed : walkChanged [] (table.remaining exclude) paths = .ok (opened, rest)) :
    (drainExisting opened rest = .ok () → table.findDirectoryConflictBulk paths exclude = none) ∧
      ∀ conflict, drainExisting opened rest = .error conflict → table.findDirectoryConflictBulk paths exclude = some conflict := by
  rw [StateTable.remaining] at passed
  constructor
  · intro done
    simp only [findDirectoryConflictBulk, passed, bind, Except.bind, done]
  · intro conflict stopped
    simp only [findDirectoryConflictBulk, passed, bind, Except.bind, stopped]

/-- The walk finds a conflict exactly when the sides are related. -/
theorem findDirectoryConflictBulk_eq_none_iff {paths : List GatPath} (sorted : paths.Pairwise (· < ·)) :
    table.findDirectoryConflictBulk paths exclude = none ↔ Unrelated paths (table.remaining exclude) := by
  have existingSorted : (table.remaining exclude).Pairwise (· < ·) :=
    List.pairwise_map.mpr (table.sorted_desiredOwners.filter _)
  have nothing {α : Type} {holds : α → Prop} : ∀ entry ∈ ([] : List α), holds entry := fun _ member => absurd member List.not_mem_nil
  rw [← sidesApart_iff]
  rcases walkChanged_cases Walked.nil existingSorted sorted nothing nothing with
    ⟨conflict, stopped, clash⟩ | ⟨front, rest, next, walked, split, passed, state, members, last⟩
  · rw [findDirectoryConflictBulk_of_stopped stopped]
    exact iff_of_false (Option.some_ne_none conflict) clash
  obtain ⟨ifDone, ifStopped⟩ := findDirectoryConflictBulk_of_walked passed
  rw [split] at existingSorted ⊢
  rcases drainExisting_cases state (List.pairwise_append.mp existingSorted).2.1 last with ⟨conflict, stopped, clash⟩ | ⟨done, apart⟩
  · rw [ifStopped conflict stopped]
    refine iff_of_false (Option.some_ne_none conflict) fun apart => clash (apart.subset fun entry => ?_)
    simp only [members, List.mem_append, mem_marked, List.not_mem_nil]
    tauto
  · rw [ifDone done]
    refine iff_of_true rfl (sidesApart_iff.mpr fun path isChanged other isExisting => ?_)
    have walkedPath : (path, true) ∈ walked := (members _).mpr (List.mem_append_right _ (mem_marked.mpr ⟨isChanged, rfl⟩))
    rcases List.mem_append.mp isExisting with inFront | inRest
    · have walkedOther : (other, false) ∈ walked :=
        (members _).mpr (List.mem_append_left _ (List.mem_append_right _ (mem_marked.mpr ⟨inFront, rfl⟩)))
      exact ⟨state.apart _ walkedPath _ walkedOther (by simp), state.apart _ walkedOther _ walkedPath (by simp)⟩
    · refine ⟨apart _ walkedPath rfl other inRest, fun ancestry => ?_⟩
      exact absurd ancestry.lt (not_lt.mpr (GatPath.le_iff.mp (last _ walkedPath other inRest)))

theorem isSome_foldl_orInsert (pairs : List (Str × GatPath)) (held : SortedMap Str GatPath) (key : Str) :
    ((pairs.foldl (fun (found : SortedMap Str GatPath) pair => found.alter pair.1 fun value => some (value.getD pair.2)) held).get?
      key).isSome ↔ (held.get? key).isSome ∨ key ∈ pairs.map Prod.fst := by
  induction pairs generalizing held with
  | nil => simp
  | cons pair pairs ih =>
    rw [List.foldl_cons, ih, SortedMap.get?_alter, List.map_cons, List.mem_cons]
    by_cases here : pair.1 = key
    · simp [here]
    · simp [here, Ne.symm here]

/-- The lookups find a conflict exactly when the sides are related. -/
theorem findDirectoryConflictSparse_eq_none_iff {paths : List GatPath} :
    table.findDirectoryConflictSparse paths exclude = none ↔ Unrelated paths (table.remaining exclude) := by
  unfold findDirectoryConflictSparse
  dsimp only
  generalize isAncestors : List.foldl _ _ _ = ancestors
  have keys (key : Str) : (ancestors.get? key).isSome ↔ ∃ path ∈ paths, IsAncestor Byte.slash key path.text := by
    rw [← isAncestors, isSome_foldl_orInsert]
    simp [List.mem_flatMap, mem_pathAncestors]
  constructor
  · intro nothing path isChanged other isExisting
    obtain ⟨oid, shard, found, outside⟩ := mem_remaining.mp isExisting
    have isRow : (other, shard) ∈ table.desiredOwners := mem_desiredOwners.mpr ⟨oid, found⟩
    split at nothing
    · cases nothing
    · next noDescendant =>
      constructor
      · intro above
        have none := List.findSome?_eq_none_iff.mp noDescendant path isChanged
        rw [Option.map_eq_none_iff, List.find?_eq_none] at none
        obtain ⟨lower, upper⟩ := GatPath.isAncestor_iff_descendantRange.mp above
        exact none _ isRow (decide_eq_true ⟨lower, upper, outside⟩)
      · intro below
        obtain ⟨value, isKey⟩ := Option.isSome_iff_exists.mp ((keys other.text).mpr ⟨path, isChanged, below⟩)
        have listed : other.text ∈ ancestors.entries.map Prod.fst :=
          List.mem_map.mpr ⟨_, SortedMap.get?_eq_some_iff.mp isKey, rfl⟩
        rw [← flatten_chunks lookupChunkSize (ancestors.entries.map Prod.fst)] at listed
        obtain ⟨chunk, isChunk, inside⟩ := List.mem_flatten.mp listed
        have none := List.findSome?_eq_none_iff.mp (List.findSome?_eq_none_iff.mp nothing chunk isChunk) _ isRow
        rw [if_pos ⟨inside, outside⟩, isKey] at none
        cases none
  · intro unrelated
    split
    · next conflict isConflict =>
      obtain ⟨path, isChanged, found⟩ := List.exists_of_findSome?_eq_some isConflict
      obtain ⟨row, isRow, rfl⟩ := Option.map_eq_some_iff.mp found
      have inRange := List.find?_some isRow
      simp only [decide_eq_true_eq] at inRange
      obtain ⟨oid, desired⟩ := mem_desiredOwners.mp (List.mem_of_find?_eq_some isRow)
      have related := (unrelated path isChanged row.1 (mem_remaining.mpr ⟨oid, row.2, desired, inRange.2.2⟩)).1
      exact absurd (GatPath.isAncestor_iff_descendantRange.mpr ⟨inRange.1, inRange.2.1⟩) related
    · refine List.findSome?_eq_none_iff.mpr fun chunk isChunk => List.findSome?_eq_none_iff.mpr fun row isRow => ?_
      by_cases kept : row.1.text ∈ chunk ∧ row.2 ∉ exclude
      · have listed : row.1.text ∈ ancestors.entries.map Prod.fst := by
          rw [← flatten_chunks lookupChunkSize (ancestors.entries.map Prod.fst)]
          exact List.mem_flatten_of_mem isChunk kept.1
        obtain ⟨entry, member, same⟩ := List.mem_map.mp listed
        obtain ⟨path, isChanged, below⟩ := (keys row.1.text).mp (by rw [← same, SortedMap.get?_of_mem member]; rfl)
        obtain ⟨oid, desired⟩ := mem_desiredOwners.mp isRow
        exact absurd below (unrelated path isChanged row.1 (mem_remaining.mpr ⟨oid, row.2, desired, kept.2⟩)).2
      · rw [if_neg kept]

/-- Either search finds a conflict exactly when a changed path is above or below a remaining one. -/
theorem findDirectoryConflict_eq_none_iff {paths : List GatPath} :
    table.findDirectoryConflict paths exclude = none ↔ Unrelated paths (table.remaining exclude) := by
  have members : Unrelated paths.toFinset.sort (table.remaining exclude) ↔ Unrelated paths (table.remaining exclude) := by
    simp only [Unrelated, Finset.mem_sort, List.mem_toFinset]
  unfold findDirectoryConflict
  dsimp only
  split_ifs with empty
  · exact iff_of_true rfl (by rw [empty]; exact fun _ member => (nomatch member))
  · exact findDirectoryConflictSparse_eq_none_iff.trans members
  · exact (findDirectoryConflictBulk_eq_none_iff (paths.toFinset.sortedLT_sort.pairwise)).trans members

/-- A path claimed by a remaining shard is found. -/
theorem findConflictingShardOwners_eq_nil_iff {paths : List GatPath} :
    table.findConflictingShardOwners paths exclude = [] ↔ ∀ path ∈ paths, path ∉ table.remaining exclude := by
  rw [findConflictingShardOwners, List.flatMap_eq_nil_iff]
  constructor
  · intro nothing path isChanged isExisting
    obtain ⟨oid, shard, found, outside⟩ := mem_remaining.mp isExisting
    rw [← flatten_chunks lookupChunkSize paths] at isChanged
    obtain ⟨chunk, isChunk, inside⟩ := List.mem_flatten.mp isChanged
    refine List.filter_eq_nil_iff.mp (nothing chunk isChunk) (path, shard) (mem_desiredOwners.mpr ⟨oid, found⟩) ?_
    exact decide_eq_true ⟨inside, outside⟩
  · intro apart chunk isChunk
    refine List.filter_eq_nil_iff.mpr fun row isRow kept => ?_
    obtain ⟨inside, outside⟩ := of_decide_eq_true kept
    obtain ⟨oid, found⟩ := mem_desiredOwners.mp isRow
    refine apart row.1 ?_ (mem_remaining.mpr ⟨oid, row.2, found, outside⟩)
    rw [← flatten_chunks lookupChunkSize paths]
    exact List.mem_flatten_of_mem isChunk inside

end StateTable

end Gat
