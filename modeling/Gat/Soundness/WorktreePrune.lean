import Gat.Model.WorktreeMutation

/-! # Pruning after removal is exact

Removals only take leaves away, so the tree at any moment is the original one without the files removed so far. The loop over
the candidates is deepest first: when a directory comes up, everything below it has been decided, so it is empty exactly when
nothing below it was to stay, and what blocks it is a directory that stays.
-/

namespace Gat

/-- A path that goes: a removed file, or a directory above one, below which everything goes. -/
inductive Emptied (tree : WorktreeTree) (removed : TreePath → Prop) : TreePath → Prop
  | file {path : TreePath} (gone : removed path) : Emptied tree removed path
  | directory {path : TreePath} (inside : path ≠ []) (isDirectory : tree.node path = some .directory)
    (touched : ∃ file, removed file ∧ path <+: file ∧ path ≠ file)
    (bare : ∀ name, (tree.node (path ++ [name])).isSome → Emptied tree removed (path ++ [name])) : Emptied tree removed path

/-- The files of a tree that are at one of the paths. -/
def Named (tree : WorktreeTree) (targets : GatPath → Prop) (file : TreePath) : Prop :=
  (∃ path, targets path ∧ path.treePath = file) ∧ ∃ leaf, tree.node file = some (.leaf leaf)

variable {tree : WorktreeTree} {paths : List GatPath} {removed : TreePath → Prop}

/-! ## Candidates -/

/-- What lies above a path and below the root lies above its parent or is its parent. -/
theorem prefix_dropLast_iff {dir : TreePath} (inside : dir ≠ []) (path : TreePath) : dir <+: path.dropLast ↔ dir <+: path ∧ dir ≠ path := by
  rcases List.eq_nil_or_concat' path with rfl | ⟨init, last, rfl⟩
  · simpa using inside
  rw [List.dropLast_concat, List.prefix_concat_iff]
  constructor
  · intro above
    refine ⟨Or.inr above, ?_⟩
    rintro rfl
    have short := above.length_le
    rw [List.length_append, List.length_singleton] at short
    omega
  · rintro ⟨same | above, other⟩
    · exact absurd same other
    · exact above

/-- Below a length, everything above a collected directory is collected, so that the search may stop there. -/
def AboveClosed (candidates : Finset TreePath) (length : ℕ) : Prop :=
  ∀ dir ∈ candidates, dir.length < length → ∀ above, above ≠ [] → above <+: dir → above ∈ candidates

theorem mem_collectAncestors {candidates : Finset TreePath} {path dir : TreePath} (closed : AboveClosed candidates path.length) :
    dir ∈ collectAncestors candidates path ↔ dir ∈ candidates ∨ dir ≠ [] ∧ dir <+: path ∧ dir ≠ path := by
  have above_iff (path : TreePath) : (dir ≠ [] ∧ dir <+: path ∧ dir ≠ path) ↔ dir ≠ [] ∧ dir <+: path.dropLast :=
    and_congr_right fun inside => (prefix_dropLast_iff inside path).symm
  rw [above_iff]
  fun_induction collectAncestors candidates path with
  | case1 candidates path top =>
    refine ⟨Or.inl, fun member => member.resolve_right ?_⟩
    rw [top, List.prefix_nil]
    exact fun both => both.1 both.2
  | case2 candidates path deep collected =>
    refine ⟨Or.inl, ?_⟩
    rintro (member | ⟨inside, above⟩)
    · exact member
    · have shorter : path.dropLast.length < path.length := by
        cases path with
        | nil => simp at deep
        | cons name path => simp
      exact closed _ collected shorter dir inside above
  | case3 candidates path deep fresh ih =>
    have later : AboveClosed (insert path.dropLast candidates) path.dropLast.length := by
      intro other member short above inside prefix_
      rcases Finset.mem_insert.mp member with rfl | member
      · omega
      · have shorter : path.dropLast.length ≤ path.length := by simp
        exact Finset.mem_insert_of_mem (closed other member (by omega) above inside prefix_)
    refine (ih later).trans ?_
    rw [← above_iff path.dropLast, Finset.mem_insert]
    by_cases parent : dir = path.dropLast
    · simp [parent, deep]
    · simp [parent]

/-- The candidates of some removed paths: the directories strictly between the root and one of them. -/
theorem mem_candidates {deleted : List TreePath} {dir : TreePath} :
    dir ∈ deleted.foldl collectAncestors ∅ ↔ dir ≠ [] ∧ ∃ file ∈ deleted, dir <+: file ∧ dir ≠ file := by
  have fold : ∀ (candidates : Finset TreePath), (∀ length, AboveClosed candidates length) →
      (dir ∈ deleted.foldl collectAncestors candidates ↔ dir ∈ candidates ∨ dir ≠ [] ∧ ∃ file ∈ deleted, dir <+: file ∧ dir ≠ file) := by
    induction deleted with
    | nil => simp
    | cons file deleted ih =>
      intro candidates closed
      rw [List.foldl_cons, ih, mem_collectAncestors (closed _)]
      · simp only [List.mem_cons, exists_eq_or_imp]
        tauto
      · intro length other member _ above inside prefix_
        rw [mem_collectAncestors (closed _)] at member ⊢
        rcases member with member | ⟨_, below, differs⟩
        · exact Or.inl (closed _ other member (Nat.lt_succ_self _) above inside prefix_)
        · refine Or.inr ⟨inside, prefix_.trans below, ?_⟩
          rintro rfl
          exact differs (below.eq_of_length (le_antisymm below.length_le prefix_.length_le))
  rw [fold ∅ (fun length other member => absurd member (Finset.notMem_empty other))]
  simp

/-! ## The loop over the candidates -/

/-- A directory strictly between the root and a removed file. -/
def Touched (removed : TreePath → Prop) (dir : TreePath) : Prop := dir ≠ [] ∧ ∃ file, removed file ∧ dir <+: file ∧ dir ≠ file

theorem emptied_iff {dir : TreePath} :
    Emptied tree removed dir ↔ removed dir ∨ Touched removed dir ∧ Emptied tree removed dir := by
  constructor
  · rintro emptied
    cases emptied with
    | file gone => exact Or.inl gone
    | directory inside isDirectory touched bare => exact Or.inr ⟨⟨inside, touched⟩, .directory inside isDirectory touched bare⟩
  · rintro (gone | ⟨-, emptied⟩)
    · exact .file gone
    · exact emptied

section Loop

variable (leaves : ∀ file, removed file → ∃ leaf, tree.node file = some (.leaf leaf))

include leaves

theorem Touched.isDirectory {dir : TreePath} (touched : Touched removed dir) : tree.node dir = some .directory := by
  obtain ⟨-, file, gone, above, other⟩ := touched
  obtain ⟨leaf, found⟩ := leaves file gone
  exact tree.directory_above above other (by rw [found]; rfl)

/-- A directory goes only with everything in it. -/
theorem Emptied.child {dir : TreePath} {name : Str} (emptied : Emptied tree removed dir) (found : (tree.node (dir ++ [name])).isSome) :
    Emptied tree removed (dir ++ [name]) := by
  cases emptied with
  | directory _ _ _ bare => exact bare name found
  | file gone =>
    obtain ⟨leaf, isLeaf⟩ := leaves dir gone
    rw [tree.above dir name found] at isLeaf
    cases isLeaf

theorem not_emptied_blockParent {dir : TreePath} {blocked : Finset TreePath} (touched : Touched removed dir) (stays : ¬Emptied tree removed dir)
    (blockedStay : ∀ other ∈ blocked, ¬Emptied tree removed other) : ∀ other ∈ blockParent dir blocked, ¬Emptied tree removed other := by
  unfold blockParent
  split_ifs with top
  · exact blockedStay
  · intro other member emptied
    rcases Finset.mem_insert.mp member with rfl | member
    · obtain ⟨parent, name, rfl⟩ := (List.eq_nil_or_concat' dir).resolve_left touched.1
      rw [List.dropLast_concat] at emptied
      exact stays (emptied.child leaves (by rw [touched.isDirectory leaves]; rfl))
    · exact blockedStay other member emptied

/-- The tree when the candidates in `rest` are still to come. -/
def Pruning (tree : WorktreeTree) (removed : TreePath → Prop) (rest : List TreePath) (now : WorktreeTree) : Prop :=
  FileTree.Without (fun path => removed path ∨ (Touched removed path ∧ path ∉ rest) ∧ Emptied tree removed path) tree now

/-- When a directory comes up and nothing deeper is left, it is empty exactly when it is to go. -/
theorem Pruning.occupied_iff {dir : TreePath} {rest : List TreePath} {now : WorktreeTree} (pruning : Pruning tree removed (dir :: rest) now)
    (touched : Touched removed dir) (deepest : ∀ other ∈ rest, other.length ≤ dir.length) :
    now.Occupied dir ↔ ¬Emptied tree removed dir := by
  have decided (name : Str) : dir ++ [name] ∉ dir :: rest := by
    intro member
    rcases List.mem_cons.mp member with same | member
    · simp at same
    · have short := deepest _ member
      rw [List.length_append, List.length_singleton] at short
      omega
  rw [FileTree.occupied_iff]
  constructor
  · rintro ⟨name, found⟩ emptied
    have stays : ¬(removed (dir ++ [name]) ∨ (Touched removed (dir ++ [name]) ∧ dir ++ [name] ∉ dir :: rest) ∧ Emptied tree removed (dir ++ [name])) := by
      intro goes
      rw [(pruning _).1 goes] at found
      cases found
    rw [(pruning _).2 stays] at found
    rcases emptied_iff.mp (emptied.child leaves found) with gone | ⟨above, goes⟩
    · exact stays (Or.inl gone)
    · exact stays (Or.inr ⟨⟨above, decided name⟩, goes⟩)
  · intro stays
    by_contra vacant
    push Not at vacant
    refine stays (.directory touched.1 (touched.isDirectory leaves) touched.2 fun name found => ?_)
    by_contra remains
    have here : now.node (dir ++ [name]) = tree.node (dir ++ [name]) := by
      refine (pruning _).2 ?_
      rintro (gone | ⟨-, goes⟩)
      · exact remains (.file gone)
      · exact remains goes
    exact vacant name (by rw [here]; exact found)

/-- The loop removes exactly the candidates that are to go. -/
theorem pruneLoop_exact {rest : List TreePath} {now : WorktreeTree} {blocked : Finset TreePath} {faults : TreePath → Bool}
    (pruning : Pruning tree removed rest now) (candidates : ∀ dir ∈ rest, Touched removed dir)
    (sorted : rest.Pairwise fun left right => right.length ≤ left.length) (nodup : rest.Nodup)
    (blockedStay : ∀ dir ∈ blocked, ¬Emptied tree removed dir) (quiet : ∀ dir ∈ rest, faults dir = false) :
    ∃ final, pruneLoop faults now blocked rest = (final, .ok ()) ∧ FileTree.Without (Emptied tree removed) tree final := by
  induction rest generalizing now blocked with
  | nil =>
    refine ⟨now, rfl, pruning.congr fun path => ?_⟩
    simpa using emptied_iff
  | cons dir rest ih =>
    rw [List.forall_mem_cons] at candidates quiet
    rw [List.pairwise_cons] at sorted
    rw [List.nodup_cons] at nodup
    have touched := candidates.1
    -- A candidate that stays leaves the tree as it is.
    have skip (stays : ¬Emptied tree removed dir) : Pruning tree removed rest now := by
      refine pruning.congr fun path => or_congr_right (and_congr_left fun emptied => and_congr_right fun _ => not_congr ?_)
      rw [List.mem_cons, or_iff_right]
      rintro rfl
      exact stays emptied
    rw [pruneLoop]
    by_cases isBlocked : dir ∈ blocked
    · have stays := blockedStay dir isBlocked
      rw [if_pos isBlocked]
      exact ih (skip stays) candidates.2 sorted.2 nodup.2 (not_emptied_blockParent leaves touched stays blockedStay) quiet.2
    rw [if_neg isBlocked, if_neg (by rw [quiet.1]; exact Bool.false_ne_true)]
    have here : now.node dir = some .directory := by
      rw [← touched.isDirectory leaves]
      refine (pruning dir).2 ?_
      rintro (gone | ⟨⟨-, decided⟩, -⟩)
      · obtain ⟨leaf, isLeaf⟩ := leaves dir gone
        rw [touched.isDirectory leaves] at isLeaf
        cases isLeaf
      · exact decided List.mem_cons_self
    rcases now.removeDirectory_cases touched.1 with ⟨after, -, vacant, ran, step⟩ | ⟨-, occupied, ran⟩ | ⟨other, -⟩
    · rw [ran]
      have emptied : Emptied tree removed dir := by
        by_contra stays
        exact vacant ((pruning.occupied_iff leaves touched sorted.1).mpr stays)
      refine ih (FileTree.Without.congr (FileTree.Without.step pruning step) fun path => ?_) candidates.2 sorted.2 nodup.2 blockedStay quiet.2
      by_cases same : path = dir
      · subst same
        simp [touched, nodup.1, emptied]
      · simp [same]
    · rw [ran]
      have stays := (pruning.occupied_iff leaves touched sorted.1).mp occupied
      exact ih (skip stays) candidates.2 sorted.2 nodup.2 (not_emptied_blockParent leaves touched stays blockedStay) quiet.2
    · exact absurd here other

end Loop

/-! ## Concurrent removals -/

namespace Removal

/-- A removal has ended with a result. -/
def Ended (removal : Removal) (index : ℕ) (path : TreePath) (result : Except RemovePathError (Option TreePath)) : Prop :=
  removal.jobs[index]? = some (path, .done result)

/-- The files that were removed so far. -/
def Taken (removal : Removal) (file : TreePath) : Prop := ∃ index path, removal.Ended index path (.ok (some file))

/-- What holds while removals run: the tree lacks what was taken, only files are taken, and what was missing is missing. -/
structure Running (tree : WorktreeTree) (paths : List GatPath) (removal : Removal) : Prop where
  places : removal.jobs.map Prod.fst = paths.map GatPath.treePath
  without : FileTree.Without removal.Taken tree removal.tree
  own : ∀ index path file, removal.Ended index path (.ok (some file)) → file = path ∧ ∃ leaf, tree.node file = some (.leaf leaf)
  missing : ∀ index path, removal.Ended index path (.ok none) → removal.tree.node path = none

theorem Running.start (tree : WorktreeTree) (paths : List GatPath) : Running tree paths (Removal.start paths tree) := by
  have fresh (index : ℕ) (path : TreePath) (result : Except RemovePathError (Option TreePath)) : ¬(Removal.start paths tree).Ended index path result := by
    intro ended
    rw [Ended, Removal.start, List.getElem?_map] at ended
    obtain ⟨_, -, same⟩ := Option.map_eq_some_iff.mp ended
    cases same
  refine ⟨by simp [Removal.start], ?_, fun index path file ended => absurd ended (fresh _ _ _), fun index path ended => absurd ended (fresh _ _ _)⟩
  exact FileTree.Without.none.congr fun file => iff_of_false (fun ⟨index, path, ended⟩ => fresh index path _ ended) id

theorem set_same {α : Type} {items : List α} {index : ℕ} {item : α} (here : items[index]? = some item) : items.set index item = items := by
  obtain ⟨inside, rfl⟩ := List.getElem?_eq_some_iff.mp here
  exact List.set_getElem_self inside

section Advance

variable {removal : Removal} {index : ℕ} {path : TreePath} {job next : RemoveJob} {after : WorktreeTree}

theorem ended_set_iff (here : removal.jobs[index]? = some (path, job)) {other : ℕ} {place : TreePath}
    {result : Except RemovePathError (Option TreePath)} :
    Ended ⟨after, removal.jobs.set index (path, next)⟩ other place result ↔
      if other = index then place = path ∧ next = .done result else removal.Ended other place result := by
  obtain ⟨inside, -⟩ := List.getElem?_eq_some_iff.mp here
  rw [Ended, Ended, List.getElem?_set]
  by_cases same : other = index
  · simp [same, inside, eq_comm]
  · rw [if_neg (Ne.symm same), if_neg same]

theorem taken_set_iff (here : removal.jobs[index]? = some (path, job)) (pending : job.result? = none) {file : TreePath} :
    Taken ⟨after, removal.jobs.set index (path, next)⟩ file ↔ removal.Taken file ∨ next = .done (.ok (some file)) := by
  unfold Taken
  simp only [ended_set_iff here]
  constructor
  · rintro ⟨other, place, ended⟩
    split_ifs at ended with same
    · exact Or.inr ended.2
    · exact Or.inl ⟨other, place, ended⟩
  · rintro (⟨other, place, ended⟩ | done)
    · refine ⟨other, place, ?_⟩
      rw [if_neg]
      · exact ended
      · rintro rfl
        rw [Ended, here] at ended
        cases ended
        cases pending
    · exact ⟨index, path, by rw [if_pos rfl]; exact ⟨rfl, done⟩⟩

/-- One removal advances: it fails or goes on, finds nothing, or takes its file. -/
theorem Running.advance (running : Running tree paths removal) (here : removal.jobs[index]? = some (path, job)) (pending : job.result? = none)
    (advance : (after = removal.tree ∧ ∀ value, next ≠ .done (.ok value)) ∨
      (after = removal.tree ∧ next = .done (.ok none) ∧ removal.tree.node path = none) ∨
      next = .done (.ok (some path)) ∧ (∃ leaf, removal.tree.node path = some (.leaf leaf)) ∧ FileTree.Sets none path removal.tree after) :
    Running tree paths ⟨after, removal.jobs.set index (path, next)⟩ := by
  have vanishing {place : TreePath} (missing : removal.tree.node place = none) : after.node place = none := by
    rcases advance with ⟨rfl, -⟩ | ⟨rfl, -, -⟩ | ⟨-, -, step⟩
    · exact missing
    · exact missing
    · rw [step place, missing, ite_self]
  refine ⟨?_, ?_, fun other place file ended => ?_, fun other place ended => ?_⟩
  · rw [List.map_set, ← running.places]
    exact set_same (by rw [List.getElem?_map, here]; rfl)
  · rcases advance with ⟨rfl, bad⟩ | ⟨rfl, rfl, -⟩ | ⟨rfl, -, step⟩
    · exact running.without.congr fun file => (taken_set_iff here pending).trans (or_iff_left (bad _))
    · exact running.without.congr fun file => (taken_set_iff here pending).trans (or_iff_left (by simp))
    · exact (running.without.step step).congr fun file => (taken_set_iff here pending).trans (or_congr_right (by simp [eq_comm]))
  · rw [ended_set_iff here] at ended
    split_ifs at ended with same
    · obtain ⟨rfl, done⟩ := ended
      rcases advance with ⟨-, bad⟩ | ⟨-, rfl, -⟩ | ⟨rfl, ⟨leaf, found⟩, -⟩
      · exact absurd done (bad _)
      · cases done
      · cases done
        refine ⟨rfl, leaf, ?_⟩
        rw [← found]
        refine ((running.without place).2 fun taken => ?_).symm
        rw [(running.without place).1 taken] at found
        cases found
    · exact running.own other place file ended
  · rw [ended_set_iff here] at ended
    split_ifs at ended with same
    · obtain ⟨rfl, done⟩ := ended
      rcases advance with ⟨-, bad⟩ | ⟨rfl, -, missing⟩ | ⟨rfl, -⟩
      · exact absurd done (bad _)
      · exact missing
      · cases done
    · exact vanishing (running.missing other place ended)

end Advance

theorem Running.step {removal : Removal} (running : Running tree paths removal) (turn : ℕ × Bool) : Running tree paths (removal.step turn) := by
  unfold Removal.step
  cases here : removal.jobs[turn.1]? with
  | none => exact running
  | some entry =>
    obtain ⟨path, job⟩ := entry
    dsimp only
    cases job with
    | done result =>
      change Running tree paths ⟨removal.tree, removal.jobs.set turn.1 (path, .done result)⟩
      rw [set_same here]
      exact running
    | checking remaining =>
      cases remaining with
      | nil => exact running.advance here rfl (Or.inl ⟨rfl, nofun⟩)
      | cons ancestor remaining =>
        rw [RemoveJob.step]
        cases checkAncestor turn.2 removal.tree path ancestor with
        | ok value => exact running.advance here rfl (Or.inl ⟨rfl, nofun⟩)
        | error error => exact running.advance here rfl (Or.inl ⟨rfl, nofun⟩)
    | removing =>
      rw [RemoveJob.step]
      split_ifs with fault
      · exact running.advance here rfl (Or.inl ⟨rfl, nofun⟩)
      · rcases removal.tree.removeFile_cases path with ⟨content, after, found, ran, step⟩ | ⟨missing, ran | ran⟩ | ⟨-, ran⟩
        · rw [ran]
          exact running.advance here rfl (Or.inr (Or.inr ⟨rfl, ⟨content, found⟩, step⟩))
        · rw [ran]
          exact running.advance here rfl (Or.inr (Or.inl ⟨rfl, rfl, missing⟩))
        · rw [ran]
          exact running.advance here rfl (Or.inl ⟨rfl, nofun⟩)
        · rw [ran]
          exact running.advance here rfl (Or.inl ⟨rfl, nofun⟩)

theorem Running.run {removal : Removal} (running : Running tree paths removal) (schedule : List (ℕ × Bool)) :
    Running tree paths (schedule.foldl Removal.step removal) := by
  induction schedule generalizing removal with
  | nil => exact running
  | cons turn schedule ih => exact ih (running.step turn)

end Removal

theorem RemoveJob.result?_eq_some_iff {job : RemoveJob} {result : Except RemovePathError (Option TreePath)} :
    job.result? = some result ↔ job = .done result := by
  cases job <;> simp [RemoveJob.result?]

/-- Partial results exist together when each exists. -/
theorem mapM_eq_some_iff {α β : Type} {action : α → Option β} {items : List α} {results : List β} :
    items.mapM action = some results ↔ items.map action = results.map some := by
  induction items generalizing results with
  | nil => cases results <;> simp
  | cons item items ih =>
    rw [List.mapM_cons, List.map_cons]
    cases action item with
    | none => cases results <;> simp
    | some value =>
      cases results with
      | nil => cases items.mapM action <;> simp
      | cons result results =>
        rw [List.map_cons, List.cons.injEq, ← ih]
        cases items.mapM action <;> simp

/-- The values, or the first error. -/
theorem mapM_id_cases {ε α : Type} (results : List (Except ε α)) :
    (∃ values, results = values.map .ok ∧ results.mapM id = .ok values) ∨ ∃ error, .error error ∈ results ∧ results.mapM id = .error error := by
  induction results with
  | nil => exact Or.inl ⟨[], rfl, rfl⟩
  | cons result results ih =>
    rw [List.mapM_cons]
    cases result with
    | error error => exact Or.inr ⟨error, List.mem_cons_self, rfl⟩
    | ok value =>
      rcases ih with ⟨values, rfl, ran⟩ | ⟨error, member, ran⟩
      · refine Or.inl ⟨value :: values, rfl, ?_⟩
        rw [ran]
        rfl
      · refine Or.inr ⟨error, List.mem_cons_of_mem _ member, ?_⟩
        rw [ran]
        rfl

/-- What a complete run of the removals leaves. -/
theorem removeFiles_spec {schedule : List (ℕ × Bool)} {after : WorktreeTree} {results : List (Except RemovePathError (Option TreePath))}
    (ran : removeFiles schedule paths tree = some (after, results)) :
    FileTree.Without (fun file => .ok (some file) ∈ results) tree after ∧
      (∀ file, .ok (some file) ∈ results → Named tree (· ∈ paths) file) ∧
      ((∀ result ∈ results, ∃ value, result = .ok value) → ∀ file, Named tree (· ∈ paths) file → .ok (some file) ∈ results) := by
  unfold removeFiles at ran
  obtain ⟨results', ended, same⟩ := Option.bind_eq_some_iff.mp ran
  cases same
  have running := (Removal.Running.start tree paths).run schedule
  generalize schedule.foldl Removal.step (Removal.start paths tree) = removal at ended running
  have each (index : ℕ) : (removal.jobs[index]?).map (fun job => job.2.result?) = results[index]?.map some := by
    rw [← List.getElem?_map, mapM_eq_some_iff.mp ended, List.getElem?_map]
  have member_iff (result : Except RemovePathError (Option TreePath)) : result ∈ results ↔ ∃ index path, removal.Ended index path result := by
    rw [List.mem_iff_getElem?]
    refine exists_congr fun index => ?_
    have here := each index
    unfold Removal.Ended
    cases found : removal.jobs[index]? with
    | none =>
      rw [found] at here
      cases listed : results[index]? with
      | none => simp
      | some other =>
        rw [listed] at here
        cases here
    | some entry =>
      obtain ⟨path, job⟩ := entry
      rw [found, Option.map_some] at here
      obtain ⟨other, listed, ends⟩ := Option.map_eq_some_iff.mp here.symm
      obtain rfl := RemoveJob.result?_eq_some_iff.mp ends.symm
      simp [listed, eq_comm]
  have taken_iff (file : TreePath) : .ok (some file) ∈ results ↔ removal.Taken file := member_iff _
  refine ⟨running.without.congr taken_iff, fun file taken => ?_, fun well file named => ?_⟩
  · obtain ⟨index, path, ended⟩ := (member_iff _).mp taken
    obtain ⟨rfl, leaf⟩ := running.own index path file ended
    refine ⟨?_, leaf⟩
    have place : (removal.jobs.map Prod.fst)[index]? = some file := by
      rw [List.getElem?_map, ended]
      rfl
    rw [running.places, List.getElem?_map] at place
    obtain ⟨path, listed, same⟩ := Option.map_eq_some_iff.mp place
    exact ⟨path, List.mem_of_getElem? listed, same⟩
  · obtain ⟨⟨path, listed, rfl⟩, leaf, found⟩ := named
    obtain ⟨index, here⟩ := List.mem_iff_getElem?.mp listed
    have place : (removal.jobs.map Prod.fst)[index]? = some path.treePath := by
      rw [running.places, List.getElem?_map, here]
      rfl
    rw [List.getElem?_map] at place
    obtain ⟨⟨_, job⟩, entry, rfl⟩ := Option.map_eq_some_iff.mp place
    have ends := each index
    rw [entry, Option.map_some] at ends
    obtain ⟨result, position, result?⟩ := Option.map_eq_some_iff.mp ends.symm
    obtain rfl := RemoveJob.result?_eq_some_iff.mp result?.symm
    obtain ⟨value, rfl⟩ := well result (List.mem_of_getElem? position)
    cases value with
    | some file =>
      obtain ⟨rfl, -⟩ := running.own index _ file entry
      exact List.mem_of_getElem? position
    | none =>
      have missing := running.missing index _ entry
      by_contra stays
      rw [running.without path.treePath |>.2 fun taken => stays ((taken_iff _).mpr taken), found] at missing
      cases missing

/-! ## The exact tree -/

/-- The tree that pruning is to leave. -/
theorem exists_without_emptied (leaves : ∀ file, removed file → ∃ leaf, tree.node file = some (.leaf leaf)) :
    ∃ final : WorktreeTree, FileTree.Without (Emptied tree removed) tree final := by
  classical
  refine ⟨FileTree.ofNode (fun path => if Emptied tree removed path then none else tree.node path) tree.domain ?_ ?_ ?_, fun path => ⟨fun goes => if_pos goes, fun stays => if_neg stays⟩⟩
  · intro path found
    split_ifs at found
    · cases found
    · exact (tree.mem_domain path).mpr found
  · rw [if_neg, tree.root]
    rintro (gone | ⟨inside, -⟩)
    · obtain ⟨leaf, found⟩ := leaves [] gone
      rw [tree.root] at found
      cases found
    · exact inside rfl
  · intro path name found
    split_ifs at found with goes
    · cases found
    · rw [if_neg fun emptied => goes (emptied.child leaves found), tree.above path name found]

/-- Pruning above the removed files leaves exactly that tree, in any iteration order. -/
theorem prune_exact (leaves : ∀ file, removed file → ∃ leaf, tree.node file = some (.leaf leaf)) {now : WorktreeTree}
    (without : FileTree.Without removed tree now) {deleted : List TreePath} (deleted_iff : ∀ file, file ∈ deleted ↔ removed file)
    (order : HashOrder TreePath) {faults : TreePath → Bool} (quiet : ∀ dir, faults dir = false) :
    ∃ final, pruneTouchedAncestorDirs order faults now deleted = (final, .ok ()) ∧ FileTree.Without (Emptied tree removed) tree final := by
  have perm := List.mergeSort_perm (order.list (deleted.foldl collectAncestors ∅)) fun left right => decide (right.length ≤ left.length)
  have touched_iff (dir : TreePath) : dir ∈ (order.list (deleted.foldl collectAncestors ∅)).mergeSort (fun left right => right.length ≤ left.length) ↔
      Touched removed dir := by
    rw [perm.mem_iff, order.mem_list, mem_candidates, Touched]
    simp only [deleted_iff]
  have sorted : ((order.list (deleted.foldl collectAncestors ∅)).mergeSort fun left right => right.length ≤ left.length).Pairwise
      fun left right => decide (right.length ≤ left.length) := by
    refine List.pairwise_mergeSort (fun first second third => ?_) (fun left right => ?_) _
    · simp only [decide_eq_true_eq]
      omega
    · simp only [Bool.or_eq_true, decide_eq_true_eq]
      omega
  refine pruneLoop_exact leaves ?_ (fun dir member => (touched_iff dir).mp member) (sorted.imp fun below => of_decide_eq_true below)
    (perm.nodup_iff.mpr (order.nodup _)) (fun dir member => absurd member (Finset.notMem_empty dir)) (fun dir _ => quiet dir)
  refine without.congr fun path => ⟨?_, Or.inl⟩
  rintro (gone | ⟨⟨touched, decided⟩, -⟩)
  · exact gone
  · exact absurd ((touched_iff path).mpr touched) decided

/-- For every tree and every set of paths there is one tree, the original one without the named files and without the directories above
them that contain nothing else, that every successful run leaves, in any order and interleaving. When a removal fails, the run
fails and every directory stays. -/
theorem remove_and_prune_exact (tree : WorktreeTree) (targets : Finset GatPath) :
    ∃ final : WorktreeTree, final.node [] = some .directory ∧
      (∀ path, (Emptied tree (Named tree (· ∈ targets)) path → final.node path = none) ∧
        (¬Emptied tree (Named tree (· ∈ targets)) path → final.node path = tree.node path)) ∧
      ∀ paths : List GatPath, (∀ path, path ∈ paths ↔ path ∈ targets) → ∀ schedule order faults after results,
        removeFiles schedule paths tree = some (after, results) →
        ((∀ result ∈ results, ∃ value, result = .ok value) → (∀ dir, faults dir = false) →
          removeAndPrune schedule order faults paths tree = some (final, .ok ())) ∧
        ((∃ error, .error error ∈ results) → (∃ error, removeAndPrune schedule order faults paths tree = some (after, .error error)) ∧
          ∀ path, tree.node path = some .directory → after.node path = some .directory) := by
  have leaves : ∀ file, Named tree (· ∈ targets) file → ∃ leaf, tree.node file = some (.leaf leaf) := fun file named => named.2
  obtain ⟨final, exact_⟩ := exists_without_emptied leaves
  refine ⟨final, final.root, exact_, fun paths same schedule order faults after results ran => ?_⟩
  obtain ⟨without, own, complete⟩ := removeFiles_spec ran
  have named_iff (file : TreePath) : Named tree (· ∈ paths) file ↔ Named tree (· ∈ targets) file :=
    and_congr_left fun _ => exists_congr fun path => and_congr_left fun _ => same path
  unfold removeAndPrune
  rw [ran, Option.bind_eq_bind, Option.bind_some]
  dsimp only
  rcases mapM_id_cases results with ⟨values, rfl, collected⟩ | ⟨error, failed, collected⟩
  · refine ⟨fun well quiet => ?_, fun ⟨error, failed⟩ => ?_⟩
    · have taken_iff (file : TreePath) : .ok (some file) ∈ values.map (Except.ok (ε := RemovePathError)) ↔ Named tree (· ∈ targets) file :=
        (Iff.intro (own file) (complete well file)).trans (named_iff file)
      have deleted_iff (file : TreePath) : file ∈ values.filterMap id ↔ Named tree (· ∈ targets) file := by
        rw [← taken_iff]
        simp
      obtain ⟨removed, finished, pruned⟩ := prune_exact leaves (without.congr fun file => (taken_iff file).symm) deleted_iff order quiet
      have result : removed = final := FileTree.ext fun path => by
        by_cases goes : Emptied tree (Named tree (· ∈ targets)) path
        · rw [(pruned path).1 goes, (exact_ path).1 goes]
        · rw [(pruned path).2 goes, (exact_ path).2 goes]
      rw [collected, ← result, ← finished]
      rfl
    · obtain ⟨value, -, same⟩ := List.mem_map.mp failed
      cases same
  · refine ⟨fun well => ?_, fun _ => ⟨⟨error, by rw [collected]; rfl⟩, fun path isDirectory => ?_⟩⟩
    · obtain ⟨value, same⟩ := well _ failed
      cases same
    · rw [← isDirectory]
      refine (without path).2 fun taken => ?_
      obtain ⟨-, leaf, found⟩ := own path taken
      rw [isDirectory] at found
      cases found

/-! ## A shared directory -/

namespace SharedDirectory

def entries : List (TreePath × FileTree.Node WorktreeLeaf) :=
  [([], .directory), ([ascii "d"], .directory), ([ascii "d", ascii "c"], .leaf (.file [])), ([ascii "d", ascii "e"], .directory),
    ([ascii "d", ascii "e", ascii "a"], .leaf (.file [])), ([ascii "d", ascii "e", ascii "b"], .leaf (.symlink (ascii "a")))]

theorem root : FileTree.entryAt entries [] = some .directory := by decide

theorem above : ∀ entry ∈ entries, entry.1 ≠ [] → FileTree.entryAt entries entry.1.dropLast = some .directory := by decide

/-- Two leaves below a directory that has a sibling. -/
def shared : WorktreeTree := FileTree.ofEntries entries root above

theorem node_shared (path : TreePath) : shared.node path = FileTree.entryAt entries path := rfl

def first : GatPath := ⟨ascii "d/e/a", by decide, by decide⟩

def second : GatPath := ⟨ascii "d/e/b", by decide, by decide⟩

/-- The removals take turns, one call each. -/
def schedule : List (ℕ × Bool) := (List.replicate 5 [(0, false), (1, false), (2, false)]).flatten

theorem named_first : Named shared (· ∈ ({first, second} : Finset GatPath)) [ascii "d", ascii "e", ascii "a"] :=
  ⟨⟨first, by decide, by decide⟩, .file [], rfl⟩

theorem named_second : Named shared (· ∈ ({first, second} : Finset GatPath)) [ascii "d", ascii "e", ascii "b"] :=
  ⟨⟨second, by decide, by decide⟩, .symlink (ascii "a"), rfl⟩

theorem emptied : Emptied shared (Named shared (· ∈ ({first, second} : Finset GatPath))) [ascii "d", ascii "e"] := by
  refine .directory (List.cons_ne_nil _ _) rfl ⟨_, named_first, by decide, by decide⟩ fun name found => ?_
  rw [node_shared, FileTree.isSome_entryAt] at found
  obtain ⟨entry, member, same⟩ := found
  have listed : ∀ entry ∈ entries, entry.1.dropLast = [ascii "d", ascii "e"] →
      entry.1 = [ascii "d", ascii "e", ascii "a"] ∨ entry.1 = [ascii "d", ascii "e", ascii "b"] := by decide
  rw [← same]
  rcases listed entry member (by rw [same, List.dropLast_concat]) with isFirst | isSecond
  · exact isFirst ▸ .file named_first
  · exact isSecond ▸ .file named_second

theorem sibling_stays : ¬Emptied shared (Named shared (· ∈ ({first, second} : Finset GatPath))) [ascii "d", ascii "c"] := by
  intro goes
  cases goes with
  | file gone =>
    obtain ⟨⟨path, member, same⟩, -⟩ := gone
    have other : ∀ path ∈ ({first, second} : Finset GatPath), path.treePath ≠ [ascii "d", ascii "c"] := by decide
    exact other path member same
  | directory _ isDirectory => cases isDirectory

theorem parent_stays : ¬Emptied shared (Named shared (· ∈ ({first, second} : Finset GatPath))) [ascii "d"] := by
  intro goes
  cases goes with
  | file gone =>
    obtain ⟨-, leaf, isLeaf⟩ := gone
    cases isLeaf
  | directory _ _ _ bare => exact sibling_stays (bare (ascii "c") rfl)

end SharedDirectory

open SharedDirectory in
/-- Two paths in one directory, one of them twice, are removed in turns: the directory goes with them, and the one above stays with
its other file. -/
theorem remove_and_prune_exact_shared : ∃ final : WorktreeTree,
    final.node [ascii "d", ascii "e"] = none ∧ final.node [ascii "d"] = some .directory ∧
      final.node [ascii "d", ascii "c"] = some (.leaf (.file [])) ∧
      ∀ order, removeAndPrune schedule order (fun _ => false) [first, second, first] shared = some (final, .ok ()) := by
  obtain ⟨final, -, exact_, runs⟩ := remove_and_prune_exact shared {first, second}
  obtain ⟨after, ran⟩ : ∃ after, removeFiles schedule [first, second, first] shared =
      some (after, [.ok (some [ascii "d", ascii "e", ascii "a"]), .ok (some [ascii "d", ascii "e", ascii "b"]), .ok none]) :=
    ⟨_, rfl⟩
  refine ⟨final, (exact_ _).1 emptied, (exact_ _).2 parent_stays, (exact_ _).2 sibling_stays, fun order => ?_⟩
  refine (runs [first, second, first] (fun other => ?_) schedule order (fun _ => false) _ _ ran).1 (by simp) (fun _ => rfl)
  simp only [List.mem_cons, List.not_mem_nil, or_false, Finset.mem_insert, Finset.mem_singleton]
  tauto

end Gat
