import Gat.Model.WorktreeMove

/-! # A move loses no content

Until the final rename every step only adds directories or takes the destination aside, and taking aside is undone by the
rename back. So a failed move leaves the tree as it was, up to new directories, and the replaced destination is always at its
place or at its backup path.
-/

namespace Gat

/-- Nothing is lost or changed, and new are only directories of some kind. -/
def Keeps (extra : TreePath → Prop) (before after : WorktreeTree) : Prop :=
  ∀ path, after.node path = before.node path ∨ before.node path = none ∧ after.node path = some .directory ∧ extra path

namespace Keeps

variable {extra extra' : TreePath → Prop} {before now after : WorktreeTree}

theorem refl (tree : WorktreeTree) : Keeps extra tree tree := fun _ => Or.inl rfl

theorem mono (keeps : Keeps extra before after) (imp : ∀ path, extra path → extra' path) : Keeps extra' before after :=
  fun path => (keeps path).imp_right fun new => ⟨new.1, new.2.1, imp path new.2.2⟩

theorem trans (first : Keeps extra before now) (second : Keeps extra now after) : Keeps extra before after := by
  intro path
  rcases first path with same | ⟨none, directory, isExtra⟩
  · rw [← same]
    exact second path
  · rcases second path with same | ⟨vacant, -, -⟩
    · exact Or.inr ⟨none, same.trans directory, isExtra⟩
    · rw [directory] at vacant
      cases vacant

theorem of_sets {path : TreePath} (fresh : before.node path = none) (step : FileTree.Sets (some .directory) path before after)
    (isExtra : extra path) : Keeps extra before after := by
  intro other
  rw [step other]
  split_ifs with here
  · exact Or.inr ⟨here ▸ fresh, rfl, here ▸ isExtra⟩
  · exact Or.inl rfl

theorem node_eq_none {path : TreePath} (keeps : Keeps extra before after) (missing : after.node path = none) : before.node path = none := by
  rcases keeps path with same | ⟨none, -⟩
  · rw [← same, missing]
  · exact none

/-- Paths that are not of the given kind keep their nodes. -/
theorem node_of_not {path : TreePath} (keeps : Keeps extra before after) (plain : ¬extra path) : after.node path = before.node path :=
  (keeps path).resolve_right fun new => plain new.2.2

end Keeps

namespace MoveHost

variable {host : MoveHost} {tree : WorktreeTree} {src dst : GatPath}

theorem attempt_eq_ok_iff {α : Type} {call : MoveCall} {result : Except FileTree.Failure α} {value : α} :
    host.attempt call result = .ok value ↔ host.faults call = false ∧ result = .ok value := by
  unfold attempt
  cases host.faults call <;> cases result <;> simp [Except.mapError]

/-! ## New directories -/

theorem makeDirectory_keeps {call : MoveCall} {path : TreePath} {after : WorktreeTree}
    (made : host.attempt call (tree.makeDirectory path) = .ok after) : tree.node path = none ∧ FileTree.Sets (some .directory) path tree after := by
  obtain ⟨-, made⟩ := attempt_eq_ok_iff.mp made
  rcases tree.makeDirectory_cases path with ⟨failure, failed⟩ | ⟨after', fresh, ran, step⟩
  · rw [failed] at made
    cases made
  · rw [ran] at made
    cases made
    exact ⟨fresh, step⟩

/-- Creating a directory with what is above it, when the directories above have been dealt with. -/
theorem createDirAll_keeps (host : MoveHost) (tree : WorktreeTree) (path : TreePath) : Keeps (· <+: path) tree (host.createDirAll tree path).1 := by
  fun_induction host.createDirAll tree path with
  | case1 path after made =>
    obtain ⟨fresh, step⟩ := makeDirectory_keeps made
    exact .of_sets fresh step List.prefix_rfl
  | case2 path source failed missing now error above ih =>
    rw [above] at ih
    exact ih.mono fun other above => above.trans (List.dropLast_prefix path)
  | case3 path source failed missing now above after made ih =>
    rw [above] at ih
    obtain ⟨fresh, step⟩ := makeDirectory_keeps made
    exact (ih.mono fun other above => above.trans (List.dropLast_prefix path)).trans (.of_sets fresh step List.prefix_rfl)
  | case4 path source failed missing now above error refused ih =>
    rw [above] at ih
    exact ih.mono fun other above => above.trans (List.dropLast_prefix path)
  | case5 path source failed present => exact .refl tree

/-- Discarding removes an empty directory unless that call fails. -/
theorem discard_cases {directory : TreePath} (inside : directory ≠ []) (found : tree.node directory = some .directory)
    (vacant : ¬tree.Occupied directory) :
    FileTree.Sets none directory tree (host.discard tree directory) ∨
      host.discard tree directory = tree ∧ host.faults (.removeDirectory directory) = true := by
  unfold discard attempt
  split_ifs with fault
  · exact Or.inr ⟨rfl, fault⟩
  · rcases tree.removeDirectory_cases inside with ⟨after, -, -, ran, step⟩ | ⟨-, occupied, -⟩ | ⟨other, -⟩
    · rw [ran]
      exact Or.inl step
    · exact absurd occupied vacant
    · exact absurd found other

end MoveHost

/-! ## Taking the destination aside -/

/-- The tree with the destination at its backup path in a fresh directory next to it. -/
structure TakenAside (dst directory backup : TreePath) (before prepared aside : WorktreeTree) : Prop where
  beside : ∃ name, directory = dst.dropLast ++ [name]
  within : ∃ name, backup = directory ++ [name]
  fresh : before.node directory = none
  prepares : FileTree.Sets (some .directory) directory before prepared
  leaf : ∃ content, before.node dst = some (.leaf content)
  apart : ¬dst <+: backup
  moved : aside.node = prepared.movedNode dst backup

namespace TakenAside

variable {dst directory backup : TreePath} {before prepared aside : WorktreeTree}

theorem other (taken : TakenAside dst directory backup before prepared aside) : dst ≠ directory := by
  rintro rfl
  obtain ⟨content, found⟩ := taken.leaf
  rw [taken.fresh] at found
  cases found

theorem directory_prefix (taken : TakenAside dst directory backup before prepared aside) : directory <+: backup := by
  obtain ⟨name, same⟩ := taken.within
  exact ⟨[name], same.symm⟩

theorem prepared_below (taken : TakenAside dst directory backup before prepared aside) {path : TreePath} (below : directory <+: path)
    (strict : directory ≠ path) : prepared.node path = none := by
  rw [taken.prepares path, if_neg (Ne.symm strict)]
  exact before.none_below below taken.fresh

theorem vacant (taken : TakenAside dst directory backup before prepared aside) (path : TreePath) (below : backup <+: path) :
    prepared.node path = none := by
  obtain ⟨name, rfl⟩ := taken.within
  refine taken.prepared_below ((List.prefix_append _ _).trans below) ?_
  rintro rfl
  have long := below.length_le
  rw [List.length_append, List.length_singleton] at long
  omega

/-- Moving the destination back restores the tree with the empty directory. -/
theorem back (taken : TakenAside dst directory backup before prepared aside) : aside.movedNode backup dst = prepared.node :=
  FileTree.movedNode_back taken.moved taken.vacant

/-- The backup path holds the destination. -/
theorem node_backup (taken : TakenAside dst directory backup before prepared aside) (rest : TreePath) :
    aside.node (backup ++ rest) = before.node (dst ++ rest) := by
  rw [taken.moved, FileTree.movedNode, if_pos (List.prefix_append _ _), List.drop_left, taken.prepares, if_neg]
  intro same
  exact taken.apart ((same ▸ List.prefix_append dst rest).trans taken.directory_prefix)

/-- At the destination is nothing. -/
theorem node_destination (taken : TakenAside dst directory backup before prepared aside) {path : TreePath} (below : dst <+: path) :
    aside.node path = none := by
  rw [taken.moved, FileTree.movedNode, if_neg, if_pos below]
  intro other
  rcases List.prefix_or_prefix_of_prefix below other with inside | inside
  · exact taken.apart inside
  · obtain ⟨name, rfl⟩ := taken.within
    obtain ⟨sibling, rfl⟩ := taken.beside
    have long := inside.length_le
    simp only [List.length_append, List.length_singleton, List.length_dropLast] at long
    omega

/-- Elsewhere nothing changes. -/
theorem node_elsewhere (taken : TakenAside dst directory backup before prepared aside) {path : TreePath} (apart : ¬dst <+: path)
    (outside : ¬directory <+: path) : aside.node path = before.node path := by
  rw [taken.moved, FileTree.movedNode, if_neg fun below => outside (taken.directory_prefix.trans below), if_neg apart, taken.prepares, if_neg]
  rintro rfl
  exact outside List.prefix_rfl

/-- The destination is not above its backup directory. -/
theorem beside_destination (taken : TakenAside dst directory backup before prepared aside) {path : TreePath} (below : directory <+: path) : ¬dst <+: path := by
  intro inside
  obtain ⟨content, found⟩ := taken.leaf
  obtain ⟨name, same⟩ := taken.beside
  have nonempty := List.length_pos_iff.mpr (before.ne_nil_of_leaf found)
  have lengths : directory.length = dst.length := by
    rw [same, List.length_append, List.length_singleton, List.length_dropLast]
    omega
  apply taken.other
  rw [List.prefix_iff_eq_take.mp inside, List.prefix_iff_eq_take.mp below, lengths]

/-- What is in the backup directory. -/
theorem node_inside (taken : TakenAside dst directory backup before prepared aside) {path : TreePath} (below : directory <+: path) :
    aside.node path = if path = directory then some .directory else if path = backup then before.node dst else none := by
  split_ifs with here there
  · have outside : ¬backup <+: path := by
      obtain ⟨name, rfl⟩ := taken.within
      rw [here]
      intro inside
      have long := inside.length_le
      rw [List.length_append, List.length_singleton] at long
      omega
    rw [taken.moved, FileTree.movedNode, if_neg outside, if_neg (taken.beside_destination below), taken.prepares, if_pos here]
  · have whole := taken.node_backup []
    rwa [List.append_nil, List.append_nil, ← there] at whole
  · by_cases inside : backup <+: path
    · obtain ⟨rest, rfl⟩ := inside
      have deeper : rest ≠ [] := by
        rintro rfl
        exact there (List.append_nil backup)
      obtain ⟨content, found⟩ := taken.leaf
      rw [taken.node_backup]
      exact before.node_below_eq_none (List.prefix_append _ _) (by simpa using Ne.symm deeper) (by rw [found]; simp)
    · rw [taken.moved, FileTree.movedNode, if_neg inside, if_neg (taken.beside_destination below)]
      exact taken.prepared_below below (Ne.symm here)

/-- The source is not above anything in the backup directory, unless it is in there itself. -/
theorem beside_source {src : TreePath} (taken : TakenAside dst directory backup before prepared aside) (apart : ¬src <+: dst)
    (unused : ¬directory <+: src) {path : TreePath} (below : directory <+: path) : ¬src <+: path := by
  intro inside
  have above := (List.prefix_or_prefix_of_prefix inside below).resolve_right unused
  obtain ⟨name, same⟩ := taken.beside
  rw [same, List.prefix_concat_iff] at above
  rcases above with rfl | above
  · exact unused (same ▸ List.prefix_rfl)
  · exact apart (above.trans (List.dropLast_prefix dst))

/-- A move over the destination does not touch the backup directory. -/
theorem movedNode_backup {src : TreePath} (taken : TakenAside dst directory backup before prepared aside) (apart : ¬src <+: dst)
    (unused : ¬directory <+: src) {path : TreePath} (below : directory <+: path) : aside.movedNode src dst path = aside.node path := by
  rw [FileTree.movedNode, if_neg (taken.beside_destination below), if_neg (taken.beside_source apart unused below)]

end TakenAside

namespace MoveHost

variable {host : MoveHost} {tree : WorktreeTree} {src dst : GatPath}

/-- A fresh directory is discarded unless that call fails. -/
theorem discard_fresh {directory : TreePath} {prepared : WorktreeTree} (host : MoveHost) (fresh : tree.node directory = none)
    (step : FileTree.Sets (some .directory) directory tree prepared) :
    Keeps (fun path => path = directory ∧ host.faults (.removeDirectory path) = true) tree (host.discard prepared directory) := by
  have inside : directory ≠ [] := by
    rintro rfl
    rw [tree.root] at fresh
    cases fresh
  have found : prepared.node directory = some .directory := by rw [step, if_pos rfl]
  have vacant : ¬prepared.Occupied directory := by
    rw [FileTree.occupied_iff]
    rintro ⟨name, below⟩
    have nothing := tree.none_below (List.prefix_append directory [name]) fresh
    rw [step, if_neg (by simp), nothing] at below
    cases below
  rcases host.discard_cases inside found vacant with removed | ⟨stays, fault⟩
  · intro path
    rw [removed, step]
    split_ifs with here
    · exact Or.inl (here ▸ fresh.symm)
    · exact Or.inl rfl
  · rw [stays]
    exact .of_sets fresh step ⟨rfl, fault⟩

/-- What taking aside does: the destination is at the backup path, or the tree is as before, up to an empty directory that could not be
removed. -/
theorem moveAside_cases (host : MoveHost) (tree : WorktreeTree) (dst : GatPath) (leaf : ∃ content, tree.node (host.address dst) = some (.leaf content)) :
    (∃ error, (host.moveAside tree dst).2 = .error error ∧ (∀ backup source, error ≠ .restoreDestination backup source) ∧
        Keeps (fun path => path = host.backupDirectory dst ∧ host.faults (.removeDirectory path) = true) tree (host.moveAside tree dst).1) ∨
      (host.moveAside tree dst).2 = .ok (host.backupPath dst) ∧
        ∃ prepared, TakenAside (host.address dst) (host.backupDirectory dst) (host.backupPath dst) tree prepared (host.moveAside tree dst).1 := by
  unfold moveAside
  cases made : host.attempt .prepareBackup (tree.makeDirectory (host.backupDirectory dst)) with
  | error source => exact Or.inl ⟨_, rfl, nofun, .refl tree⟩
  | ok prepared =>
    obtain ⟨fresh, step⟩ := makeDirectory_keeps made
    dsimp only
    cases renamed : host.attempt (.rename (host.address dst) (host.backupPath dst)) (prepared.rename (host.address dst) (host.backupPath dst)) with
    | error source => exact Or.inl ⟨_, rfl, nofun, discard_fresh host fresh step⟩
    | ok aside =>
      obtain ⟨-, renamed⟩ := attempt_eq_ok_iff.mp renamed
      refine Or.inr ⟨rfl, prepared, ?_⟩
      rcases prepared.rename_cases (host.address dst) (host.backupPath dst) with ⟨failure, failed⟩ | ⟨same, -⟩ | ⟨after, -, movable, -, -, ran, moved⟩
      · rw [failed] at renamed
        cases renamed
      · have lengths := congrArg List.length same
        simp only [backupPath, backupDirectory, List.length_append, List.length_singleton, List.length_dropLast] at lengths
        omega
      · rw [ran] at renamed
        cases renamed
        exact ⟨⟨_, rfl⟩, ⟨_, rfl⟩, fresh, step, leaf, movable.apart, moved⟩

/-- A destination that was taken aside returns, or stays at the backup path. -/
theorem restoreMoveDestination_cases {dst directory backup : TreePath} {before prepared aside : WorktreeTree} (host : MoveHost)
    (taken : TakenAside dst directory backup before prepared aside) :
    (∃ restored, host.restoreMoveDestination aside backup dst = (restored, .ok ()) ∧
        Keeps (fun path => path = directory ∧ host.faults (.removeDirectory path) = true) before restored) ∨
      ∃ source, host.restoreMoveDestination aside backup dst = (aside, .error source) := by
  unfold restoreMoveDestination
  cases renamed : host.attempt (.rename backup dst) (aside.rename backup dst) with
  | error source => exact Or.inr ⟨source, rfl⟩
  | ok restored =>
    obtain ⟨-, renamed⟩ := attempt_eq_ok_iff.mp renamed
    refine Or.inl ⟨_, rfl, ?_⟩
    rcases aside.rename_cases backup dst with ⟨failure, failed⟩ | ⟨same, -⟩ | ⟨after, -, -, -, -, ran, moved⟩
    · rw [failed] at renamed
      cases renamed
    · exact absurd (same ▸ List.prefix_rfl) taken.apart
    · rw [ran] at renamed
      cases renamed
      have parent : backup.dropLast = directory := by
        obtain ⟨name, rfl⟩ := taken.within
        exact List.dropLast_concat
      have same : restored = prepared := FileTree.ext fun path => by rw [moved, taken.back]
      rw [parent, same]
      exact discard_fresh host taken.fresh taken.prepares

end MoveHost

/-! ## A completed move -/

/-- What a completed move leaves: the tree itself when both paths name one entry, else the subtree at its new place, with a
replaced destination at the backup path. -/
inductive CompletedMove (src dst directory backup : TreePath) (before after : WorktreeTree) : Option TreePath → Prop
  | same (equal : src = dst) (unchanged : after = before) : CompletedMove src dst directory backup before after none
  | moved (apart : ¬src <+: dst) (absent : before.node dst = none) (exists_ : (before.node src).isSome) (moves : after.node = before.movedNode src dst) :
    CompletedMove src dst directory backup before after none
  | replaced {prepared aside : WorktreeTree} (taken : TakenAside dst directory backup before prepared aside) (apart : ¬src <+: dst)
    (exists_ : (aside.node src).isSome) (moves : after.node = aside.movedNode src dst) : CompletedMove src dst directory backup before after (some backup)

namespace MoveHost

variable {host : MoveHost} {tree : WorktreeTree} {src dst : GatPath}

theorem needsBackup_false (needless : host.needsBackup tree src dst = .ok false) :
    host.address src = host.address dst ∨ tree.node (host.address dst) = none := by
  unfold needsBackup at needless
  split at needless
  · cases needless
  · next leaf _ =>
    have same : host.sameEntry tree src dst leaf = true := by simpa using needless
    unfold sameEntry at same
    split at same
    · cases same
    · cases same
    · cases same
    · split at same
      · exact Or.inl (of_decide_eq_true same)
      · cases same
  · next missing =>
    refine Or.inr ?_
    unfold attempt at missing
    split_ifs at missing
    · cases missing
    · rw [Option.eq_none_iff_forall_ne_some]
      intro node found
      rw [tree.lookup_eq_ok_iff.mpr found] at missing
      cases missing
  · cases needless

theorem needsBackup_true (needed : host.needsBackup tree src dst = .ok true) : ∃ content, tree.node (host.address dst) = some (.leaf content) := by
  unfold needsBackup at needed
  split at needed
  · cases needed
  · next leaf found => exact ⟨leaf, tree.lookup_eq_ok_iff.mp (attempt_eq_ok_iff.mp found).2⟩
  · cases needed
  · cases needed

theorem needsBackup_error {error : MovePathError} (failed : host.needsBackup tree src dst = .error error) :
    ∀ backup source, error ≠ .restoreDestination backup source := by
  unfold needsBackup at failed
  split at failed
  · obtain rfl := Except.error.inj failed
    nofun
  · cases failed
  · cases failed
  · obtain rfl := Except.error.inj failed
    nofun

/-- How the rename itself ends. -/
theorem rename_cases {call : MoveCall} {before after : WorktreeTree} {from_ to_ : TreePath}
    (renamed : host.attempt call (before.rename from_ to_) = .ok after) :
    (from_ = to_ ∧ (before.node from_).isSome ∧ after = before) ∨ ¬from_ <+: to_ ∧ (before.node from_).isSome ∧ after.node = before.movedNode from_ to_ := by
  obtain ⟨-, renamed⟩ := attempt_eq_ok_iff.mp renamed
  rcases before.rename_cases from_ to_ with ⟨failure, failed⟩ | ⟨same, exists_, ran⟩ | ⟨after', -, movable, -, exists_, ran, moved⟩
  · rw [failed] at renamed
    cases renamed
  · rw [ran] at renamed
    exact Or.inl ⟨same, exists_, (Except.ok.inj renamed).symm⟩
  · rw [ran] at renamed
    cases renamed
    exact Or.inr ⟨movable.apart, exists_, moved⟩

/-- How a move ends once the directories above the destination exist. -/
inductive Ended (host : MoveHost) (src dst : GatPath) (before : WorktreeTree) : WorktreeTree × Except MovePathError PendingMove → Prop
  | failed {after : WorktreeTree} {error : MovePathError} (other : ∀ backup source, error ≠ .restoreDestination backup source)
    (keeps : Keeps (fun path => path = host.backupDirectory dst ∧ host.faults (.removeDirectory path) = true) before after) :
    Ended host src dst before (after, .error error)
  | stranded {prepared after : WorktreeTree} {source : IoError}
    (taken : TakenAside (host.address dst) (host.backupDirectory dst) (host.backupPath dst) before prepared after) :
    Ended host src dst before (after, .error (.restoreDestination (host.backupPath dst) source))
  | completed {after : WorktreeTree} {backup : Option TreePath}
    (done : CompletedMove (host.address src) (host.address dst) (host.backupDirectory dst) (host.backupPath dst) before after backup) :
    Ended host src dst before (after, .ok ⟨src, dst, backup⟩)

theorem finishMove_none {before : WorktreeTree} (needless : host.address src = host.address dst ∨ before.node (host.address dst) = none) :
    Ended host src dst before (host.finishMove before src dst none) := by
  unfold finishMove
  cases renamed : host.attempt (.rename (host.address src) (host.address dst)) (before.rename (host.address src) (host.address dst)) with
  | error source => exact .failed nofun (.refl before)
  | ok after =>
    rcases rename_cases renamed with ⟨same, -, rfl⟩ | ⟨apart, exists_, moved⟩
    · exact .completed (.same same rfl)
    · exact .completed (.moved apart (needless.resolve_left fun same => apart (same ▸ List.prefix_rfl)) exists_ moved)

theorem finishMove_some {before prepared aside : WorktreeTree}
    (taken : TakenAside (host.address dst) (host.backupDirectory dst) (host.backupPath dst) before prepared aside) :
    Ended host src dst before (host.finishMove aside src dst (some (host.backupPath dst))) := by
  unfold finishMove
  cases renamed : host.attempt (.rename (host.address src) (host.address dst)) (aside.rename (host.address src) (host.address dst)) with
  | error source =>
    dsimp only
    rcases restoreMoveDestination_cases host taken with ⟨restored, ran, keeps⟩ | ⟨failed, ran⟩
    · rw [ran]
      exact .failed nofun keeps
    · rw [ran]
      exact .stranded taken
  | ok after =>
    rcases rename_cases renamed with ⟨same, exists_, -⟩ | ⟨apart, exists_, moved⟩
    · rw [same, taken.node_destination List.prefix_rfl] at exists_
      cases exists_
    · exact .completed (.replaced taken apart exists_ moved)

theorem movePath_ended (host : MoveHost) (tree : WorktreeTree) (src dst : GatPath) :
    ∃ before, Keeps (· <+: (host.address dst).dropLast) tree before ∧ Ended host src dst before (host.movePath tree src dst) := by
  unfold movePath
  have unchanged {error : MovePathError} (other : ∀ backup source, error ≠ .restoreDestination backup source) :
      ∃ before, Keeps (· <+: (host.address dst).dropLast) tree before ∧ Ended host src dst before (tree, .error error) :=
    ⟨tree, .refl tree, .failed other (.refl tree)⟩
  split
  · exact unchanged (by rintro _ _ ⟨⟩)
  · exact unchanged (by rintro _ _ ⟨⟩)
  · have made := createDirAll_keeps host tree (host.address dst).dropLast
    split
    · next before source ran =>
      rw [ran] at made
      exact ⟨before, made, .failed (by rintro _ _ ⟨⟩) (.refl before)⟩
    · next before ran =>
      rw [ran] at made
      refine ⟨before, made, ?_⟩
      split_ifs with same
      · subst same
        split
        · exact .completed (.same rfl rfl)
        · exact .failed (by rintro _ _ ⟨⟩) (.refl before)
      · split
        · next error failed => exact .failed (needsBackup_error failed) (.refl before)
        · next needless => exact finishMove_none (needsBackup_false needless)
        · next needed =>
          have aside := moveAside_cases host before dst (needsBackup_true needed)
          generalize host.moveAside before dst = moved at aside
          obtain ⟨after, result⟩ := moved
          rcases aside with ⟨error, failed, other, keeps⟩ | ⟨done, prepared, taken⟩
          · obtain rfl : result = .error error := failed
            exact .failed other keeps
          · obtain rfl : result = .ok (host.backupPath dst) := done
            exact finishMove_some taken

/-! ## Rolling back -/

/-- Rolling back a move that replaced nothing. -/
theorem rollback_none {before after : WorktreeTree} (host : MoveHost)
    (done : CompletedMove (host.address src) (host.address dst) (host.backupDirectory dst) (host.backupPath dst) before after none)
    (ended : (host.rollback after ⟨src, dst, none⟩).2 = .ok ()) : (host.rollback after ⟨src, dst, none⟩).1 = before := by
  unfold rollback at ended ⊢
  split at ended
  · cases ended
  · cases ended
  · dsimp only at ended ⊢
    cases renamed : host.attempt (.rename (host.address dst) (host.address src)) (after.rename (host.address dst) (host.address src)) with
    | error source =>
      rw [renamed] at ended
      cases ended
    | ok back =>
      cases done with
      | same equal unchanged =>
        rcases rename_cases renamed with ⟨-, -, stays⟩ | ⟨other, -⟩
        · exact stays.trans unchanged
        · exact absurd (equal ▸ List.prefix_rfl) other
      | moved apart absent exists_ moves =>
        rcases rename_cases renamed with ⟨equal, -⟩ | ⟨-, -, moved⟩
        · exact absurd (equal ▸ List.prefix_rfl) apart
        · have vacant : ∀ path, host.address dst <+: path → before.node path = none := by
            intro path below
            by_cases here : host.address dst = path
            · rw [← here, absent]
            · exact before.node_below_eq_none below here (by rw [absent]; simp)
          exact FileTree.ext fun path => by rw [moved, FileTree.movedNode_back moves vacant]

/-- Rolling back a move that replaced its destination. -/
theorem rollback_some {before prepared aside after : WorktreeTree} (host : MoveHost)
    (taken : TakenAside (host.address dst) (host.backupDirectory dst) (host.backupPath dst) before prepared aside)
    (apart : ¬host.address src <+: host.address dst) (unused : ¬host.backupDirectory dst <+: host.address src)
    (moves : after.node = aside.movedNode (host.address src) (host.address dst)) :
    ((host.rollback after ⟨src, dst, some (host.backupPath dst)⟩).2 = .ok () ∧
        Keeps (fun path => path = host.backupDirectory dst ∧ host.faults (.removeDirectory path) = true) before
          (host.rollback after ⟨src, dst, some (host.backupPath dst)⟩).1) ∨
      (∃ error, (host.rollback after ⟨src, dst, some (host.backupPath dst)⟩).2 = .error error) ∧
        ∀ rest, (host.rollback after ⟨src, dst, some (host.backupPath dst)⟩).1.node (host.backupPath dst ++ rest) = before.node (host.address dst ++ rest) := by
  have kept (rest : TreePath) : after.node (host.backupPath dst ++ rest) = before.node (host.address dst ++ rest) := by
    rw [moves, taken.movedNode_backup apart unused (taken.directory_prefix.trans (List.prefix_append _ _)), taken.node_backup]
  unfold rollback
  split
  · exact Or.inr ⟨⟨_, rfl⟩, kept⟩
  · exact Or.inr ⟨⟨_, rfl⟩, kept⟩
  · dsimp only
    cases renamed : host.attempt (.rename (host.address dst) (host.address src)) (after.rename (host.address dst) (host.address src)) with
    | error source => exact Or.inr ⟨⟨_, rfl⟩, kept⟩
    | ok back =>
      dsimp only
      rcases rename_cases renamed with ⟨equal, -⟩ | ⟨-, -, moved⟩
      · exact absurd (equal ▸ List.prefix_rfl) apart
      · have same : back = aside := FileTree.ext fun path => by
          rw [moved, FileTree.movedNode_back moves fun path below => taken.node_destination below]
        rw [same]
        rcases restoreMoveDestination_cases host taken with ⟨restored, ran, keeps⟩ | ⟨source, ran⟩
        · rw [ran]
          exact Or.inl ⟨rfl, keeps⟩
        · rw [ran]
          exact Or.inr ⟨⟨_, rfl⟩, taken.node_backup⟩

/-! ## Committing -/

/-- A directory with something in it stays. -/
theorem discard_occupied {directory : TreePath} (inside : directory ≠ []) (occupied : tree.Occupied directory) : host.discard tree directory = tree := by
  unfold discard attempt
  split_ifs
  · rfl
  · rcases tree.removeDirectory_cases inside with ⟨after, -, vacant, -⟩ | ⟨-, -, ran⟩ | ⟨-, ran | ran⟩
    · exact absurd occupied vacant
    · rw [ran]
      rfl
    · rw [ran]
      rfl
    · rw [ran]
      rfl

/-- A leaf is removed unless that call fails. -/
theorem removeFile_leaf {path : TreePath} {content : WorktreeLeaf} (host : MoveHost) (found : tree.node path = some (.leaf content)) :
    (∃ source, host.attempt (.removeFile path) (tree.removeFile path) = .error source ∧ host.faults (.removeFile path) = true) ∨
      ∃ after, host.attempt (.removeFile path) (tree.removeFile path) = .ok after ∧ FileTree.Sets none path tree after := by
  unfold attempt
  split_ifs with fault
  · exact Or.inl ⟨_, rfl, fault⟩
  · rcases tree.removeFile_cases path with ⟨-, after, -, ran, step⟩ | ⟨missing, -⟩ | ⟨directory, -⟩
    · rw [ran]
      exact Or.inr ⟨after, rfl, step⟩
    · rw [found] at missing
      cases missing
    · rw [found] at directory
      cases directory

/-- What a commit leaves in the backup directory: nothing, or what it failed to remove. -/
def Leftover (host : MoveHost) (before final : WorktreeTree) (dst : GatPath) (path : TreePath) : Prop :=
  path = host.backupDirectory dst ∧ final.node path = some .directory ∧
      (host.faults (.removeFile (host.backupPath dst)) = true ∨ host.faults (.removeDirectory path) = true) ∨
    path = host.backupPath dst ∧ final.node path = before.node (host.address dst) ∧ host.faults (.removeFile path) = true

theorem commit_some {before after : WorktreeTree} (host : MoveHost) (src : GatPath) (inside : host.backupDirectory dst ≠ [])
    (leaf : ∃ content, before.node (host.address dst) = some (.leaf content))
    (contents : ∀ path, host.backupDirectory dst <+: path →
      after.node path = if path = host.backupDirectory dst then some .directory else if path = host.backupPath dst then before.node (host.address dst) else none)
    (path : TreePath) :
    (¬host.backupDirectory dst <+: path → (host.commit after ⟨src, dst, some (host.backupPath dst)⟩).node path = after.node path) ∧
      (host.backupDirectory dst <+: path → (host.commit after ⟨src, dst, some (host.backupPath dst)⟩).node path = none ∨
        Leftover host before (host.commit after ⟨src, dst, some (host.backupPath dst)⟩) dst path) := by
  obtain ⟨content, found⟩ := leaf
  have parent : (host.backupPath dst).dropLast = host.backupDirectory dst := List.dropLast_concat
  have below : host.backupDirectory dst <+: host.backupPath dst := List.prefix_append _ _
  have other : host.backupPath dst ≠ host.backupDirectory dst := by simp [backupPath]
  have here := contents _ List.prefix_rfl
  rw [if_pos rfl] at here
  have kept := contents _ below
  rw [if_neg other, if_pos rfl] at kept
  unfold commit
  dsimp only
  rw [parent]
  rcases host.removeFile_leaf (kept.trans found) with ⟨source, ran, fault⟩ | ⟨next, ran, step⟩
  · rw [ran]
    have occupied : after.Occupied (host.backupDirectory dst) :=
      ⟨host.backupPath dst, (after.mem_domain _).mpr (by rw [kept, found]; rfl), below, Ne.symm other⟩
    dsimp only
    rw [discard_occupied inside occupied]
    refine ⟨fun _ => rfl, fun within => ?_⟩
    by_cases top : path = host.backupDirectory dst
    · exact Or.inr (Or.inl ⟨top, top ▸ here, Or.inl fault⟩)
    · by_cases file : path = host.backupPath dst
      · exact Or.inr (Or.inr ⟨file, file ▸ kept, file ▸ fault⟩)
      · rw [contents path within, if_neg top, if_neg file]
        exact Or.inl rfl
  · rw [ran]
    have now : next.node (host.backupDirectory dst) = some .directory := by rw [step, if_neg (Ne.symm other), here]
    have vacant (path : TreePath) (within : host.backupDirectory dst <+: path) (top : path ≠ host.backupDirectory dst) : next.node path = none := by
      rw [step]
      split_ifs with file
      · rfl
      · rw [contents path within, if_neg top, if_neg file]
    have empty : ¬next.Occupied (host.backupDirectory dst) := by
      rintro ⟨path, listed, within, top⟩
      rw [next.mem_domain, vacant path within (Ne.symm top)] at listed
      cases listed
    have elsewhere (outside : ¬host.backupDirectory dst <+: path) : next.node path = after.node path := by
      rw [step, if_neg]
      rintro rfl
      exact outside below
    dsimp only
    rcases host.discard_cases inside now empty with removed | ⟨stays, fault⟩
    · have top (outside : ¬host.backupDirectory dst <+: path) : path ≠ host.backupDirectory dst := by
        rintro rfl
        exact outside List.prefix_rfl
      refine ⟨fun outside => by rw [removed, if_neg (top outside), elsewhere outside], fun within => Or.inl ?_⟩
      rw [removed]
      split_ifs with top
      · rfl
      · exact vacant path within top
    · rw [stays]
      refine ⟨elsewhere, fun within => ?_⟩
      by_cases top : path = host.backupDirectory dst
      · exact Or.inr (Or.inl ⟨top, top ▸ now, Or.inr (top ▸ fault)⟩)
      · exact Or.inl (vacant path within top)

/-! ## The result -/

/-- Nothing is lost, and new are only directories: those above the destination, and the backup directory when its removal fails. -/
def Unwound (host : MoveHost) (dst : GatPath) (before after : WorktreeTree) : Prop :=
  Keeps (fun path => path <+: (host.address dst).dropLast ∨ path = host.backupDirectory dst ∧ host.faults (.removeDirectory path) = true) before after

/-- The destination has the source's subtree, nothing is at the source, and nothing else changes but for directories above the
destination and a leftover backup. -/
structure Committed (host : MoveHost) (src dst : GatPath) (before after : WorktreeTree) : Prop where
  content : ∀ rest, after.node (host.address dst ++ rest) = before.node (host.address src ++ rest)
  gone : host.address src ≠ host.address dst → ∀ rest, after.node (host.address src ++ rest) = none
  elsewhere : ∀ path, ¬host.address src <+: path → ¬host.address dst <+: path →
    after.node path = before.node path ∨
      before.node path = none ∧ after.node path = some .directory ∧ path <+: (host.address dst).dropLast ∨
      before.node path = none ∧ Leftover host before after dst path

theorem unwound_of_keeps {before now after : WorktreeTree} (made : Keeps (· <+: (host.address dst).dropLast) before now)
    (keeps : Keeps (fun path => path = host.backupDirectory dst ∧ host.faults (.removeDirectory path) = true) now after) :
    Unwound host dst before after :=
  (made.mono fun _ => Or.inl).trans (keeps.mono fun _ => Or.inr)

theorem address_ne_nil (host : MoveHost) (path : GatPath) : host.address path ≠ [] := by
  intro empty
  have spelled : path.treePath = [] := List.map_eq_nil_iff.mp empty
  exact List.splitOn_ne_nil _ _ spelled

/-- Directories above the destination are not at or below it. -/
theorem not_above_parent (host : MoveHost) (dst : GatPath) (rest : TreePath) : ¬host.address dst ++ rest <+: (host.address dst).dropLast := by
  intro above
  have long := above.length_le
  have nonempty := List.length_pos_iff.mpr (host.address_ne_nil dst)
  rw [List.length_append, List.length_dropLast] at long
  omega

/-- What is at neither path of a move that is apart lies elsewhere. -/
theorem apart_source {src dst : TreePath} {now : WorktreeTree} (apart : ¬src <+: dst) (exists_ : (now.node src).isSome)
    (vacant : ∀ path, dst <+: path → now.node path = none) (rest : TreePath) : ¬dst <+: src ++ rest := by
  intro below
  have above := (List.prefix_or_prefix_of_prefix below (List.prefix_append src rest)).resolve_right apart
  rw [vacant src above] at exists_
  cases exists_

/-- A completed move, committed. -/
theorem committed {before now after : WorktreeTree} {backup : Option TreePath} (host : MoveHost) (unused : ¬host.backupDirectory dst <+: host.address src)
    (made : Keeps (· <+: (host.address dst).dropLast) before now)
    (done : CompletedMove (host.address src) (host.address dst) (host.backupDirectory dst) (host.backupPath dst) now after backup) :
    Committed host src dst before (host.commit after ⟨src, dst, backup⟩) := by
  have above (apart : ¬host.address src <+: host.address dst) (rest : TreePath) : now.node (host.address src ++ rest) = before.node (host.address src ++ rest) :=
    made.node_of_not fun parent => apart (((List.prefix_append _ _).trans parent).trans (List.dropLast_prefix _))
  cases done with
  | same equal unchanged =>
    subst unchanged
    refine ⟨fun rest => ?_, fun other => absurd equal other, fun path _ _ => (made path).imp_right Or.inl⟩
    rw [equal]
    exact made.node_of_not (host.not_above_parent dst rest)
  | moved apart absent exists_ moves =>
    have vacant (path : TreePath) (below : host.address dst <+: path) : now.node path = none := now.none_below below absent
    refine ⟨fun rest => ?_, fun _ rest => ?_, fun path outside outside' => ?_⟩
    · change after.node _ = _
      rw [moves, FileTree.movedNode, if_pos (List.prefix_append _ _), List.drop_left, above apart]
    · change after.node _ = _
      rw [moves, FileTree.movedNode, if_neg (apart_source apart exists_ vacant rest), if_pos (List.prefix_append _ _)]
    · have same : after.node path = now.node path := by rw [moves, FileTree.movedNode, if_neg outside', if_neg outside]
      change after.node path = _ ∨ _ ∧ after.node path = _ ∧ _ ∨ _
      rw [same]
      exact (made path).imp_right Or.inl
  | @replaced prepared aside taken apart exists_ moves =>
    have inside : host.backupDirectory dst ≠ [] := by simp [backupDirectory]
    have final := host.commit_some src inside taken.leaf fun path below => by
      rw [moves, taken.movedNode_backup apart unused below, taken.node_inside below]
    have separate := apart_source apart exists_ fun path below => taken.node_destination below
    refine ⟨fun rest => ?_, fun _ rest => ?_, fun path outside outside' => ?_⟩
    · have outside : ¬host.backupDirectory dst <+: host.address dst ++ rest := fun below => taken.beside_destination below (List.prefix_append _ _)
      have beside : ¬host.backupDirectory dst <+: host.address src ++ rest := fun below => taken.beside_source apart unused below (List.prefix_append _ _)
      rw [(final _).1 outside, moves, FileTree.movedNode, if_pos (List.prefix_append _ _), List.drop_left,
        taken.node_elsewhere (separate rest) beside, above apart]
    · have beside : ¬host.backupDirectory dst <+: host.address src ++ rest := fun below => taken.beside_source apart unused below (List.prefix_append _ _)
      rw [(final _).1 beside, moves, FileTree.movedNode, if_neg (separate rest), if_pos (List.prefix_append _ _)]
    · by_cases below : host.backupDirectory dst <+: path
      · have missing := made.node_eq_none (now.none_below below taken.fresh)
        rcases (final path).2 below with gone | left
        · exact Or.inl (gone.trans missing.symm)
        · refine Or.inr (Or.inr ⟨missing, left.imp_right fun file => ?_⟩)
          have kept := made.node_of_not (host.not_above_parent dst [])
          rw [List.append_nil] at kept
          exact ⟨file.1, file.2.1.trans kept, file.2.2⟩
      · rw [(final path).1 below, moves, FileTree.movedNode, if_neg outside', if_neg outside, taken.node_elsewhere outside' below]
        exact (made path).imp_right Or.inl

/-- Rolling back a completed move. -/
theorem rolled_back {before now after : WorktreeTree} {backup : Option TreePath} (host : MoveHost) (unused : ¬host.backupDirectory dst <+: host.address src)
    (made : Keeps (· <+: (host.address dst).dropLast) before now)
    (done : CompletedMove (host.address src) (host.address dst) (host.backupDirectory dst) (host.backupPath dst) now after backup) :
    match host.rollback after ⟨src, dst, backup⟩ with
    | (back, .ok ()) => host.Unwound dst before back
    | (back, .error _) => ∀ path, backup = some path → ∀ rest, back.node (path ++ rest) = before.node (host.address dst ++ rest) := by
  cases backup with
  | none =>
    have restored := host.rollback_none done
    generalize host.rollback after ⟨src, dst, none⟩ = ended at restored ⊢
    obtain ⟨back, error | ⟨⟩⟩ := ended
    · exact nofun
    · obtain rfl : back = now := restored rfl
      exact made.mono fun _ => Or.inl
  | some path =>
    cases done with
    | replaced taken apart exists_ moves =>
      have restored := host.rollback_some taken apart unused moves
      generalize host.rollback after ⟨src, dst, some (host.backupPath dst)⟩ = ended at restored ⊢
      obtain ⟨back, error | ⟨⟩⟩ := ended
      · intro path same rest
        rcases restored with ⟨ok, -⟩ | ⟨-, kept⟩
        · cases ok
        · rw [← Option.some.inj same, kept rest]
          exact made.node_of_not (host.not_above_parent dst rest)
      · rcases restored with ⟨-, keeps⟩ | ⟨⟨error, failed⟩, -⟩
        · exact unwound_of_keeps made keeps
        · cases failed

/-- The repository root is there. -/
theorem createDirAll_root {host : MoveHost} {tree : WorktreeTree} {path : TreePath} (root : path = [])
    (quiet : host.faults (.createDirectory path false) = false) (quiet' : host.faults (.probeDirectory path false) = false) :
    host.createDirAll tree path = (tree, .ok ()) := by
  subst root
  have refused : tree.makeDirectory [] = .error .alreadyExists := by
    rcases tree.makeDirectory_cases [] with ⟨failure, failed⟩ | ⟨after, missing, -⟩
    · unfold FileTree.makeDirectory at failed ⊢
      split
      · rfl
      · next missing =>
        rw [tree.root] at missing
        cases missing
    · rw [tree.root] at missing
      cases missing
  have present : host.isDirectory tree [] false = true := by
    have found : tree.lookup [] = .ok .directory := tree.lookup_eq_ok_iff.mpr tree.root
    unfold isDirectory attempt
    rw [quiet', found]
    rfl
  rw [createDirAll, attempt, quiet, refused, if_neg (by decide)]
  dsimp only [Except.mapError]
  rw [if_neg (by simp), present, if_pos rfl]

end MoveHost

/-- A move that fails, or that is rolled back, loses nothing; a replaced destination that cannot be restored is at its backup path;
and a committed move changes nothing else. Any calls may fail, when rolling back or committing other ones than before. The random
name of the temporary directory must not be one that the source path goes through. -/
theorem move_keeps_content (host : MoveHost) (tree : WorktreeTree) (src dst : GatPath) (unused : ¬host.backupDirectory dst <+: host.address src) :
    match host.movePath tree src dst with
    | (after, .error (.restoreDestination backup _)) => ∀ rest, after.node (backup ++ rest) = tree.node (host.address dst ++ rest)
    | (after, .error _) => host.Unwound dst tree after
    | (after, .ok pending) =>
      (∀ faults : MoveCall → Bool,
        match ({ host with faults := faults }).rollback after pending with
        | (back, .ok ()) => ({ host with faults := faults }).Unwound dst tree back
        | (back, .error _) => ∀ backup, pending.backup = some backup → ∀ rest, back.node (backup ++ rest) = tree.node (host.address dst ++ rest)) ∧
      ∀ faults : MoveCall → Bool, ({ host with faults := faults }).Committed src dst tree (({ host with faults := faults }).commit after pending) := by
  obtain ⟨before, made, ended⟩ := host.movePath_ended tree src dst
  generalize host.movePath tree src dst = result at ended ⊢
  cases ended with
  | @failed after error other keeps =>
    have unwound := MoveHost.unwound_of_keeps made keeps
    cases error with
    | restoreDestination backup source => exact absurd rfl (other backup source)
    | path source => exact unwound
    | createParent path source => exact unwound
    | rename src dst source => exact unwound
  | stranded taken =>
    intro rest
    rw [taken.node_backup rest]
    exact made.node_of_not (host.not_above_parent dst rest)
  | completed done =>
    constructor
    · intro faults
      exact ({ host with faults := faults }).rolled_back unused made done
    · intro faults
      exact ({ host with faults := faults }).committed unused made done

/-- The file `s` moves over `d`. -/
theorem move_keeps_content_replaced : ∃ (host : MoveHost) (tree after : WorktreeTree) (src dst : GatPath) (pending : PendingMove),
    host.movePath tree src dst = (after, .ok pending) ∧ pending.backup.isSome ∧ tree.node [ascii "s"] = some (.leaf (.file (ascii "new"))) ∧
      host.Committed src dst tree (host.commit after pending) := by
  obtain ⟨host, isHost⟩ : ∃ host : MoveHost, host = ⟨id, fun _ => false, ascii "x"⟩ := ⟨_, rfl⟩
  obtain ⟨single, isSingle⟩ : ∃ single : WorktreeTree, single = FileTree.empty.withNode [ascii "d"] (.leaf (.file (ascii "old"))) (by decide) rfl rfl :=
    ⟨_, rfl⟩
  obtain ⟨tree, isTree⟩ : ∃ tree : WorktreeTree, tree = single.withNode [ascii "s"] (.leaf (.file (ascii "new"))) (by decide) (by rw [isSingle]; rfl)
    (by rw [isSingle]; rfl) := ⟨_, rfl⟩
  obtain ⟨src, isSrc⟩ : ∃ path : GatPath, path = ⟨ascii "s", Utf8.Valid.of_ascii (Utf8.forall_mem_of_all (by decide)), rfl⟩ := ⟨_, rfl⟩
  obtain ⟨dst, isDst⟩ : ∃ path : GatPath, path = ⟨ascii "d", Utf8.Valid.of_ascii (Utf8.forall_mem_of_all (by decide)), rfl⟩ := ⟨_, rfl⟩
  have above : host.createDirAll tree (host.address dst).dropLast = (tree, .ok ()) :=
    MoveHost.createDirAll_root (by subst isHost isDst; rfl) (by subst isHost; rfl) (by subst isHost; rfl)
  have moves : (host.movePath tree src dst).2 = .ok ⟨src, dst, some [ascii ".gat-move-x", ascii "destination"]⟩ := by
    rw [MoveHost.movePath, above]
    subst isHost isTree isSingle isSrc isDst
    rfl
  obtain ⟨after, run⟩ : ∃ after, host.movePath tree src dst = (after, .ok ⟨src, dst, some [ascii ".gat-move-x", ascii "destination"]⟩) :=
    ⟨_, Prod.ext rfl moves⟩
  have result := move_keeps_content host tree src dst (by subst isHost isSrc isDst; decide)
  rw [run] at result
  refine ⟨host, tree, after, src, dst, _, run, rfl, ?_, result.2 host.faults⟩
  subst isTree isSingle
  rfl

/-- A temporary directory that could not be removed stays when a move fails. -/
theorem failed_move_keeps_temporary : ¬∀ (host : MoveHost) (tree : WorktreeTree) (src dst : GatPath) (error : MovePathError),
    ¬host.backupDirectory dst <+: host.address src → (host.movePath tree src dst).2 = .error error →
      (∀ backup source, error ≠ .restoreDestination backup source) → Keeps (· <+: (host.address dst).dropLast) tree (host.movePath tree src dst).1 := by
  intro claim
  obtain ⟨host, isHost⟩ : ∃ host : MoveHost, host = ⟨id, fun call => match call with | .removeDirectory _ => true | _ => false, ascii "x"⟩ := ⟨_, rfl⟩
  obtain ⟨tree, isTree⟩ : ∃ tree : WorktreeTree, tree = FileTree.empty.withNode [ascii "d"] (.leaf .other) (by decide) rfl rfl := ⟨_, rfl⟩
  obtain ⟨src, isSrc⟩ : ∃ path : GatPath, path = ⟨ascii "s", Utf8.Valid.of_ascii (Utf8.forall_mem_of_all (by decide)), rfl⟩ := ⟨_, rfl⟩
  obtain ⟨dst, isDst⟩ : ∃ path : GatPath, path = ⟨ascii "d", Utf8.Valid.of_ascii (Utf8.forall_mem_of_all (by decide)), rfl⟩ := ⟨_, rfl⟩
  have above : host.createDirAll tree (host.address dst).dropLast = (tree, .ok ()) :=
    MoveHost.createDirAll_root (by subst isHost isDst; rfl) (by subst isHost; rfl) (by subst isHost; rfl)
  have failed : (host.movePath tree src dst).2 = .error (.rename src dst (.failure .notFound)) := by
    rw [MoveHost.movePath, above]
    subst isHost isTree isSrc isDst
    rfl
  have remains : (host.movePath tree src dst).1.node [ascii ".gat-move-x"] = some .directory := by
    rw [MoveHost.movePath, above]
    subst isHost isTree isSrc isDst
    rfl
  have keeps := claim host tree src dst _ (by subst isHost isSrc isDst; decide) failed nofun
  rcases keeps [ascii ".gat-move-x"] with same | ⟨-, -, above⟩
  · rw [remains] at same
    subst isTree
    cases same
  · subst isHost isDst
    revert above
    decide

end Gat
