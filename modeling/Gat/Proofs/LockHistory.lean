import Gat.Model.LockHistory
import Gat.Proofs.LockStore
import Gat.Proofs.DesiredRefresh

/-! # Historical locks are read completely

A content that was met before has been read before: every lock blob among the seen contents has its rows among the
visited ones, and every lock tree among them has all its blobs seen. Skipping therefore loses nothing, and a walk
succeeds exactly when every lock that it selects can be read on its own.
-/

namespace Gat

/-- A complete file is visited row by row, or rejected. -/
theorem visitFilteredMatching_cases (kernel : Kernel) {text : Str} (valid : Utf8.Valid text) (keep : Str → Bool) :
    (∃ entries, FileHolds text entries ∧
        visitFilteredMatching kernel text keep = .ok (entries.filter fun entry => keep entry.path.text)) ∨
      (∃ error, visitFilteredMatching kernel text keep = Outcome.fail error) ∧ ∀ entries, ¬FileHolds text entries := by
  unfold visitFilteredMatching
  rcases decode_cases kernel valid with ⟨view, rows, decoded, document, holds, certified⟩ | ⟨⟨failure, rejected⟩, other⟩
  · left
    obtain ⟨typed, rfl⟩ := certified.exists_decodedRows
    obtain ⟨entries, rfl⟩ : ∃ entries, viewRows entries = typed :=
      ⟨typed.map fun row => ⟨row.1, row.2⟩, by simp [viewRows, Function.comp_def]⟩
    have same : decodedRows (viewRows entries) = decodedEntries entries := by
      rw [decodedRows, viewRows, List.map_map]
      rfl
    refine ⟨entries, ⟨valid, same ▸ document⟩, ?_⟩
    rw [ValidatedLockFile.parse, decoded, Outcome.ok_bind, semanticRows_eq holds, Outcome.ok_bind, Outcome.pure_eq_ok, viewRows,
      List.filter_map, List.map_map]
    exact congrArg _ (List.map_id _)
  · right
    rw [ValidatedLockFile.parse, rejected]
    exact ⟨⟨_, rfl⟩, fun entries holds => other _ holds.document⟩

namespace GitObjects

variable (objects : GitObjects) {kernel : Kernel} {keep : Str → Bool}

/-- The blob is a lock file with these entries. -/
def BlobHolds (blob : GitObjectId) (entries : List Entry) : Prop := ∃ text, objects.findBlob blob = some text ∧ FileHolds text entries

/-- The lock of the commit can be read. -/
def Readable (commit : GitObjectId) : Prop :=
  ∃ blobs, objects.lockBlobs commit = .ok blobs ∧ ∀ blob ∈ blobs, ∃ entries, objects.BlobHolds blob entries

/-- The entry is in the lock of the commit. -/
def Holds (commit : GitObjectId) (entry : Entry) : Prop :=
  ∃ blobs, objects.lockBlobs commit = .ok blobs ∧ ∃ blob ∈ blobs, ∃ entries, objects.BlobHolds blob entries ∧ entry ∈ entries

variable {objects}

theorem BlobHolds.unique {blob : GitObjectId} {entries others : List Entry} (holds : objects.BlobHolds blob entries)
    (holds' : objects.BlobHolds blob others) : entries = others := by
  obtain ⟨text, found, document⟩ := holds
  obtain ⟨_, again, other⟩ := holds'
  cases found.symm.trans again
  exact document.unique other

theorem require_eq_ok_iff {α : Type} {action : String} {found : Option α} {value : α} :
    require action found = .ok value ↔ found = some value := by
  cases found <;> simp [require]

theorem visitLockBlob_eq_ok_iff {blob : GitObjectId} {rows : List Entry} :
    objects.visitLockBlob kernel keep blob = .ok rows ↔
      ∃ entries, objects.BlobHolds blob entries ∧ rows = entries.filter fun entry => keep entry.path.text := by
  simp only [visitLockBlob, Outcome.bind_eq_ok_iff, require_eq_ok_iff]
  constructor
  · rintro ⟨text, found, visited⟩
    split_ifs at visited with valid
    · rcases visitFilteredMatching_cases kernel valid keep with ⟨entries, holds, same⟩ | ⟨⟨error, failed⟩, -⟩
      · rw [same] at visited
        cases visited
        exact ⟨entries, ⟨text, found, holds⟩, rfl⟩
      · rw [failed] at visited
        cases visited
    · cases visited
  · rintro ⟨entries, ⟨text, found, holds⟩, rfl⟩
    refine ⟨text, found, ?_⟩
    rw [if_pos holds.utf8]
    rcases visitFilteredMatching_cases kernel holds.utf8 keep with ⟨others, held, same⟩ | ⟨-, none⟩
    · rw [same, held.unique holds]
      rfl
    · exact absurd holds (none entries)

/-! ## What the seen contents say -/

variable (objects keep) in
/-- The rows visited are those of the seen lock blobs, blob by blob. The trees are the contents that stand for a tree. -/
structure Covers (trees : Set GitObjectId) (blobs : Set GitObjectId) (visit : HistoryVisit) (ids : List GitObjectId)
    (rows : List (List Entry)) : Prop where
  distinct : ids.Nodup
  holds : List.Forall₂ objects.BlobHolds ids rows
  visited : visit.visited = rows.flatten.filter fun entry => keep entry.path.text
  seen : ∀ id ∈ ids, id ∈ visit.seenLockContent ∧ id ∈ blobs
  all : ∀ id ∈ visit.seenLockContent, id ∉ trees → id ∈ ids

namespace Covers

variable {trees blobs : Set GitObjectId} {visit : HistoryVisit} {ids : List GitObjectId} {rows : List (List Entry)}

theorem empty : Covers objects keep trees blobs ⟨∅, []⟩ [] [] := ⟨.nil, .nil, rfl, nofun, by simp⟩

/-- A tree may be marked before its files are read. -/
theorem mark (covers : Covers objects keep trees blobs visit ids rows) {id : GitObjectId} (isTree : id ∈ trees) :
    Covers objects keep trees blobs { visit with seenLockContent := insert id visit.seenLockContent } ids rows where
  distinct := covers.distinct
  holds := covers.holds
  visited := covers.visited
  seen other listed := ⟨Finset.mem_insert_of_mem (covers.seen other listed).1, (covers.seen other listed).2⟩
  all other seen notTree := by
    rcases Finset.mem_insert.mp seen with rfl | before
    · exact absurd isTree notTree
    · exact covers.all other before notTree

/-- A new blob is read. -/
theorem blob (covers : Covers objects keep trees blobs visit ids rows) {id : GitObjectId} (isBlob : id ∈ blobs)
    (new : id ∉ visit.seenLockContent) {entries : List Entry} (holds : objects.BlobHolds id entries) :
    Covers objects keep trees blobs ⟨insert id visit.seenLockContent, visit.visited ++ entries.filter fun entry => keep entry.path.text⟩
      (ids ++ [id]) (rows ++ [entries]) where
  distinct := by
    rw [List.nodup_append]
    refine ⟨covers.distinct, List.nodup_singleton id, fun other listed last isLast => ?_⟩
    rintro rfl
    rw [List.mem_singleton.mp isLast] at listed
    exact new (covers.seen id listed).1
  holds := List.rel_append covers.holds (.cons holds .nil)
  visited := by rw [List.flatten_append, List.filter_append, covers.visited, List.flatten_singleton]
  seen other listed := by
    rcases List.mem_append.mp listed with before | last
    · exact ⟨Finset.mem_insert_of_mem (covers.seen other before).1, (covers.seen other before).2⟩
    · obtain rfl := List.mem_singleton.mp last
      exact ⟨Finset.mem_insert_self _ _, isBlob⟩
  all other seen notTree := by
    rcases Finset.mem_insert.mp seen with rfl | before
    · exact List.mem_append_right _ (List.mem_singleton_self _)
    · exact List.mem_append_left _ (covers.all other before notTree)

end Covers

section Walk

variable {trees blobs : Set GitObjectId}

/-- Contents are only added, and only lock blobs are. -/
structure Grows (blobs : Set GitObjectId) (visit next : HistoryVisit) : Prop where
  subset : visit.seenLockContent ⊆ next.seenLockContent
  fresh : ∀ id ∈ next.seenLockContent, id ∈ visit.seenLockContent ∨ id ∈ blobs

theorem Grows.refl (visit : HistoryVisit) : Grows blobs visit visit := ⟨Finset.Subset.refl _, fun _ => Or.inl⟩

theorem Grows.trans {visit next last : HistoryVisit} (first : Grows blobs visit next) (second : Grows blobs next last) :
    Grows blobs visit last where
  subset := first.subset.trans second.subset
  fresh id seen := (second.fresh id seen).elim (first.fresh id) Or.inr

/-- One file of a tree: a blob is seen afterwards. -/
theorem visitShard_covers {visit next : HistoryVisit} {ids : List GitObjectId} {rows : List (List Entry)}
    (covers : Covers objects keep trees blobs visit ids rows) {file : GitTreeEntry}
    (listed : file.mode.isBlob → file.objectId ∈ blobs) (visited : objects.visitShard kernel keep visit file = .ok next) :
    (∃ ids rows, Covers objects keep trees blobs next ids rows) ∧ Grows blobs visit next ∧ (file.mode.isBlob → file.objectId ∈ next.seenLockContent) := by
  unfold visitShard at visited
  split_ifs at visited with new
  · obtain ⟨_, read, same⟩ := Outcome.bind_eq_ok_iff.mp visited
    cases same
    obtain ⟨entries, holds, rfl⟩ := visitLockBlob_eq_ok_iff.mp read
    refine ⟨⟨_, _, covers.blob (listed new.1) new.2 holds⟩, ⟨Finset.subset_insert _ _, ?_⟩, fun _ => Finset.mem_insert_self _ _⟩
    intro id seen
    rcases Finset.mem_insert.mp seen with rfl | before
    · exact Or.inr (listed new.1)
    · exact Or.inl before
  · cases visited
    refine ⟨⟨ids, rows, covers⟩, .refl _, fun isBlob => ?_⟩
    by_contra unseen
    exact new ⟨isBlob, unseen⟩

/-- All files of a tree, by induction on the list. -/
theorem foldlM_visitShard_covers {files : List GitTreeEntry} {visit next : HistoryVisit} {ids : List GitObjectId}
    {rows : List (List Entry)} (covers : Covers objects keep trees blobs visit ids rows)
    (listed : ∀ file ∈ files, file.mode.isBlob → file.objectId ∈ blobs)
    (visited : files.foldlM (objects.visitShard kernel keep) visit = .ok next) :
    (∃ ids rows, Covers objects keep trees blobs next ids rows) ∧ Grows blobs visit next ∧
      ∀ file ∈ files, file.mode.isBlob → file.objectId ∈ next.seenLockContent := by
  induction files generalizing visit ids rows with
  | nil =>
    cases visited
    exact ⟨⟨ids, rows, covers⟩, .refl _, by simp⟩
  | cons file files ih =>
    rw [List.forall_mem_cons] at listed
    rw [List.foldlM_cons] at visited
    obtain ⟨between, first, rest⟩ := Outcome.bind_eq_ok_iff.mp visited
    obtain ⟨⟨_, _, covers⟩, grown, here⟩ := visitShard_covers covers listed.1 first
    obtain ⟨covers, more, later⟩ := ih covers listed.2 rest
    refine ⟨covers, grown.trans more, List.forall_mem_cons.mpr ⟨fun isBlob => more.subset (here isBlob), later⟩⟩

end Walk

/-! ## The walk -/

variable (objects) in
/-- The contents that stand for a tree in some selected commit. -/
def lockTrees (selected : List GitObjectId) : Set GitObjectId :=
  {id | ∃ commit ∈ selected, ∃ entry, objects.lockEntry commit = .ok (some entry) ∧ entry.mode.isTree ∧ entry.objectId = id}

variable (objects) in
/-- The lock blobs of the selected commits. -/
def selectedBlobs (selected : List GitObjectId) : Set GitObjectId :=
  {id | ∃ commit ∈ selected, ∃ blobs, objects.lockBlobs commit = .ok blobs ∧ id ∈ blobs}

section Selected

variable {selected : List GitObjectId} {commit : GitObjectId} {entry : GitTreeEntry}

theorem not_tree_of_blob {mode : EntryMode} (isBlob : mode.isBlob) : mode.isTree = false := by
  cases mode <;> first | rfl | exact nomatch isBlob

theorem lockBlobs_none (none : objects.lockEntry commit = .ok none) : objects.lockBlobs commit = .ok [] := by
  rw [lockBlobs, none]
  rfl

theorem lockBlobs_blob (found : objects.lockEntry commit = .ok (some entry)) (isBlob : entry.mode.isBlob) :
    objects.lockBlobs commit = .ok [entry.objectId] := by
  rw [lockBlobs, found, Outcome.ok_bind]
  dsimp only
  rw [if_pos isBlob]
  rfl

theorem lockBlobs_tree (found : objects.lockEntry commit = .ok (some entry)) (isTree : entry.mode.isTree) {files : List GitTreeEntry}
    (traversed : objects.shardFiles entry.objectId = .ok files) :
    objects.lockBlobs commit = .ok ((files.filter fun file => file.mode.isBlob).map GitTreeEntry.objectId) := by
  have notBlob : ¬entry.mode.isBlob := fun isBlob => by rw [not_tree_of_blob isBlob] at isTree; cases isTree
  rw [lockBlobs, found, Outcome.ok_bind]
  dsimp only
  rw [if_neg notBlob, if_pos isTree, traversed]
  rfl

theorem Regular.not_mem_lockTrees (regular : objects.Regular selected) {id : GitObjectId} (isBlob : id ∈ objects.selectedBlobs selected) :
    id ∉ objects.lockTrees selected := by
  rintro ⟨commit, member, entry, found, isTree, rfl⟩
  obtain ⟨other, isOther, blobs, read, listed⟩ := isBlob
  exact regular.apart commit member entry found isTree other isOther blobs read listed

variable (objects) in
/-- The blobs of the seen trees are seen. -/
def Opened (selected : List GitObjectId) (visit : HistoryVisit) : Prop :=
  ∀ id ∈ visit.seenLockContent, id ∈ objects.lockTrees selected →
    ∃ files, objects.shardFiles id = .ok files ∧ ∀ file ∈ files, file.mode.isBlob → file.objectId ∈ visit.seenLockContent

/-- One commit: its lock is seen afterwards, in whatever commit it was met first. -/
theorem visitCommit_covers (regular : objects.Regular selected) {visit next : HistoryVisit} {ids : List GitObjectId}
    {rows : List (List Entry)} (member : commit ∈ selected)
    (covers : Covers objects keep (objects.lockTrees selected) (objects.selectedBlobs selected) visit ids rows)
    (opened : objects.Opened selected visit) (visited : objects.visitCommit kernel keep visit commit = .ok next) :
    (∃ ids rows, Covers objects keep (objects.lockTrees selected) (objects.selectedBlobs selected) next ids rows) ∧ objects.Opened selected next ∧
      visit.seenLockContent ⊆ next.seenLockContent ∧
      ∃ found, objects.lockEntry commit = .ok found ∧ ∀ entry ∈ found, entry.objectId ∈ next.seenLockContent := by
  obtain ⟨found, looked, visited⟩ := Outcome.bind_eq_ok_iff.mp visited
  cases found with
  | none =>
    cases visited
    exact ⟨⟨ids, rows, covers⟩, opened, Finset.Subset.refl _, none, looked, by simp⟩
  | some entry =>
    dsimp only at visited
    split_ifs at visited with seen isBlob isTree
    · cases visited
      exact ⟨⟨ids, rows, covers⟩, opened, Finset.Subset.refl _, some entry, looked, by simpa using seen⟩
    · obtain ⟨_, read, same⟩ := Outcome.bind_eq_ok_iff.mp visited
      cases same
      obtain ⟨entries, holds, rfl⟩ := visitLockBlob_eq_ok_iff.mp read
      have listed : entry.objectId ∈ objects.selectedBlobs selected :=
        ⟨commit, member, _, lockBlobs_blob looked isBlob, List.mem_singleton_self _⟩
      refine ⟨⟨_, _, covers.blob listed seen holds⟩, ?_, Finset.subset_insert _ _, some entry, looked, by simp⟩
      intro id isSeen isTree
      rcases Finset.mem_insert.mp isSeen with rfl | before
      · exact absurd isTree (regular.not_mem_lockTrees listed)
      · obtain ⟨files, traversed, each⟩ := opened id before isTree
        exact ⟨files, traversed, fun file isFile blob => Finset.mem_insert_of_mem (each file isFile blob)⟩
    · obtain ⟨files, traversed, walked⟩ := Outcome.bind_eq_ok_iff.mp visited
      have here : entry.objectId ∈ objects.lockTrees selected := ⟨commit, member, entry, looked, isTree, rfl⟩
      have listed : ∀ file ∈ files, file.mode.isBlob → file.objectId ∈ objects.selectedBlobs selected := by
        intro file isFile blob
        refine ⟨commit, member, _, lockBlobs_tree looked isTree traversed, ?_⟩
        exact List.mem_map_of_mem (List.mem_filter.mpr ⟨isFile, blob⟩)
      obtain ⟨covers, grown, each⟩ := foldlM_visitShard_covers (covers.mark here) listed walked
      refine ⟨covers, ?_, (Finset.subset_insert _ _).trans grown.subset, some entry, looked, ?_⟩
      · intro id isSeen isTree
        rcases grown.fresh id isSeen with before | blob
        · rcases Finset.mem_insert.mp before with rfl | before
          · exact ⟨files, traversed, each⟩
          · obtain ⟨others, found, all⟩ := opened id before isTree
            exact ⟨others, found, fun file isFile blob => grown.subset (Finset.mem_insert_of_mem (all file isFile blob))⟩
        · exact absurd isTree (regular.not_mem_lockTrees blob)
      · intro other isOther
        cases isOther
        exact grown.subset (Finset.mem_insert_self _ _)
    · exact (regular.mode commit member entry looked).elim (fun blob => absurd blob isBlob) fun tree => absurd tree isTree

/-- All commits, by induction on the list of those that are left. -/
theorem foldlM_visitCommit_covers (regular : objects.Regular selected) {commits : List GitObjectId} (some_ : ∀ commit ∈ commits, commit ∈ selected)
    {visit next : HistoryVisit} {ids : List GitObjectId} {rows : List (List Entry)}
    (covers : Covers objects keep (objects.lockTrees selected) (objects.selectedBlobs selected) visit ids rows)
    (opened : objects.Opened selected visit) (visited : commits.foldlM (objects.visitCommit kernel keep) visit = .ok next) :
    (∃ ids rows, Covers objects keep (objects.lockTrees selected) (objects.selectedBlobs selected) next ids rows) ∧ objects.Opened selected next ∧
      visit.seenLockContent ⊆ next.seenLockContent ∧
      ∀ commit ∈ commits, ∃ found, objects.lockEntry commit = .ok found ∧ ∀ entry ∈ found, entry.objectId ∈ next.seenLockContent := by
  induction commits generalizing visit ids rows with
  | nil =>
    cases visited
    exact ⟨⟨ids, rows, covers⟩, opened, Finset.Subset.refl _, by simp⟩
  | cons commit commits ih =>
    rw [List.forall_mem_cons] at some_
    rw [List.foldlM_cons] at visited
    obtain ⟨between, first, rest⟩ := Outcome.bind_eq_ok_iff.mp visited
    obtain ⟨⟨_, _, covers⟩, opened, grown, found, looked, seen⟩ := visitCommit_covers regular some_.1 covers opened first
    obtain ⟨covers, opened, more, later⟩ := ih some_.2 covers opened rest
    refine ⟨covers, opened, grown.trans more, List.forall_mem_cons.mpr ⟨⟨found, looked, ?_⟩, later⟩⟩
    exact fun entry isEntry => more (seen entry isEntry)

/-- All blobs of a seen lock are seen. -/
theorem blobs_seen (regular : objects.Regular selected) (member : commit ∈ selected) {visit : HistoryVisit}
    (opened : objects.Opened selected visit) {found : Option GitTreeEntry} (looked : objects.lockEntry commit = .ok found)
    (seen : ∀ entry ∈ found, entry.objectId ∈ visit.seenLockContent) :
    ∃ blobs, objects.lockBlobs commit = .ok blobs ∧ ∀ blob ∈ blobs, blob ∈ visit.seenLockContent := by
  cases found with
  | none => exact ⟨[], lockBlobs_none looked, by simp⟩
  | some entry =>
    have here := seen entry rfl
    rcases regular.mode commit member entry looked with isBlob | isTree
    · refine ⟨_, lockBlobs_blob looked isBlob, fun blob listed => ?_⟩
      rwa [List.mem_singleton.mp listed]
    · obtain ⟨files, traversed, each⟩ := opened _ here ⟨commit, member, entry, looked, isTree, rfl⟩
      refine ⟨_, lockBlobs_tree looked isTree traversed, fun blob listed => ?_⟩
      obtain ⟨file, isFile, rfl⟩ := List.mem_map.mp listed
      rw [List.mem_filter] at isFile
      exact each file isFile.1 isFile.2

/-- A walk that succeeds has read every selected lock blob once. -/
theorem visitHistoryLockEntries_reads (regular : objects.Regular selected) {visited : List Entry}
    (walked : objects.visitHistoryLockEntries kernel keep selected = .ok visited) :
    (∀ commit ∈ selected, ∃ blobs, objects.lockBlobs commit = .ok blobs) ∧
      ∃ ids rows, ids.Nodup ∧ (∀ id, id ∈ ids ↔ id ∈ objects.selectedBlobs selected) ∧ List.Forall₂ objects.BlobHolds ids rows ∧
        visited = rows.flatten.filter fun entry => keep entry.path.text := by
  obtain ⟨visit, folded, same⟩ := Outcome.bind_eq_ok_iff.mp walked
  cases same
  obtain ⟨⟨ids, rows, covers⟩, opened, -, looked⟩ :=
    foldlM_visitCommit_covers regular (fun _ => id) Covers.empty (fun id seen => by simp at seen) folded
  have read : ∀ commit ∈ selected, ∃ blobs, objects.lockBlobs commit = .ok blobs ∧ ∀ blob ∈ blobs, blob ∈ visit.seenLockContent :=
    fun commit member =>
      have ⟨_, entry, seen⟩ := looked commit member
      blobs_seen regular member opened entry seen
  refine ⟨fun commit member => (read commit member).imp fun _ => And.left, ids, rows, covers.distinct, fun id => ⟨fun listed => (covers.seen id listed).2, ?_⟩,
    covers.holds, covers.visited⟩
  rintro ⟨commit, member, blobs, same, listed⟩
  obtain ⟨_, again, seen⟩ := read commit member
  cases same.symm.trans again
  exact covers.all id (seen id listed) (regular.not_mem_lockTrees ⟨commit, member, blobs, same, listed⟩)

/-- A walk that succeeds has read every selected lock, and visits the rows of exactly these. -/
theorem visitHistoryLockEntries_ok (regular : objects.Regular selected) {visited : List Entry}
    (walked : objects.visitHistoryLockEntries kernel keep selected = .ok visited) :
    (∀ commit ∈ selected, objects.Readable commit) ∧
      ∀ entry, entry ∈ visited ↔ keep entry.path.text ∧ ∃ commit ∈ selected, objects.Holds commit entry := by
  obtain ⟨read, ids, rows, -, listed, holds, rfl⟩ := visitHistoryLockEntries_reads regular walked
  refine ⟨fun commit member => ?_, fun entry => ?_⟩
  · obtain ⟨blobs, same⟩ := read commit member
    refine ⟨blobs, same, fun blob isBlob => ?_⟩
    obtain ⟨entries, -, document⟩ := List.exists_of_forall₂ holds ((listed blob).mpr ⟨commit, member, blobs, same, isBlob⟩)
    exact ⟨entries, document⟩
  · rw [List.mem_filter, List.mem_flatten, and_comm]
    refine and_congr_right fun _ => ⟨?_, ?_⟩
    · rintro ⟨entries, isRows, isEntry⟩
      obtain ⟨id, isId, document⟩ := List.exists_of_forall₂ holds.flip isRows
      obtain ⟨commit, member, blobs, same, isBlob⟩ := (listed id).mp isId
      exact ⟨commit, member, blobs, same, id, isBlob, entries, document, isEntry⟩
    · rintro ⟨commit, member, blobs, same, blob, isBlob, entries, document, isEntry⟩
      obtain ⟨others, isRows, document'⟩ := List.exists_of_forall₂ holds ((listed blob).mpr ⟨commit, member, blobs, same, isBlob⟩)
      cases document.unique document'
      exact ⟨entries, isRows, isEntry⟩

/-! ## A walk over readable locks -/

theorem foldlM_visitShard_ok {files : List GitTreeEntry} (each : ∀ file ∈ files, file.mode.isBlob → ∃ entries, objects.BlobHolds file.objectId entries)
    (visit : HistoryVisit) : ∃ next, files.foldlM (objects.visitShard kernel keep) visit = .ok next := by
  induction files generalizing visit with
  | nil => exact ⟨visit, rfl⟩
  | cons file files ih =>
    rw [List.forall_mem_cons] at each
    rw [List.foldlM_cons]
    unfold visitShard
    split_ifs with new
    · obtain ⟨entries, holds⟩ := each.1 new.1
      rw [visitLockBlob_eq_ok_iff.mpr ⟨entries, holds, rfl⟩]
      exact ih each.2 _
    · exact ih each.2 visit

theorem visitCommit_ok (readable : objects.Readable commit) (visit : HistoryVisit) :
    ∃ next, objects.visitCommit kernel keep visit commit = .ok next := by
  obtain ⟨blobs, read, each⟩ := readable
  obtain ⟨found, looked, rest⟩ := Outcome.bind_eq_ok_iff.mp read
  unfold visitCommit
  rw [looked, Outcome.ok_bind]
  cases found with
  | none => exact ⟨visit, rfl⟩
  | some entry =>
    dsimp only at rest ⊢
    by_cases seen : entry.objectId ∈ visit.seenLockContent
    · exact ⟨visit, by rw [if_pos seen]; rfl⟩
    rw [if_neg seen]
    split_ifs at rest ⊢ with isBlob isTree
    · cases rest
      obtain ⟨entries, holds⟩ := each _ (List.mem_singleton_self _)
      rw [visitLockBlob_eq_ok_iff.mpr ⟨entries, holds, rfl⟩]
      exact ⟨_, rfl⟩
    · obtain ⟨files, traversed, same⟩ := Outcome.bind_eq_ok_iff.mp rest
      cases same
      rw [traversed, Outcome.ok_bind]
      refine foldlM_visitShard_ok (fun file isFile blob => each _ ?_) _
      exact List.mem_map_of_mem (List.mem_filter.mpr ⟨isFile, blob⟩)
    · exact ⟨_, rfl⟩

variable (kernel keep) in
/-- Nothing but an unreadable lock stops a walk. -/
theorem visitHistoryLockEntries_of_readable (readable : ∀ commit ∈ selected, objects.Readable commit) :
    ∃ visited, objects.visitHistoryLockEntries kernel keep selected = .ok visited := by
  have folded : ∀ visit, ∃ next, selected.foldlM (objects.visitCommit kernel keep) visit = .ok next := by
    induction selected with
    | nil => exact fun visit => ⟨visit, rfl⟩
    | cons commit commits ih =>
      rw [List.forall_mem_cons] at readable
      intro visit
      obtain ⟨next, first⟩ : ∃ next, objects.visitCommit kernel keep visit commit = .ok next := visitCommit_ok readable.1 visit
      rw [List.foldlM_cons, first]
      exact ih readable.2 next
  obtain ⟨next, done⟩ := folded ⟨∅, []⟩
  exact ⟨next.visited, by rw [visitHistoryLockEntries, done]; rfl⟩

end Selected

end GitObjects

end Gat
