import Gat.Proofs.LockHistory

/-! # A walk over history reads each lock once

Commits share locks, and locks share shards. The walk skips what it has met before by content id, and still visits the
rows of every selected lock.
-/

namespace Gat

open AncestorFree GitObjects

/-- A walk over selected commits succeeds exactly when each of their locks can be read on its own. It then has read every lock
blob of every commit, each distinct one once, and has visited the selected rows blob by blob. -/
theorem history_walk_reads_each_lock_once {objects : GitObjects} {kernel : Kernel} {keep : Str → Bool} {selected : List GitObjectId}
    (regular : objects.Regular selected) :
    ((∃ visited, objects.visitHistoryLockEntries kernel keep selected = .ok visited) ↔ ∀ commit ∈ selected, objects.Readable commit) ∧
      ∀ visited, objects.visitHistoryLockEntries kernel keep selected = .ok visited →
        ∃ ids rows, ids.Nodup ∧
          (∀ id, id ∈ ids ↔ ∃ commit ∈ selected, ∃ blobs, objects.lockBlobs commit = .ok blobs ∧ id ∈ blobs) ∧
          List.Forall₂ objects.BlobHolds ids rows ∧ visited = rows.flatten.filter fun entry => keep entry.path.text := by
  refine ⟨⟨?_, visitHistoryLockEntries_of_readable kernel keep⟩, fun visited walked => (visitHistoryLockEntries_reads regular walked).2⟩
  rintro ⟨visited, walked⟩
  exact (visitHistoryLockEntries_ok regular walked).1

/-! ## A shard that two commits share -/

namespace SharedShard

def entry : Entry := ⟨.a, .filled 1⟩

/-- One commit has a flat lock, the other one a tree with the same blob. -/
def objects : GitObjects where
  findCommit commit := some commit
  findTree tree := some [⟨ascii "gat.lock", if tree = [0] then .blob else .tree, if tree = [0] then [7] else [8]⟩]
  files _ := some [⟨ascii "61", .blob, [7]⟩]
  findBlob _ := some (render [entry])

theorem lockBlobs_eq {commit : GitObjectId} (member : commit ∈ [[0], [1]]) : objects.lockBlobs commit = .ok [[7]] := by
  rcases List.mem_cons.mp member with rfl | member
  · rfl
  · obtain rfl := List.mem_singleton.mp member
    rfl

theorem regular : objects.Regular [[0], [1]] where
  mode commit member found looked := by
    rcases List.mem_cons.mp member with rfl | member
    · cases looked
      exact Or.inl rfl
    · obtain rfl := List.mem_singleton.mp member
      cases looked
      exact Or.inr rfl
  apart commit member found looked isTree other isOther blobs read := by
    cases (lockBlobs_eq isOther).symm.trans read
    rcases List.mem_cons.mp member with rfl | member
    · cases looked
      cases isTree
    · obtain rfl := List.mem_singleton.mp member
      cases looked
      decide

end SharedShard

open SharedShard in
/-- The shared shard is visited once. -/
theorem history_walk_reads_each_lock_once_shared :
    ∃ visited, objects.visitHistoryLockEntries Kernel.scalar (fun _ => true) [[0], [1]] = .ok visited ∧ visited.length = 1 := by
  have holds : objects.BlobHolds [7] [entry] :=
    ⟨render [entry], rfl, FileHolds.render (List.pairwise_singleton ..) (separated_singleton _)⟩
  obtain ⟨succeeds, reads⟩ := @history_walk_reads_each_lock_once objects Kernel.scalar (fun _ => true) _ regular
  obtain ⟨visited, walked⟩ := succeeds.mpr fun commit member => ⟨_, lockBlobs_eq member, by
    rw [List.forall_mem_singleton]
    exact ⟨_, holds⟩⟩
  refine ⟨visited, walked, ?_⟩
  obtain ⟨ids, rows, distinct, listed, documents, rfl⟩ := reads visited walked
  have only : ids.Perm [[7]] := by
    rw [List.perm_ext_iff_of_nodup distinct (List.nodup_singleton _)]
    intro id
    rw [listed, List.mem_singleton]
    constructor
    · rintro ⟨commit, member, blobs, same, isBlob⟩
      cases (lockBlobs_eq member).symm.trans same
      exact List.mem_singleton.mp isBlob
    · rintro rfl
      exact ⟨[0], List.mem_cons_self, _, lockBlobs_eq List.mem_cons_self, List.mem_singleton_self _⟩
  obtain rfl := List.perm_singleton.mp only
  obtain ⟨entries, _, document, rest, rfl⟩ := List.forall₂_cons_left_iff.mp documents
  cases rest
  cases document.unique holds
  rfl

end Gat
