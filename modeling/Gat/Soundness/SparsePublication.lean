import Gat.Proofs.LockMirror
import Gat.Proofs.Reshape

/-! # Sparse publication keeps the lock files equal to the desired rows

Any sequence of sparse mutations leaves files that list exactly the desired rows, shard by shard, as a complete
save of the desired rows does. The one difference is a flat lock that has lost its last row: it is removed, where
a complete save writes the version line alone.
-/

namespace Gat

open AncestorFree

variable {blake3 : ContentHash} {levels : LockShardLevels} {state start : DesiredState}

/-- The shards of a complete save are the rows of the shards. -/
theorem bucketRows_desiredRows {table : StateTable} (placed : table.PlacedAt blake3 levels) :
    bucketRows blake3 ⟨table.desiredRows⟩ levels = table.shardRows := by
  funext shard
  have unique := (StateTable.strictlySorted_desiredRows table).uniquePaths
  refine List.eq_of_key_lt Entry.path (strictlySorted_bucketRows unique shard) (StateTable.strictlySorted_shardRows ..) fun entry => ?_
  rw [mem_bucketRows, StateTable.mem_desiredRows, StateTable.mem_shardRows]
  constructor
  · rintro ⟨⟨other, desired⟩, rfl⟩
    rwa [← placed _ _ _ desired]
  · exact fun desired => ⟨⟨shard, desired⟩, (placed _ _ _ desired).symm⟩

/-- A complete save lists the rows of the shards. -/
theorem Saved.lists {table : StateTable} (placed : table.PlacedAt blake3 levels) {full : LockTree}
    (saved : Saved blake3 ⟨table.desiredRows⟩ levels full) : full.Lists levels table.shardRows := by
  cases saved with
  | flat flat =>
    obtain rfl := LockShardLevels.isFlat_iff.mp flat
    rw [sortedEntries_of_strictlySorted (StateTable.strictlySorted_desiredRows table), ← placed.shardRows_flat]
    refine ⟨fun file member => ?_, fun file member => ?_, fun shard missing => ?_⟩
    · have found := SortedMap.get?_of_mem member
      rw [LockTree.get?_file] at found
      split_ifs at found with here
      rw [here]
      rfl
    · have found := SortedMap.get?_of_mem member
      rw [LockTree.get?_file] at found
      split_ifs at found with here
      rw [← Option.some.inj found, here]
      exact FileLists.render (StateTable.strictlySorted_shardRows ..)
    · rw [LockTree.get?_file] at missing
      split_ifs at missing with here
      refine List.eq_nil_iff_forall_not_mem.mpr fun entry member => here ?_
      exact LockShardId.eq_flat (placed.depth (StateTable.mem_shardRows.mp member))
  | sharded deep rendered =>
    rw [bucketRows_desiredRows placed] at rendered
    refine ⟨fun file member => ?_, fun file member => ?_, fun shard missing => rendered.eq_nil missing⟩
    · obtain ⟨entry, inside⟩ := List.exists_mem_of_ne_nil _ (rendered.of_mem member).1
      exact placed.depth (StateTable.mem_shardRows.mp inside)
    · rw [(rendered.of_mem member).2]
      exact FileLists.render (StateTable.strictlySorted_shardRows ..)

/-- Publishing over canonical files leaves canonical files. -/
theorem Publication.rendered {stats : PublishStats} {mutated : StateTable × Finset LockShardId} {next : DesiredState}
    (rendered : state.tree.shardFiles.Rendered state.table.shardRows) (touches : Touches blake3 levels state.table mutated.1 mutated.2)
    (published : Publication blake3 stats mutated.2 { state with table := mutated.1 } next) :
    next.tree.shardFiles.Rendered next.table.shardRows := by
  intro shard
  rw [published.files, published.table]
  split_ifs with inside empty empty
  · rfl
  · rfl
  · rw [rendered, ← touches.untouched shard inside, if_pos empty]
  · rw [rendered, ← touches.untouched shard inside, if_neg empty]

/-- A complete save writes canonical files, but for the flat lock without rows. -/
theorem Saved.eq_or_empty {table : StateTable} (placed : table.PlacedAt blake3 levels) {full : LockTree} {files : ShardFiles}
    (saved : Saved blake3 ⟨table.desiredRows⟩ levels full) (rendered : files.Rendered table.shardRows) :
    full.shardFiles = files ∨ levels.isFlat = true ∧ table.desiredRows = [] ∧ files = .empty ∧ full = .file (render []) := by
  cases saved with
  | flat flat =>
    obtain rfl := LockShardLevels.isFlat_iff.mp flat
    rw [sortedEntries_of_strictlySorted (StateTable.strictlySorted_desiredRows table)]
    have others (shard : LockShardId) (other : shard ≠ LockShardId.flat) : table.shardRows shard = [] :=
      List.eq_nil_iff_forall_not_mem.mpr fun entry member =>
        other (LockShardId.eq_flat (placed.depth (StateTable.mem_shardRows.mp member)))
    by_cases none : table.desiredRows = []
    · refine Or.inr ⟨rfl, none, SortedMap.ext fun shard => ?_, by rw [none]⟩
      rw [rendered, SortedMap.get?_empty, if_pos]
      by_cases here : shard = LockShardId.flat
      · rw [here, placed.shardRows_flat, none]
      · exact others shard here
    · refine Or.inl (SortedMap.ext fun shard => ?_)
      rw [rendered, LockTree.get?_file]
      by_cases here : shard = LockShardId.flat
      · rw [if_pos here, here, placed.shardRows_flat, if_neg none]
      · rw [if_neg here, others shard here, if_pos rfl]
  | sharded deep saved =>
    rw [bucketRows_desiredRows placed] at saved
    exact Or.inl (SortedMap.ext fun shard => (saved shard).trans (rendered shard).symm)

/-- Let every recorded proof have been taken from bytes with the recorded identity, and every mutation find stat evidence
that holds and touched files that are told by their digest from what is to be written. After any sequence of sparse
mutations the desired rows are theirs and the files list exactly the rows of their shards. Every further such mutation
leaves the files of untouched shards alone and rewrites or removes those of touched ones, a catalog of the files stays one,
and a complete save lists the same rows and writes the same files, except that it keeps a flat lock without rows. -/
theorem sparse_publication_mirrors (blake3 : ContentHash) (levels : LockShardLevels) (component : ShardComponent)
    {taken : LockShardId → StatProof → Str → Prop} (mirror : LockMirror blake3 levels start)
    (recorded : start.catalog.Recorded blake3 taken) {mutations : List (SparseMutation × PublishStats)}
    (trusts : start.TrustsAll blake3 levels taken component mutations) :
    ∃ reached, start.mutateAll blake3 levels component mutations = .ok reached ∧
      LockMirror blake3 levels reached ∧ reached.catalog.Recorded blake3 taken ∧
      reached.table = mutations.foldl (fun table mutation => (mutation.1.collect blake3 levels table).1) start.table ∧
      (start.Catalogued blake3 → reached.Catalogued blake3) ∧
      (∀ mutation, reached.Trusts blake3 levels taken mutation → ∃ next, ∃ touched : Finset LockShardId,
        reached.mutate blake3 levels component mutation.2 mutation.1 = .ok next ∧ LockMirror blake3 levels next ∧
        (∀ shard ∉ touched, next.table.shardRows shard = reached.table.shardRows shard ∧
          next.tree.shardFiles.get? shard = reached.tree.shardFiles.get? shard) ∧
        ∀ shard ∈ touched, next.tree.shardFiles.get? shard =
          if next.table.shardRows shard = [] then none else some (render (next.table.shardRows shard))) ∧
      ∃ full, save blake3 ⟨reached.table.desiredRows⟩ .missing levels = .ok full ∧ full.Lists levels reached.table.shardRows ∧
        (start.tree.shardFiles.Rendered start.table.shardRows → reached.tree.shardFiles.Rendered reached.table.shardRows ∧
          (full.shardFiles = reached.tree.shardFiles ∨
            levels.isFlat = true ∧ reached.table.desiredRows = [] ∧ reached.tree.shardFiles = .empty ∧ full = .file (render []))) := by
  obtain ⟨reached, ran, mirrored, proofs, kept, table⟩ := DesiredState.mutateAll_mirror component
    (fun state => (start.Catalogued blake3 → state.Catalogued blake3) ∧
      (start.tree.shardFiles.Rendered start.table.shardRows → state.tree.shardFiles.Rendered state.table.shardRows))
    (fun mutation mirror published kept => ⟨fun whole => published.catalogued (kept.1 whole),
      fun whole => published.rendered (kept.2 whole) (mutation.1.touches mirror.placed)⟩) mirror recorded trusts ⟨id, id⟩
  refine ⟨reached, ran, mirrored, proofs, table, kept.1, fun mutation trusted => ?_, ?_⟩
  · obtain ⟨next, stepped, published⟩ := reached.mutate_cases component mirrored proofs trusted
    have touches := mutation.1.touches mirrored.placed
    refine ⟨next, (mutation.1.collect blake3 levels reached.table).2, stepped, mirrored.publication touches published, fun shard outside => ⟨?_, ?_⟩, fun shard inside => ?_⟩
    · rw [published.table]
      exact touches.untouched shard outside
    · rw [published.files, if_neg outside]
    · rw [published.files, if_pos inside, published.table]
  · obtain ⟨full, saved, isSaved⟩ := save_saved blake3 ⟨reached.table.desiredRows⟩ levels .missing
    exact ⟨full, saved, isSaved.lists mirrored.placed, fun whole =>
      ⟨kept.2 whole, isSaved.eq_or_empty mirrored.placed (kept.2 whole)⟩⟩

/-! ## A run over three shards -/

namespace TrackedShards

def entries : List Entry := [⟨.a, .filled 1⟩, ⟨.b, .filled 1⟩, ⟨.control, .filled 1⟩, ⟨.c, .filled 1⟩]

def table : StateTable := StateTable.upsertEntries .empty .sample .oneLevel entries

theorem nested : ∀ file ∈ table.canonicalFiles.entries, file.1.isFlat = false := by decide +kernel

def recordedProof : StatProof := ⟨0, 0, 0⟩

def laterProof : StatProof := ⟨0, 1, 0⟩

/-- The files of the rows, each cataloged with its digest and a proof. -/
def tracked : DesiredState :=
  ⟨⟨table, table.canonicalShards .sample recordedProof, .empty⟩, .directory ⟨table.canonicalFiles, nested⟩⟩

/-- The recorded proofs were taken from the files at the start. -/
def taken (shard : LockShardId) (proof : StatProof) (text : Str) : Prop :=
  proof = recordedProof → table.canonicalFiles.get? shard = some text

/-- The recorded proofs still agree. -/
def before : PublishStats := ⟨⟨fun _ proof => proof = recordedProof, fun _ => laterProof⟩, fun _ _ => laterProof⟩

/-- No recorded proof is relied on. -/
def after : PublishStats := ⟨⟨fun _ _ => false, fun _ => laterProof⟩, fun _ _ => laterProof⟩

/-- Track the first path as it is and another one anew, then untrack a path beside the other and one with its own shard. -/
def mutations : List (SparseMutation × PublishStats) :=
  [(.upsert [⟨.a, .filled 1⟩, ⟨.b, .filled 2⟩], before), (.remove [.exact [.control], .subtree .c], after)]

theorem mirror : LockMirror .sample .oneLevel tracked :=
  LockMirror.of_rendered (StateTable.PlacedAt.empty.upsertEntries entries) table.rendered_canonicalFiles

theorem recorded : tracked.catalog.Recorded .sample taken := by
  intro shard identity proof row
  rw [tracked, StateTable.get?_canonicalShards, Option.map_eq_some_iff] at row
  obtain ⟨text, found, same⟩ := row
  cases same
  exact ⟨text, fun _ => found, rfl⟩

theorem later_taken (shard : LockShardId) (text : Str) : taken shard laterProof text := fun same => absurd same (by decide)

/-- The rows after the first mutation, with the shards that it touches. -/
def upserted : StateTable × Finset LockShardId := SparseMutation.collect .sample .oneLevel table (.upsert [⟨.a, .filled 1⟩, ⟨.b, .filled 2⟩])

/-- The rows after the second one. -/
def removed : StateTable × Finset LockShardId :=
  SparseMutation.collect .sample .oneLevel upserted.1 (.remove [.exact [.control], .subtree .c])

theorem upserted_digests : ∀ shard ∈ upserted.2, ∀ text ∈ table.canonicalFiles.get? shard,
    ContentHash.sample text = ContentHash.sample (render (upserted.1.shardRows shard)) → text = render (upserted.1.shardRows shard) := by
  decide +kernel

theorem removed_digests : ∀ shard ∈ removed.2, ∀ text ∈ if shard ∈ upserted.2 then
      if upserted.1.shardRows shard = [] then none else some (render (upserted.1.shardRows shard)) else table.canonicalFiles.get? shard,
    ContentHash.sample text = ContentHash.sample (render (removed.1.shardRows shard)) → text = render (removed.1.shardRows shard) := by
  decide +kernel

theorem trusts_upsert : tracked.Trusts .sample .oneLevel taken (.upsert [⟨.a, .filled 1⟩, ⟨.b, .filled 2⟩], before) where
  proofs := {
    observed := fun shard text _ => later_taken shard text
    written := later_taken
    agrees := fun shard proof text other found isTaken agrees => by
      have same := (isTaken (of_decide_eq_true agrees)).symm.trans found
      exact Option.some.inj same }
  digests := upserted_digests

theorem trusts : tracked.TrustsAll .sample .oneLevel taken .sample mutations := by
  intro done mutation rest split state ran
  rcases done with _ | ⟨first, _ | ⟨second, done⟩⟩
  · cases split
    cases ran
    exact trusts_upsert
  · cases split
    obtain ⟨next, stepped, published⟩ := tracked.mutate_cases .sample mirror recorded trusts_upsert
    obtain rfl : next = state := Except.ok.inj (stepped.symm.trans ((bind_pure _).symm.trans ran))
    refine ⟨⟨fun shard text _ => later_taken shard text, later_taken, fun _ _ _ _ _ _ agrees => Bool.noConfusion agrees⟩, ?_⟩
    intro shard member text found
    rw [published.table] at member ⊢
    rw [published.files] at found
    exact removed_digests shard member text found
  · have long := congrArg List.length split
    simp [mutations] at long

end TrackedShards

open TrackedShards in
/-- The first of three shards is touched but spared by its proof, the second is rewritten twice and the third removed. -/
theorem sparse_publication_mirrors_tracked :
    (LockShardId.forPath .sample .a .oneLevel ∈ upserted.2 ∧
      tracked.catalog.shards.get? (.forPath .sample .a .oneLevel) =
        some ⟨ContentHash.sample (render (upserted.1.shardRows (.forPath .sample .a .oneLevel))), some recordedProof⟩ ∧
      before.agrees (.forPath .sample .a .oneLevel) recordedProof = true) ∧
    ∃ reached, tracked.mutateAll .sample .oneLevel .sample mutations = .ok reached ∧
      LockMirror .sample .oneLevel reached ∧ reached.Catalogued .sample ∧
      reached.tree.shardFiles.get? (.forPath .sample .a .oneLevel) = some (render [⟨.a, .filled 1⟩]) ∧
      reached.tree.shardFiles.get? (.forPath .sample .b .oneLevel) = some (render [⟨.b, .filled 2⟩]) ∧
      reached.tree.shardFiles.get? (.forPath .sample .c .oneLevel) = none := by
  refine ⟨by decide +kernel, ?_⟩
  obtain ⟨reached, ran, mirrored, -, isTable, catalogued, -, full, -, -, files⟩ :=
    sparse_publication_mirrors .sample .oneLevel .sample mirror recorded trusts
  have rendered := (files table.rendered_canonicalFiles).1
  have rows : reached.table = removed.1 := isTable
  refine ⟨reached, ran, mirrored, catalogued fun shard => ?_, ?_, ?_, ?_⟩
  · rw [tracked, StateTable.get?_canonicalShards, Option.map_map]
    rfl
  · rw [rendered, rows]
    decide +kernel
  · rw [rendered, rows]
    decide +kernel
  · rw [rendered, rows]
    decide +kernel

/-! ## A flat lock that loses its last row -/

namespace EmptiedLock

def entry : Entry := ⟨.a, .filled 1⟩

def stats : PublishStats := ⟨⟨fun _ _ => false, fun _ => ⟨0, 0, 0⟩⟩, fun _ _ => ⟨0, 0, 0⟩⟩

/-- Nothing is tracked yet. -/
def fresh : DesiredState := ⟨⟨.empty, .fresh⟩, .missing⟩

def mutations : List (SparseMutation × PublishStats) := [(.upsert [entry], stats), (.remove [.exact [entry.path]], stats)]

end EmptiedLock

open EmptiedLock in
/-- Tracking one file in a flat lock and removing it again leaves no lock file, where a complete save of the remaining
rows writes one. -/
theorem emptied_flat_lock_is_removed :
    (fresh.mutateAll .sample LockShardLevels.FLAT .sample mutations).map (fun reached => (reached.table, reached.tree)) =
        .ok (.empty, .missing) ∧
      save .sample ⟨StateTable.desiredRows .empty⟩ .missing LockShardLevels.FLAT = .ok (.file (render [])) ∧
      LockTree.missing.shardFiles ≠ (LockTree.file (render [])).shardFiles := by
  refine ⟨by rfl, by rfl, by decide⟩

end Gat
