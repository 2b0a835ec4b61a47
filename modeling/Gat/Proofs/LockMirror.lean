import Gat.Proofs.DirectoryConflict
import Gat.Proofs.SparsePublish

/-! # Lock files as a mirror of the desired rows

The files list the rows of their shards, which need not be free of ancestor pairs: only a load checks that.
Every sparse mutation keeps the files the mirror of the table.
-/

namespace Gat

open LockFormat AncestorFree

variable {kernel : Kernel} {blake3 : ContentHash} {levels : LockShardLevels} {rows : LockShardId → List Entry} {tree : LockTree}
  {stats : PublishStats}

/-! ## Files that list rows -/

/-- The text spells sorted entries. -/
structure FileLists (text : Str) (entries : List Entry) : Prop where
  utf8 : Utf8.Valid text
  framed : ∃ terminator body, text = VERSION ++ terminator ++ body ∧ IsTerminator terminator ∧ Records body (decodedEntries entries)
  sorted : StrictlySorted entries

theorem FileLists.render {entries : List Entry} (sorted : StrictlySorted entries) : FileLists (render entries) entries :=
  ⟨valid_render entries, framed_render entries, sorted⟩

theorem FileLists.unique {text : Str} {entries others : List Entry} (first : FileLists text entries) (second : FileLists text others) :
    entries = others :=
  decodedEntries_injective (framed_unique first.framed second.framed)

/-- A document is a text that lists entries without an ancestor pair. -/
theorem fileHolds_iff {text : Str} {entries : List Entry} :
    FileHolds text entries ↔ FileLists text entries ∧ Separated Byte.slash (entries.map fun entry => entry.path.text) := by
  constructor
  · exact fun holds => ⟨⟨holds.utf8, holds.document.framed, holds.sorted⟩, holds.separated⟩
  · rintro ⟨lists, separated⟩
    refine ⟨lists.utf8, lists.framed, fun row member => ?_, lists.sorted.ordered, ?_⟩
    · obtain ⟨entry, -, rfl⟩ := List.mem_map.mp member
      exact entry.path.isCanonical
    · rwa [map_fst_decodedEntries]

/-- The files of a tree have one depth and list the rows of their shards. -/
structure LockTree.Lists (tree : LockTree) (levels : LockShardLevels) (rows : LockShardId → List Entry) : Prop where
  depth : tree.HasDepth levels
  lists : ∀ file ∈ tree.shardFiles.entries, FileLists file.2 (rows file.1)
  absent : ∀ shard, tree.shardFiles.get? shard = none → rows shard = []

namespace LockTree.Lists

theorem mem_allRows_iff (lists : tree.Lists levels rows) {entry : Entry} :
    entry ∈ tree.shardFiles.allRows rows ↔ ∃ shard, entry ∈ rows shard := by
  rw [ShardFiles.allRows, List.mem_flatMap]
  constructor
  · rintro ⟨file, -, member⟩
    exact ⟨file.1, member⟩
  · rintro ⟨shard, member⟩
    cases found : tree.shardFiles.get? shard with
    | none =>
      rw [lists.absent shard found] at member
      cases member
    | some text => exact ⟨(shard, text), SortedMap.get?_eq_some_iff.mp found, member⟩

/-- Rows without an ancestor pair are stored. -/
theorem stores (lists : tree.Lists levels rows) (placed : Placed blake3 levels rows)
    (separated : Separated Byte.slash (tree.shardFiles.allPaths rows)) : tree.shardFiles.Stores blake3 levels rows := by
  refine ⟨⟨lists.depth, fun file member => ?_, lists.absent⟩, placed, separated⟩
  refine fileHolds_iff.mpr ⟨lists.lists file member, separated.subset fun path inside => ?_⟩
  obtain ⟨entry, listed, rfl⟩ := List.mem_map.mp inside
  exact List.mem_map_of_mem (List.mem_flatMap.mpr ⟨file, member, listed⟩)

/-- Rows in their places load exactly when they have no ancestor pair, and then they are what is loaded. -/
theorem loadTree_eq_ok_iff (lists : tree.Lists levels rows) (placed : Placed blake3 levels rows) {loaded : Lock} :
    tree.loadTree kernel blake3 = .ok loaded ↔
      Separated Byte.slash (tree.shardFiles.allPaths rows) ∧ loaded = ⟨tree.shardFiles.allRows rows⟩ := by
  rw [LockTree.loadTree_eq_ok_iff]
  constructor
  · rintro ⟨others, found, stores, rfl⟩
    obtain rfl : found = rows := by
      funext shard
      cases isFile : tree.shardFiles.get? shard with
      | none => rw [stores.holds.absent shard isFile, lists.absent shard isFile]
      | some text =>
        have member := SortedMap.get?_eq_some_iff.mp isFile
        exact (fileHolds_iff.mp (stores.holds.document _ member)).1.unique (lists.lists _ member)
    exact ⟨stores.separated, rfl⟩
  · rintro ⟨separated, rfl⟩
    exact ⟨levels, rows, lists.stores placed separated, rfl⟩

end LockTree.Lists

/-! ## The mirror -/

/-- Every shard file lists exactly the desired rows of its shard, and every desired row carries the shard of its path. -/
structure LockMirror (blake3 : ContentHash) (levels : LockShardLevels) (state : DesiredState) : Prop where
  placed : state.table.PlacedAt blake3 levels
  lists : state.tree.Lists levels state.table.shardRows

theorem StateTable.PlacedAt.placed {table : StateTable} (placed : table.PlacedAt blake3 levels) : Placed blake3 levels table.shardRows :=
  fun shard entry member => (placed entry.path entry.oid shard (StateTable.mem_shardRows.mp member)).symm

namespace LockMirror

variable {state : DesiredState}

/-- The rows in the files are the desired rows. -/
theorem mem_allRows_iff (mirror : LockMirror blake3 levels state) {entry : Entry} :
    entry ∈ state.tree.shardFiles.allRows state.table.shardRows ↔ entry ∈ state.table.desiredRows := by
  rw [mirror.lists.mem_allRows_iff, StateTable.mem_desiredRows]
  simp only [StateTable.mem_shardRows]

/-- A mirrored lock loads unless one of its paths is above another, and what is loaded are the desired rows. -/
theorem loads (mirror : LockMirror blake3 levels state)
    (separated : Separated Byte.slash (state.tree.shardFiles.allPaths state.table.shardRows)) :
    ∃ loaded, state.tree.loadTree kernel blake3 = .ok loaded ∧ ∀ entry, entry ∈ loaded.entries ↔ entry ∈ state.table.desiredRows :=
  ⟨_, (mirror.lists.loadTree_eq_ok_iff mirror.placed.placed).mpr ⟨separated, rfl⟩, fun _ => mirror.mem_allRows_iff⟩

/-- A publication of the touched shards keeps the mirror. -/
theorem publication (mirror : LockMirror blake3 levels state) {mutated : StateTable × Finset LockShardId} {next : DesiredState}
    (touches : Touches blake3 levels state.table mutated.1 mutated.2)
    (published : Publication blake3 stats mutated.2 { state with table := mutated.1 } next) : LockMirror blake3 levels next where
  placed := published.table ▸ touches.placed
  lists := by
    have republished := published.files
    rw [published.table]
    refine ⟨republished.hasDepth mirror.lists.depth touches.depth, fun file member => ?_, fun shard missing => ?_⟩
    · have found := SortedMap.get?_of_mem member
      rw [republished] at found
      split_ifs at found with inside empty
      · rw [← Option.some.inj found]
        exact FileLists.render (StateTable.strictlySorted_shardRows ..)
      · rw [touches.untouched file.1 inside]
        exact mirror.lists.lists file (SortedMap.get?_eq_some_iff.mp found)
    · rw [republished] at missing
      split_ifs at missing with inside empty
      · exact empty
      · rw [touches.untouched shard inside]
        exact mirror.lists.absent shard missing

end LockMirror

/-! ## Canonical files -/

/-- Rendered files of rows in their places are their mirror. -/
theorem LockMirror.of_rendered {state : DesiredState} (placed : state.table.PlacedAt blake3 levels)
    (rendered : state.tree.shardFiles.Rendered state.table.shardRows) : LockMirror blake3 levels state where
  placed := placed
  lists := by
    refine ⟨fun file member => ?_, fun file member => ?_, fun shard missing => rendered.eq_nil missing⟩
    · obtain ⟨entry, inside⟩ := List.exists_mem_of_ne_nil _ (rendered.of_mem member).1
      exact placed.depth (StateTable.mem_shardRows.mp inside)
    · rw [(rendered.of_mem member).2]
      exact FileLists.render (StateTable.strictlySorted_shardRows ..)

namespace StateTable

variable (table : StateTable)

/-- The shards of the desired rows. -/
def owners : List LockShardId := table.desiredOwners.map Prod.snd

/-- The files that render the desired rows. -/
def canonicalFiles : ShardFiles :=
  table.owners.foldl (fun files shard => files.insert shard (render (table.shardRows shard))) .empty

/-- The catalog rows of these files. -/
def canonicalShards (blake3 : ContentHash) (proof : StatProof) : SortedMap LockShardId StoredShard :=
  table.owners.foldl (fun shards shard => shards.insert shard ⟨blake3 (render (table.shardRows shard)), some proof⟩) .empty

theorem mem_owners {shard : LockShardId} : shard ∈ table.owners ↔ table.shardRows shard ≠ [] := by
  rw [owners, List.mem_map]
  constructor
  · rintro ⟨row, member, rfl⟩
    obtain ⟨oid, desired⟩ := mem_desiredOwners.mp member
    have held : (⟨row.1, oid⟩ : Entry) ∈ table.shardRows row.2 := mem_shardRows.mpr desired
    exact List.ne_nil_of_mem held
  · intro rows
    obtain ⟨entry, member⟩ := List.exists_mem_of_ne_nil _ rows
    exact ⟨(entry.path, shard), mem_desiredOwners.mpr ⟨entry.oid, mem_shardRows.mp member⟩, rfl⟩

theorem rendered_canonicalFiles : table.canonicalFiles.Rendered table.shardRows := by
  intro shard
  rw [canonicalFiles, SortedMap.get?_foldl_insert_keys, SortedMap.get?_empty]
  simp only [mem_owners, ite_not]

theorem get?_canonicalShards (blake3 : ContentHash) (proof : StatProof) (shard : LockShardId) :
    (table.canonicalShards blake3 proof).get? shard = (table.canonicalFiles.get? shard).map fun text => ⟨blake3 text, some proof⟩ := by
  rw [canonicalShards, SortedMap.get?_foldl_insert_keys, SortedMap.get?_empty, table.rendered_canonicalFiles]
  simp only [mem_owners, ite_not]
  split_ifs <;> rfl

end StateTable

/-! ## Evidence -/

/-- What stat evidence says about shard files. A proof is taken from the bytes that a file has, or that a write leaves
there, and agrees with the file only while it has these bytes. -/
structure ProofsHold (taken : LockShardId → StatProof → Str → Prop) (stats : PublishStats) (files : ShardFiles) : Prop where
  observed : ∀ shard text, files.get? shard = some text → taken shard (stats.observed shard) text
  written : ∀ shard text, taken shard (stats.written shard text) text
  agrees : ∀ shard proof text other, files.get? shard = some text → taken shard proof other → stats.agrees shard proof = true → other = text

/-- Every recorded proof was taken from bytes with the recorded identity. -/
def ShardCatalog.Recorded (blake3 : ContentHash) (taken : LockShardId → StatProof → Str → Prop) (catalog : ShardCatalog) : Prop :=
  ∀ shard identity proof, catalog.shards.get? shard = some ⟨identity, some proof⟩ → ∃ text, taken shard proof text ∧ blake3 text = identity

/-- The catalog has the identities of exactly the shard files. -/
def DesiredState.Catalogued (blake3 : ContentHash) (state : DesiredState) : Prop :=
  ∀ shard, (state.catalog.shards.get? shard).map StoredShard.identity = (state.tree.shardFiles.get? shard).map blake3

theorem sparsePublishPriors_eq_some_iff {shards : SortedMap LockShardId StoredShard} {shard : LockShardId}
    {identity : ShardContentIdentity} {proof : StatProof} :
    sparsePublishPriors shards shard = some (identity, proof) ↔ shards.get? shard = some ⟨identity, some proof⟩ := by
  unfold sparsePublishPriors
  rcases shards.get? shard with _ | ⟨recorded, _ | held⟩ <;> simp

namespace Publication

variable {taken : LockShardId → StatProof → Str → Prop} {touched : Finset LockShardId} {before after : DesiredState}

/-- A publication records proofs of the bytes that it leaves. -/
theorem recorded (published : Publication blake3 stats touched before after) (holds : ProofsHold taken stats before.tree.shardFiles)
    (recorded : before.catalog.Recorded blake3 taken) : after.catalog.Recorded blake3 taken := by
  intro shard identity proof row
  by_cases inside : shard ∈ touched
  · by_cases rows : before.table.shardRows shard = []
    · rw [published.removed shard inside rows] at row
      cases row
    · obtain ⟨evidence, rfl, isRow, receipt⟩ := published.published shard inside rows
      cases isRow.symm.trans row
      rcases receipt.proof with prior | ⟨observed, found⟩ | written
      · exact recorded _ _ _ (sparsePublishPriors_eq_some_iff.mp prior)
      · exact ⟨_, observed ▸ holds.observed _ _ found, receipt.identity.symm⟩
      · exact ⟨_, written ▸ holds.written _ _, receipt.identity.symm⟩
  · exact recorded shard identity proof (published.untouched shard inside ▸ row)

/-- A publication catalogs the files that it leaves. -/
theorem catalogued (published : Publication blake3 stats touched before after) (catalogued : before.Catalogued blake3) :
    after.Catalogued blake3 := by
  intro shard
  rw [published.files]
  by_cases inside : shard ∈ touched
  · rw [if_pos inside]
    by_cases rows : before.table.shardRows shard = []
    · rw [published.removed shard inside rows, if_pos rows]
      rfl
    · obtain ⟨evidence, rfl, isRow, receipt⟩ := published.published shard inside rows
      rw [isRow, if_neg rows]
      exact congrArg some receipt.identity
  · rw [if_neg inside, published.untouched shard inside]
    exact catalogued shard

end Publication

/-! ## Mutations -/

/-- The rows after a mutation with the shards that it collected. -/
def SparseMutation.collect (blake3 : ContentHash) (levels : LockShardLevels) (table : StateTable) :
    SparseMutation → StateTable × Finset LockShardId
  | .upsert entries => if entries = [] then (table, ∅) else upsertCollectShards blake3 levels (table, ∅) entries
  | .remove removals => removals.foldl removeCollectShards (table, ∅)
  | .add prepared => (chunks preparedWindow prepared).foldl (prepareAddWindow blake3 levels) (table, ∅)
  | .removeSubtree target _ => (table.clearDesiredPrefix target, table.desiredShardIdsForScope target)
  | .upsertWindows windows => windows.foldl (upsertWindow blake3 levels) (table, ∅)
  | .move src dst => moveRepositoryRows table blake3 src dst levels

theorem SparseMutation.touches {table : StateTable} (placed : table.PlacedAt blake3 levels) (mutation : SparseMutation) :
    Touches blake3 levels table (mutation.collect blake3 levels table).1 (mutation.collect blake3 levels table).2 := by
  have start : Touches blake3 levels table (table, (∅ : Finset LockShardId)).1 (table, (∅ : Finset LockShardId)).2 := Touches.refl placed
  cases mutation with
  | upsert entries =>
    rw [collect]
    split_ifs
    · exact start
    · exact start.upsertCollectShards entries
  | remove removals => exact Touches.foldl (fun _ earlier removal => earlier.removeCollectShards removal) removals start
  | add prepared => exact Touches.foldl (fun _ earlier window => earlier.prepareAddWindow window) _ start
  | removeSubtree target window => exact Touches.clearDesiredPrefix placed target
  | upsertWindows windows => exact Touches.foldl (fun _ earlier batch => earlier.upsertWindow batch) windows start
  | move src dst => exact Touches.move placed src dst

theorem le_foldl_max (sizes : List ℕ) (start : ℕ) : start ≤ sizes.foldl max start ∧ ∀ size ∈ sizes, size ≤ sizes.foldl max start := by
  induction sizes generalizing start with
  | nil => exact ⟨le_rfl, by simp⟩
  | cons size sizes ih =>
    obtain ⟨above, members⟩ := ih (max start size)
    exact ⟨(le_max_left _ _).trans above, List.forall_mem_cons.mpr ⟨(le_max_right _ _).trans above, members⟩⟩

/-- Without a nonempty window nothing is collected. -/
theorem foldl_upsertWindow_of_empty {windows : List (List Entry)} (none : (windows.map List.length).sum = 0)
    (state : StateTable × Finset LockShardId) : windows.foldl (upsertWindow blake3 levels) state = state := by
  induction windows with
  | nil => rfl
  | cons batch windows ih =>
    rw [List.map_cons, List.sum_cons, Nat.add_eq_zero_iff, List.length_eq_zero_iff] at none
    rw [List.foldl_cons, upsertWindow, if_pos none.1, ih none.2]

/-- What the publication of a mutation relies on. The stat evidence holds, and a touched file with the digest of its new
bytes has these bytes. -/
structure DesiredState.Trusts (blake3 : ContentHash) (levels : LockShardLevels) (taken : LockShardId → StatProof → Str → Prop)
    (state : DesiredState) (mutation : SparseMutation × PublishStats) : Prop where
  proofs : ProofsHold taken mutation.2 state.tree.shardFiles
  digests : ∀ shard ∈ (mutation.1.collect blake3 levels state.table).2, ∀ text, state.tree.shardFiles.get? shard = some text →
    blake3 text = blake3 (render ((mutation.1.collect blake3 levels state.table).1.shardRows shard)) →
    text = render ((mutation.1.collect blake3 levels state.table).1.shardRows shard)

variable {taken : LockShardId → StatProof → Str → Prop} {state : DesiredState}

/-- The touched shards of a trusted mutation can be published. -/
theorem DesiredState.Trusts.spares {mutation : SparseMutation × PublishStats} (trusts : state.Trusts blake3 levels taken mutation)
    (mirror : LockMirror blake3 levels state) (recorded : state.catalog.Recorded blake3 taken) :
    DesiredState.Spares blake3 mutation.2 { state with table := (mutation.1.collect blake3 levels state.table).1 }
      (mutation.1.collect blake3 levels state.table).2 := by
  intro shard member
  refine ⟨fun text found => (mirror.lists.lists _ (SortedMap.get?_eq_some_iff.mp found)).utf8, fun proof text prior found agrees => ?_⟩
  obtain ⟨other, isTaken, digest⟩ := recorded shard _ proof (sparsePublishPriors_eq_some_iff.mp prior)
  obtain rfl := trusts.proofs.agrees shard proof text other found isTaken agrees
  exact trusts.digests shard member _ found digest

variable (component : ShardComponent)

/-- A mutation succeeds on a mirrored state: it leaves the collected rows and publishes the collected shards. -/
theorem DesiredState.mutate_cases (mirror : LockMirror blake3 levels state) (recorded : state.catalog.Recorded blake3 taken)
    {mutation : SparseMutation × PublishStats} (trusts : state.Trusts blake3 levels taken mutation) :
    ∃ next, state.mutate blake3 levels component mutation.2 mutation.1 = .ok next ∧
      Publication blake3 mutation.2 (mutation.1.collect blake3 levels state.table).2
        { state with table := (mutation.1.collect blake3 levels state.table).1 } next := by
  obtain ⟨mutation, stats⟩ := mutation
  have spares := trusts.spares mirror recorded
  have touches := mutation.touches mirror.placed
  have publish : ∃ next, state.publish blake3 levels stats component (mutation.collect blake3 levels state.table) = .ok next ∧
      Publication blake3 stats (mutation.collect blake3 levels state.table).2
        { state with table := (mutation.collect blake3 levels state.table).1 } next := by
    rw [DesiredState.publish]
    exact publishTouched_spec component touches.placed touches.depth mirror.lists.depth spares
  have publishWindows {window : ℕ} (positive : 0 < window) :
      ∃ next, state.publishWindows blake3 levels stats component (mutation.collect blake3 levels state.table) window = .ok next ∧
        Publication blake3 stats (mutation.collect blake3 levels state.table).2
          { state with table := (mutation.collect blake3 levels state.table).1 } next := by
    rw [DesiredState.publishWindows]
    refine publishTouchedWindows_spec component ?_ touches.depth ?_ ?_ positive
    · exact touches.placed
    · exact mirror.lists.depth
    · exact spares
  cases mutation with
  | upsert entries =>
    rw [mutate, upsertAndPublish]
    rw [SparseMutation.collect] at publish ⊢
    split_ifs at publish ⊢
    · exact ⟨state, rfl, Publication.refl state⟩
    · exact publish
  | remove removals => exact publish
  | add prepared => exact publish
  | removeSubtree target window => exact publishWindows window.pos
  | upsertWindows windows =>
    rw [mutate, publishDesiredUpsertWindows]
    split_ifs with none
    · rw [SparseMutation.collect, foldl_upsertWindow_of_empty none]
      exact ⟨state, rfl, Publication.refl state⟩
    · refine publishWindows ?_
      by_contra zero
      refine none (List.sum_eq_zero fun size member => ?_)
      have bounded := (le_foldl_max (windows.map List.length) 0).2 size member
      omega
  | move src dst => exact publish

/-- A trusted mutation keeps the mirror and the recorded proofs. -/
theorem DesiredState.mutate_mirror (mirror : LockMirror blake3 levels state) (recorded : state.catalog.Recorded blake3 taken)
    {mutation : SparseMutation × PublishStats} (trusts : state.Trusts blake3 levels taken mutation) {next : DesiredState}
    (ran : state.mutate blake3 levels component mutation.2 mutation.1 = .ok next) :
    LockMirror blake3 levels next ∧ next.catalog.Recorded blake3 taken := by
  obtain ⟨_, isNext, published⟩ := state.mutate_cases component mirror recorded trusts
  obtain rfl := Except.ok.inj (isNext.symm.trans ran)
  exact ⟨mirror.publication (mutation.1.touches mirror.placed) published, published.recorded trusts.proofs recorded⟩

variable (blake3 levels taken) in
/-- Every mutation of a run is trusted in the state that it finds. -/
def DesiredState.TrustsAll (start : DesiredState) (mutations : List (SparseMutation × PublishStats)) : Prop :=
  ∀ done mutation rest, mutations = done ++ mutation :: rest →
    ∀ state, start.mutateAll blake3 levels component done = .ok state → state.Trusts blake3 levels taken mutation

theorem DesiredState.TrustsAll.head {mutation : SparseMutation × PublishStats} {mutations : List (SparseMutation × PublishStats)}
    (trusts : state.TrustsAll blake3 levels taken component (mutation :: mutations)) : state.Trusts blake3 levels taken mutation :=
  trusts [] mutation mutations rfl state rfl

theorem DesiredState.TrustsAll.tail {mutation : SparseMutation × PublishStats} {mutations : List (SparseMutation × PublishStats)}
    (trusts : state.TrustsAll blake3 levels taken component (mutation :: mutations)) {next : DesiredState}
    (ran : state.mutate blake3 levels component mutation.2 mutation.1 = .ok next) :
    next.TrustsAll blake3 levels taken component mutations := by
  intro done later rest split reached isReached
  refine trusts (mutation :: done) later rest (by rw [split, List.cons_append]) reached ?_
  rw [mutateAll, List.foldlM_cons, ran]
  exact isReached

/-- Any sequence of trusted mutations succeeds on a mirrored state, and keeps what each publication keeps. -/
theorem DesiredState.mutateAll_mirror (Kept : DesiredState → Prop)
    (step : ∀ {state next : DesiredState} (mutation : SparseMutation × PublishStats), LockMirror blake3 levels state →
      Publication blake3 mutation.2 (mutation.1.collect blake3 levels state.table).2
        { state with table := (mutation.1.collect blake3 levels state.table).1 } next → Kept state → Kept next)
    (mirror : LockMirror blake3 levels state) (recorded : state.catalog.Recorded blake3 taken)
    {mutations : List (SparseMutation × PublishStats)} (trusts : state.TrustsAll blake3 levels taken component mutations)
    (kept : Kept state) :
    ∃ reached, state.mutateAll blake3 levels component mutations = .ok reached ∧ LockMirror blake3 levels reached ∧
      reached.catalog.Recorded blake3 taken ∧ Kept reached ∧
      reached.table = mutations.foldl (fun table mutation => (mutation.1.collect blake3 levels table).1) state.table := by
  induction mutations generalizing state with
  | nil => exact ⟨state, rfl, mirror, recorded, kept, rfl⟩
  | cons mutation mutations ih =>
    obtain ⟨next, ran, published⟩ := state.mutate_cases component mirror recorded (trusts.head component)
    obtain ⟨mirrored, proven⟩ := state.mutate_mirror component mirror recorded (trusts.head component) ran
    obtain ⟨reached, rest, left, proofs, remains, table⟩ := ih mirrored proven (trusts.tail component ran) (step mutation mirror published kept)
    refine ⟨reached, ?_, left, proofs, remains, ?_⟩
    · rw [mutateAll, List.foldlM_cons, ran]
      exact rest
    · rw [table, published.table, List.foldl_cons]

end Gat
