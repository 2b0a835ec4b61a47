import Gat.Model.LockStore
import Gat.Proofs.LockValidate
import Gat.ToMathlib.Fallible

/-! # What a complete load certifies

The merged rows of certified files come in path order. The certification loop finds a repeated path or
keeps the stack of prefixes, so that its outcome depends only on the set of all paths. A load therefore
succeeds exactly when the files have one depth, each is a document, every row lies in its shard, and
together they hold distinct paths without an ancestor pair.
-/

namespace Gat

open AncestorFree LockFormat

namespace LockShardId

/-- The comparison of shared bytes and then depths is the order of the identities. -/
theorem cmp_eq_lt_iff {left right : LockShardId} : cmp left right = .lt ↔ left < right := by
  change _ ↔ left.prefixBytes < right.prefixBytes
  rw [List.lt_iff_take_min, left.width, right.width, cmp, Ordering.then_eq_lt, Str.cmp_eq_lt_iff, Str.cmp_eq_eq_iff,
    compare_lt_iff_lt]

end LockShardId

/-! ## The certification loop -/

/-- The loop has passed the earlier paths. -/
structure Scanned (earlier : List Str) (state : Certifier) : Prop where
  ordered : earlier.Pairwise (· < ·)
  previous : state.previous = earlier.getLast?
  start : earlier = [] → state.stack = []
  chain : ∀ last, earlier.getLast? = some last → PrefixStack earlier last state.stack
  prefixError : (state.prefixError = none ∧ Separated Byte.slash earlier) ∨
    ∃ ancestor ∈ earlier, ∃ descendant ∈ earlier, state.prefixError = some (.directoryPrefixConflict ancestor descendant) ∧
      IsAncestor Byte.slash ancestor descendant

theorem Scanned.nil : Scanned [] ⟨none, [], none⟩ where
  ordered := List.Pairwise.nil
  previous := rfl
  start _ := rfl
  chain := by simp
  prefixError := Or.inl ⟨rfl, separated_nil⟩

private theorem pairwise_concat {earlier : List Str} {path : Str} (ordered : earlier.Pairwise (· < ·))
    (largest : ∀ name ∈ earlier, name < path) : (earlier ++ [path]).Pairwise (· < ·) :=
  List.pairwise_append.mpr ⟨ordered, List.pairwise_singleton _ _, fun name member other single => by
    rw [List.mem_singleton.mp single]
    exact largest name member⟩

/-- A row at or above the earlier ones repeats the last of them or extends the scan. -/
theorem certifyRow_cases {earlier : List Str} {state : Certifier} (scanned : Scanned earlier state) {path : Str}
    (above : ∀ name ∈ earlier, name ≤ path) :
    (certifyRow state path = Outcome.fail (.domain (.pathInMultipleShards path)) ∧ path ∈ earlier) ∨
      ∃ next, certifyRow state path = .ok next ∧ Scanned (earlier ++ [path]) next := by
  unfold certifyRow
  rw [scanned.previous]
  cases found : earlier.getLast? with
  | none =>
    obtain rfl := List.getLast?_eq_none_iff.mp found
    refine Or.inr ⟨_, rfl, List.pairwise_singleton _ _, rfl, by simp, ?_, ?_⟩
    · intro last single
      obtain rfl : path = last := by simpa using single
      rw [scanned.start rfl]
      exact (PrefixStack.nil path).push (by simp)
    · have free : Separated Byte.slash [path] := by
        rw [← List.nil_append [path], separated_concat_iff (by simp)]
        exact ⟨separated_nil, by simp⟩
      rcases scanned.prefixError with ⟨clear, -⟩ | ⟨_, none, -⟩
      · exact Or.inl ⟨clear, free⟩
      · cases none
  | some previous =>
    have listed : previous ∈ earlier := List.mem_of_getLast? found
    have maximal : ∀ name ∈ earlier, name ≤ previous := by
      obtain ⟨front, rfl⟩ := List.getLast?_eq_some_iff.mp found
      intro name member
      rcases List.mem_append.mp member with member | single
      · exact ((List.pairwise_append.mp scanned.ordered).2.2 name member previous List.mem_cons_self).le
      · rw [List.mem_singleton.mp single]
    by_cases same : previous = path
    · left
      dsimp only
      rw [if_pos same]
      exact ⟨rfl, same ▸ listed⟩
    right
    have later : previous < path := lt_of_le_of_ne (above previous listed) same
    have largest : ∀ name ∈ earlier, name < path := fun name member => (maximal name member).trans_lt later
    have advanced := (scanned.chain previous found).advance maximal later
    dsimp only
    rw [if_neg same]
    generalize state.stack.dropWhile (fun name => decide (List.lcpLength previous path < name.length)) = stack at advanced
    refine ⟨_, rfl, pairwise_concat scanned.ordered largest, by simp, by simp, ?_, ?_⟩
    · intro last single
      obtain rfl : path = last := by simpa using single
      exact advanced.push largest
    · rw [separated_concat_iff largest]
      rcases scanned.prefixError with ⟨clear, free⟩ | ⟨ancestor, isAncestor, descendant, isDescendant, kept, conflict⟩
      · have ancestor_iff := advanced.exists_ancestor_iff free
        cases stack with
        | nil =>
          refine Or.inl ⟨clear, free, fun name member ancestry => ?_⟩
          simpa using ancestor_iff.mp ⟨name, member, ancestry⟩
        | cons top stack =>
          by_cases letter : path[top.length]? = some Byte.slash
          · obtain ⟨listed, begins⟩ := (advanced.mem_iff top).mp List.mem_cons_self
            exact Or.inr ⟨top, List.mem_append_left _ listed, path, List.mem_append_right _ (List.mem_singleton_self path),
              by dsimp only; rw [if_pos ⟨letter, clear⟩], isAncestor_iff.mpr ⟨begins, letter⟩⟩
          · refine Or.inl ⟨by dsimp only; rw [if_neg fun both => letter both.1, clear], free, fun name member ancestry => ?_⟩
            obtain ⟨head, equal, slash⟩ := ancestor_iff.mp ⟨name, member, ancestry⟩
            obtain rfl : top = head := by simpa using equal
            exact letter slash
      · refine Or.inr ⟨ancestor, List.mem_append_left _ isAncestor, descendant, List.mem_append_left _ isDescendant, ?_, conflict⟩
        cases stack with
        | nil => exact kept
        | cons top stack =>
          dsimp only
          rw [if_neg fun both => ?_, kept]
          rw [kept] at both
          simp at both

/-- The loop fails on a repeated path and otherwise has scanned the whole list. -/
theorem foldlM_certifyRow_cases {earlier paths : List Str} {state : Certifier} (scanned : Scanned earlier state)
    (ordered : (earlier ++ paths).Pairwise (· ≤ ·)) :
    (∃ path, paths.foldlM certifyRow state = Outcome.fail (.domain (.pathInMultipleShards path)) ∧
        2 ≤ (earlier ++ paths).count path) ∨
      ∃ last, paths.foldlM certifyRow state = .ok last ∧ Scanned (earlier ++ paths) last := by
  induction paths generalizing earlier state with
  | nil => exact Or.inr ⟨state, rfl, by rwa [List.append_nil]⟩
  | cons path paths ih =>
    rw [List.foldlM_cons]
    have above : ∀ name ∈ earlier, name ≤ path := fun name member =>
      (List.pairwise_append.mp ordered).2.2 name member path List.mem_cons_self
    rw [List.append_cons] at ordered ⊢
    rcases certifyRow_cases scanned above with ⟨repeated, member⟩ | ⟨next, advanced, scanned'⟩
    · rw [repeated, Outcome.fail_bind]
      have before := List.count_pos_iff.mpr member
      refine Or.inl ⟨path, rfl, ?_⟩
      rw [List.count_append, List.count_append, List.count_singleton_self]
      omega
    · rw [advanced, Outcome.ok_bind]
      exact ih scanned' ordered

/-! ## The rows of shard files -/

/-- The text is a document for the entries. -/
structure FileHolds (text : Str) (entries : List Entry) : Prop where
  utf8 : Utf8.Valid text
  document : Document text (decodedEntries entries)

namespace FileHolds

variable {text : Str} {entries others : List Entry}

theorem unique (holds : FileHolds text entries) (holds' : FileHolds text others) : entries = others :=
  decodedEntries_injective (holds.document.unique holds'.document)

theorem sorted (holds : FileHolds text entries) : StrictlySorted entries := strictlySorted_of_ordered holds.document.ordered

theorem separated (holds : FileHolds text entries) : Separated Byte.slash (entries.map fun entry => entry.path.text) := by
  rw [← map_fst_decodedEntries]
  exact holds.document.separated

theorem parse_eq (holds : FileHolds text entries) (kernel : Kernel) : Lock.parse kernel text = .ok ⟨entries⟩ :=
  (Lock.parse_eq_ok_iff kernel holds.utf8).mpr holds.document

/-- Writing sorted separated entries gives a document for them. -/
theorem render (sorted : StrictlySorted entries) (separated : Separated Byte.slash (entries.map fun entry => entry.path.text)) :
    FileHolds (render entries) entries :=
  ⟨valid_render entries, document_render sorted separated⟩

end FileHolds

/-- The files have one depth and each is a document for its shard's rows. -/
structure ShardFiles.Holds (files : ShardFiles) (levels : LockShardLevels) (rows : LockShardId → List Entry) : Prop where
  depth : ∀ file ∈ files.entries, file.1.levels = levels
  document : ∀ file ∈ files.entries, FileHolds file.2 (rows file.1)
  absent : ∀ id, files.get? id = none → rows id = []

/-- Every row lies in the shard that its path hashes to. -/
def Placed (blake3 : ContentHash) (levels : LockShardLevels) (rows : LockShardId → List Entry) : Prop :=
  ∀ id, ∀ entry ∈ rows id, LockShardId.forPath blake3 entry.path levels = id

/-- All rows of the files in shard order. -/
def ShardFiles.allRows (files : ShardFiles) (rows : LockShardId → List Entry) : List Entry :=
  files.entries.flatMap fun file => rows file.1

namespace ShardFiles.Holds

variable {files : ShardFiles} {levels : LockShardLevels} {rows : LockShardId → List Entry} {blake3 : ContentHash}

theorem sorted (holds : files.Holds levels rows) (id : LockShardId) : StrictlySorted (rows id) := by
  cases found : files.get? id with
  | none =>
    rw [holds.absent id found]
    exact List.Pairwise.nil
  | some text => exact (holds.document _ (SortedMap.get?_eq_some_iff.mp found)).sorted

theorem mem_allRows_iff (holds : files.Holds levels rows) {entry : Entry} :
    entry ∈ files.allRows rows ↔ ∃ id, entry ∈ rows id := by
  rw [ShardFiles.allRows, List.mem_flatMap]
  constructor
  · rintro ⟨file, -, member⟩
    exact ⟨file.1, member⟩
  · rintro ⟨id, member⟩
    cases found : files.get? id with
    | none =>
      rw [holds.absent id found] at member
      simp at member
    | some text => exact ⟨(id, text), SortedMap.get?_eq_some_iff.mp found, member⟩

/-- Files hold the rows of one function only. -/
theorem unique {levels' : LockShardLevels} {others : LockShardId → List Entry} (holds : files.Holds levels rows)
    (holds' : files.Holds levels' others) : rows = others := by
  funext id
  cases found : files.get? id with
  | none => rw [holds.absent id found, holds'.absent id found]
  | some text =>
    have listed := SortedMap.get?_eq_some_iff.mp found
    exact (holds.document _ listed).unique (holds'.document _ listed)

/-- Places do not depend on the depth that is named, since files that hold rows have one depth. -/
theorem placed_of_holds {levels' : LockShardLevels} (holds : files.Holds levels rows)
    (holds' : files.Holds levels' rows) (placed : Placed blake3 levels rows) : Placed blake3 levels' rows := by
  intro id entry member
  obtain ⟨file, listed, -⟩ := List.mem_flatMap.mp (holds.mem_allRows_iff.mpr ⟨id, member⟩)
  rw [← (holds.depth file listed).symm.trans (holds'.depth file listed)]
  exact placed id entry member

/-- A row in its place is found where its path hashes to. -/
theorem mem_allRows_iff_of_placed (holds : files.Holds levels rows) (placed : Placed blake3 levels rows) {entry : Entry} :
    entry ∈ files.allRows rows ↔ entry ∈ rows (LockShardId.forPath blake3 entry.path levels) := by
  rw [holds.mem_allRows_iff]
  constructor
  · rintro ⟨id, member⟩
    rwa [placed id entry member]
  · exact fun member => ⟨_, member⟩

/-- Rows in their places have distinct paths. -/
theorem nodup_of_placed (holds : files.Holds levels rows) (placed : Placed blake3 levels rows) :
    Lock.UniquePaths ⟨files.allRows rows⟩ := by
  unfold Lock.UniquePaths
  rw [ShardFiles.allRows, List.map_flatMap, List.nodup_flatMap]
  refine ⟨fun file _ => (holds.sorted file.1).uniquePaths, files.sorted.imp fun {left right} below => ?_⟩
  intro path inLeft inRight
  obtain ⟨first, firstMember, rfl⟩ := List.mem_map.mp inLeft
  obtain ⟨second, secondMember, same⟩ := List.mem_map.mp inRight
  have leftPlace := placed left.1 first firstMember
  have rightPlace := placed right.1 second secondMember
  rw [same, leftPlace] at rightPlace
  exact absurd below (rightPlace ▸ lt_irrefl _)

end ShardFiles.Holds

/-! ## Reading the files -/

/-- The rows a view returns for entries. -/
def viewRows (entries : List Entry) : List (GatPath × Oid) := entries.map fun entry => (entry.path, entry.oid)

theorem viewRows_paths (entries : List Entry) :
    (viewRows entries).map (fun row => row.1.text) = entries.map fun entry => entry.path.text := by
  rw [viewRows, List.map_map]
  rfl

theorem entries_viewRows (entries : List Entry) :
    (viewRows entries).map (fun row => (⟨row.1, row.2⟩ : Entry)) = entries := by
  rw [viewRows, List.map_map]
  exact List.map_id entries

/-- The shard holds the entries of its file and knows whether they are in their places. -/
structure Resident (blake3 : ContentHash) (file : LockShardId × Str) (shard : ResidentShard) (entries : List Entry) :
    Prop where
  holds : FileHolds file.2 entries
  rows : (shard.view.semanticRows : Outcome LockError (List (GatPath × Oid))) = .ok (viewRows entries)
  firstError : shard.placementError = entries.findSome? fun entry => checkShardPlacement blake3 file.1 file.1.levels entry.path.text

theorem checkShardPlacement_eq_none_iff {blake3 : ContentHash} {shard : LockShardId} {path : GatPath} :
    checkShardPlacement blake3 shard shard.levels path.text = none ↔ LockShardId.forPath blake3 path shard.levels = shard := by
  unfold checkShardPlacement LockShardId.forPath
  dsimp only
  split_ifs with misplaced
  · exact iff_of_false (by simp) misplaced
  · exact iff_of_true rfl (not_not.mp misplaced)

theorem Resident.placement {blake3 : ContentHash} {file : LockShardId × Str} {shard : ResidentShard} {entries : List Entry}
    (resident : Resident blake3 file shard entries) :
    shard.placementError = none ↔ ∀ entry ∈ entries, LockShardId.forPath blake3 entry.path file.1.levels = file.1 := by
  rw [resident.firstError, List.findSome?_eq_none_iff]
  exact forall₂_congr fun entry _ => checkShardPlacement_eq_none_iff

/-- Reading a file gives the rows it is a document for, or fails when it is none. -/
theorem decodeResidentShard_cases (kernel : Kernel) (blake3 : ContentHash) (file : LockShardId × Str) :
    (∃ shard, decodeResidentShard kernel blake3 file = .ok shard ∧ ∃ entries, Resident blake3 file shard entries) ∨
      (∃ error, decodeResidentShard kernel blake3 file = Outcome.fail error) ∧ ∀ entries, ¬FileHolds file.2 entries := by
  unfold decodeResidentShard readToString
  by_cases valid : Utf8.Valid file.2
  · rw [if_pos valid, Outcome.ok_bind]
    rcases decode_cases kernel valid with ⟨view, rows, decoded, document, holds, certified⟩ | ⟨⟨failure, rejected⟩, other⟩
    · left
      obtain ⟨typed, rfl⟩ := certified.exists_decodedRows
      obtain ⟨entries, rfl⟩ : ∃ entries, viewRows entries = typed :=
        ⟨typed.map fun row => ⟨row.1, row.2⟩, by simp [viewRows, Function.comp_def]⟩
      have same : decodedRows (viewRows entries) = decodedEntries entries := by
        rw [decodedRows, viewRows, List.map_map]
        rfl
      rw [decoded]
      simp only [Outcome.mapErr, Outcome.ok_bind, semanticRows_eq holds, Outcome.pure_eq_ok]
      refine ⟨_, rfl, entries, ⟨valid, same ▸ document⟩, semanticRows_eq holds, ?_⟩
      dsimp only
      split_ifs with isFlat
      · refine (List.findSome?_eq_none_iff.mpr fun entry _ => ?_).symm
        rw [LockShardId.isFlat, LockShardLevels.isFlat_iff] at isFlat
        rw [checkShardPlacement_eq_none_iff, LockShardId.eq_flat isFlat]
        rfl
      · rw [viewRows, List.findSome?_map]
        rfl
    · right
      rw [rejected]
      exact ⟨⟨_, rfl⟩, fun entries holds => other _ holds.document⟩
  · right
    rw [if_neg valid]
    exact ⟨⟨_, rfl⟩, fun entries holds => valid holds.utf8⟩

/-- A traversal of fallible steps succeeds on all elements or fails on one. -/
theorem Outcome.mapM_cases {ε α β : Type} {step : α → Outcome ε β} {Good : α → β → Prop} {Bad : α → Prop}
    {elements : List α}
    (cases : ∀ element ∈ elements, (∃ value, step element = .ok value ∧ Good element value) ∨
      (∃ error, step element = Outcome.fail error) ∧ Bad element) :
    (∃ values, elements.mapM step = .ok values ∧ List.Forall₂ Good elements values) ∨
      (∃ error, elements.mapM step = Outcome.fail error) ∧ ∃ element ∈ elements, Bad element := by
  induction elements with
  | nil => exact Or.inl ⟨[], rfl, List.Forall₂.nil⟩
  | cons element elements ih =>
    rw [List.forall_mem_cons] at cases
    rw [List.mapM_cons]
    rcases cases.1 with ⟨value, done, good⟩ | ⟨⟨error, failed⟩, bad⟩
    · rw [done, Outcome.ok_bind]
      rcases ih cases.2 with ⟨values, rest, goods⟩ | ⟨⟨error, failed⟩, other, member, bad⟩
      · exact Or.inl ⟨value :: values, by rw [rest]; rfl, List.Forall₂.cons good goods⟩
      · exact Or.inr ⟨⟨error, by rw [failed]; rfl⟩, other, List.mem_cons_of_mem _ member, bad⟩
    · exact Or.inr ⟨⟨error, by rw [failed]; rfl⟩, element, List.mem_cons_self, bad⟩

/-- One depth, or a failure. -/
theorem shardTopology_cases (ids : List LockShardId) :
    (∃ levels, shardTopology ids = .ok levels ∧ ∀ id ∈ ids, id.levels = levels) ∨
      (∃ error, shardTopology ids = Outcome.fail error) ∧ ∀ levels, ¬∀ id ∈ ids, id.levels = levels := by
  have scan (first : LockShardLevels) (ids : List LockShardId) :
      (shardTopologyFrom first ids = .ok first ∧ ∀ id ∈ ids, id.levels = first) ∨
        (∃ error, shardTopologyFrom first ids = Outcome.fail error) ∧ ¬∀ id ∈ ids, id.levels = first := by
    induction ids with
    | nil => exact Or.inl ⟨rfl, by simp⟩
    | cons id ids ih =>
      rw [shardTopologyFrom, List.forall_mem_cons]
      split_ifs with same
      · exact ih.imp (fun both => ⟨both.1, same.symm, both.2⟩) (fun both => ⟨both.1, fun all => both.2 all.2⟩)
      · exact Or.inr ⟨⟨_, rfl⟩, fun all => same all.1.symm⟩
  cases ids with
  | nil => exact Or.inl ⟨_, rfl, by simp⟩
  | cons id ids =>
    rw [shardTopology]
    rcases scan id.levels ids with ⟨accepted, uniform⟩ | ⟨rejected, mixed⟩
    · exact Or.inl ⟨_, accepted, List.forall_mem_cons.mpr ⟨rfl, uniform⟩⟩
    · refine Or.inr ⟨rejected, fun levels uniform => mixed ?_⟩
      rw [List.forall_mem_cons] at uniform
      rw [uniform.1]
      exact uniform.2

/-! ## Certifying and loading -/

section Load

variable {blake3 : ContentHash} {files : ShardFiles} {levels : LockShardLevels} {rows : LockShardId → List Entry}

/-- The paths of all rows in shard order. -/
def ShardFiles.allPaths (files : ShardFiles) (rows : LockShardId → List Entry) : List Str :=
  (files.allRows rows).map fun entry => entry.path.text

/-- What a load says about the rows of its files. -/
inductive Certified (blake3 : ContentHash) (files : ShardFiles) (levels : LockShardLevels)
    (rows : LockShardId → List Entry) : Outcome LockError Unit → Prop
  | accepted (placed : Placed blake3 levels rows) (separated : Separated Byte.slash (files.allPaths rows)) :
    Certified blake3 files levels rows (.ok ())
  | conflict (ancestor descendant : Str) (placed : Placed blake3 levels rows)
    (overlap : ¬Separated Byte.slash (files.allPaths rows)) :
    Certified blake3 files levels rows (Outcome.fail (.domain (.directoryPrefixConflict ancestor descendant)))
  | misplaced (error : LockError) (outside : ¬Placed blake3 levels rows) :
    Certified blake3 files levels rows (Outcome.fail error)

private theorem mapM_semanticRows {list : List (LockShardId × Str)} {shards : List ResidentShard}
    (residents : List.Forall₂ (fun file shard => Resident blake3 file shard (rows file.1)) list shards) :
    (shards.mapM (fun shard => shard.view.semanticRows) : Outcome LockError (List (List (GatPath × Oid)))) =
      .ok (list.map fun file => viewRows (rows file.1)) := by
  induction residents with
  | nil => rfl
  | cons resident _ ih => rw [List.mapM_cons, resident.rows, Outcome.ok_bind, ih]; rfl

private theorem placementErrors_eq_none_iff (holds : files.Holds levels rows) {shards : List ResidentShard}
    (residents : List.Forall₂ (fun file shard => Resident blake3 file shard (rows file.1)) files.entries shards) :
    (∀ shard ∈ shards, shard.placementError = none) ↔ Placed blake3 levels rows := by
  have listed : (∀ shard ∈ shards, shard.placementError = none) ↔
      ∀ file ∈ files.entries, ∀ entry ∈ rows file.1, LockShardId.forPath blake3 entry.path file.1.levels = file.1 := by
    generalize files.entries = list at residents
    induction residents with
    | nil => simp
    | cons resident _ ih => rw [List.forall_mem_cons, List.forall_mem_cons, resident.placement, ih]
  rw [listed]
  constructor
  · intro inPlace id entry member
    cases found : files.get? id with
    | none =>
      rw [holds.absent id found] at member
      simp at member
    | some text =>
      have file := SortedMap.get?_eq_some_iff.mp found
      rw [← holds.depth _ file]
      exact inPlace _ file entry member
  · intro placed file member entry listed
    rw [holds.depth file member]
    exact placed file.1 entry listed

theorem viewRows_sorted {entries : List Entry} (sorted : StrictlySorted entries) :
    (viewRows entries).Pairwise fun left right => left.1 ≤ right.1 :=
  List.pairwise_map.mpr (sorted.imp le_of_lt)

/-- The merged rows of all shards are their paths in order. -/
private theorem residentRows_eq (holds : files.Holds levels rows) {shards : List ResidentShard}
    (residents : List.Forall₂ (fun file shard => Resident blake3 file shard (rows file.1)) files.entries shards) :
    ∃ merged, residentRows shards = .ok merged ∧ (merged.map fun row => row.1.1.text).Pairwise (· ≤ ·) ∧
      (merged.map fun row => row.1.1.text).Perm (files.allPaths rows) := by
  unfold residentRows
  rw [mapM_semanticRows residents, Outcome.ok_bind]
  refine ⟨_, rfl, ?_, ?_⟩
  · have ordered : ∀ queue ∈ files.entries.map (fun file => viewRows (rows file.1)),
        queue.Pairwise fun left right => left.1 ≤ right.1 := by
      intro queue member
      obtain ⟨file, -, rfl⟩ := List.mem_map.mp member
      exact viewRows_sorted (holds.sorted file.1)
    exact List.pairwise_map.mpr (List.mergeHeads_pairwise ordered)
  · have perm := (List.mergeHeads_perm Prod.fst (files.entries.map fun file => viewRows (rows file.1))).map
      fun row => row.1.text
    rw [List.map_map] at perm
    refine perm.trans (List.Perm.of_eq ?_)
    rw [List.map_flatten, List.map_map, ShardFiles.allPaths, ShardFiles.allRows, List.map_flatMap, List.flatMap]
    exact congrArg List.flatten (List.map_congr_left fun file _ => viewRows_paths (rows file.1))

/-- Certification accepts exactly rows in their places without an ancestor pair, and reports an ancestor pair
only between rows in their places. -/
theorem certifyResidentShards_cases (holds : files.Holds levels rows) {shards : List ResidentShard}
    (residents : List.Forall₂ (fun file shard => Resident blake3 file shard (rows file.1)) files.entries shards) :
    Certified blake3 files levels rows (certifyResidentShards shards) := by
  have placement := placementErrors_eq_none_iff holds residents
  unfold certifyResidentShards
  split
  · next shard =>
    obtain ⟨file, rest, resident, none, single⟩ := List.forall₂_cons_right_iff.mp residents
    obtain rfl := List.forall₂_nil_right_iff.mp none
    rw [List.forall_mem_singleton] at placement
    cases error : shard.placementError with
    | some error => exact Certified.misplaced _ fun placed => by simp [placement.mpr placed] at error
    | none =>
      refine Certified.accepted (placement.mp error) ?_
      rw [ShardFiles.allPaths, ShardFiles.allRows, single, List.flatMap_singleton]
      exact resident.holds.separated
  · obtain ⟨merged, rowsEq, ordered, perm⟩ := residentRows_eq holds residents
    have unique (placed : Placed blake3 levels rows) : (files.allPaths rows).Nodup := by
      have distinct := (holds.nodup_of_placed placed).map GatPath.text_injective
      rwa [List.map_map] at distinct
    rw [rowsEq, Outcome.ok_bind]
    rcases foldlM_certifyRow_cases Scanned.nil (by simpa using ordered) with ⟨path, repeated, duplicate⟩ | ⟨state, scanned, whole⟩
    · rw [repeated, Outcome.fail_bind]
      refine Certified.misplaced _ fun placed => ?_
      have once := List.nodup_iff_count_le_one.mp (perm.nodup_iff.mpr (unique placed)) path
      rw [List.nil_append] at duplicate
      omega
    · rw [scanned, Outcome.ok_bind]
      rw [List.nil_append] at whole
      cases firstError : shards.findSome? ResidentShard.placementError with
      | some error =>
        refine Certified.misplaced _ fun placed => ?_
        obtain ⟨shard, member, found⟩ := List.exists_of_findSome?_eq_some firstError
        rw [placement.mpr placed shard member] at found
        simp at found
      | none =>
        have placed := placement.mp (List.findSome?_eq_none_iff.mp firstError)
        rcases whole.prefixError with ⟨clear, separated⟩ | ⟨ancestor, isAncestor, descendant, isDescendant, error, overlap⟩
        · rw [clear]
          exact Certified.accepted placed (separated.subset perm.symm.subset)
        · rw [error]
          exact Certified.conflict _ _ placed fun separated =>
            separated ancestor (perm.subset isAncestor) descendant (perm.subset isDescendant) overlap

/-- What a load says about its files: without documents of one depth it fails, and otherwise certification
decides. -/
theorem loadSharded_cases (kernel : Kernel) (blake3 : ContentHash) (files : ShardFiles) :
    ((∃ error, loadSharded kernel blake3 files = Outcome.fail error) ∧ ∀ levels rows, ¬files.Holds levels rows) ∨
      ∃ levels rows, files.Holds levels rows ∧ ∃ certified, Certified blake3 files levels rows certified ∧
        loadSharded kernel blake3 files = certified.bind fun _ => .ok ⟨files.allRows rows⟩ := by
  unfold loadSharded
  rcases shardTopology_cases (files.entries.map Prod.fst) with ⟨levels, one, uniform⟩ | ⟨⟨error, mixed⟩, different⟩
  · rw [one, Outcome.ok_bind]
    rcases Outcome.mapM_cases fun file _ => decodeResidentShard_cases kernel blake3 file with
      ⟨shards, read, residents⟩ | ⟨⟨error, failed⟩, file, member, other⟩
    · right
      have document : ∀ id, ∃ entries, (∀ text, files.get? id = some text → FileHolds text entries) ∧
          (files.get? id = none → entries = []) := by
        intro id
        cases found : files.get? id with
        | none => exact ⟨[], by simp⟩
        | some text =>
          obtain ⟨shard, -, entries, resident⟩ := List.exists_of_forall₂ residents (SortedMap.get?_eq_some_iff.mp found)
          exact ⟨entries, by simpa using resident.holds⟩
      choose rows document absent using document
      have holds : files.Holds levels rows := ⟨fun file member => uniform _ (List.mem_map_of_mem member),
        fun file member => document file.1 file.2 (SortedMap.get?_of_mem member), absent⟩
      refine ⟨levels, rows, holds, ?_⟩
      have residents : List.Forall₂ (fun file shard => Resident blake3 file shard (rows file.1)) files.entries shards := by
        refine ((List.forall₂_and_left _ _).mpr ⟨holds.document, residents⟩).imp fun file shard both => ?_
        obtain ⟨document, entries, resident⟩ := both
        rwa [resident.holds.unique document] at resident
      refine ⟨_, certifyResidentShards_cases holds residents, ?_⟩
      rw [read, Outcome.ok_bind, mapM_semanticRows residents]
      refine congrArg (Except.bind _) (funext fun _ => ?_)
      rw [Outcome.ok_bind, Outcome.pure_eq_ok, Except.ok.injEq, Lock.mk.injEq, List.map_flatten, List.map_map,
        ShardFiles.allRows, List.flatMap]
      exact congrArg List.flatten (List.map_congr_left fun file _ => entries_viewRows (rows file.1))
    · left
      rw [failed, Outcome.fail_bind]
      exact ⟨⟨_, rfl⟩, fun levels rows holds => other _ (holds.document file member)⟩
  · left
    rw [mixed, Outcome.fail_bind]
    exact ⟨⟨_, rfl⟩, fun levels rows holds => different levels (List.forall_mem_map.mpr holds.depth)⟩

/-- The files are what a complete load accepts: documents of one depth whose rows are in their places and
have no ancestor pair. -/
structure ShardFiles.Stores (blake3 : ContentHash) (files : ShardFiles) (levels : LockShardLevels)
    (rows : LockShardId → List Entry) : Prop where
  holds : files.Holds levels rows
  placed : Placed blake3 levels rows
  separated : Separated Byte.slash (files.allPaths rows)

/-- Loading returns exactly the rows of stored files in shard order. -/
theorem loadSharded_eq_ok_iff {kernel : Kernel} {lock : Lock} :
    loadSharded kernel blake3 files = .ok lock ↔
      ∃ levels rows, files.Stores blake3 levels rows ∧ lock = ⟨files.allRows rows⟩ := by
  rcases loadSharded_cases kernel blake3 files with ⟨⟨error, failed⟩, other⟩ | ⟨levels, rows, holds, _, certified, loaded⟩
  · rw [failed]
    refine iff_of_false (Outcome.fail_ne_ok _ _) ?_
    rintro ⟨levels, rows, stores, -⟩
    exact other levels rows stores.holds
  · rw [loaded]
    constructor
    · intro same
      cases certified with
      | accepted placed separated => exact ⟨levels, rows, ⟨holds, placed, separated⟩, (Except.ok.inj same).symm⟩
      | conflict => exact absurd same (Outcome.fail_ne_ok _ _)
      | misplaced => exact absurd same (Outcome.fail_ne_ok _ _)
    · rintro ⟨levels', rows', stores, rfl⟩
      obtain rfl := holds.unique stores.holds
      cases certified with
      | accepted => rfl
      | conflict _ _ _ overlap => exact absurd stores.separated overlap
      | misplaced _ outside => exact absurd (stores.holds.placed_of_holds holds stores.placed) outside

/-- Rows in their places load exactly when they have no ancestor pair, and fail with one otherwise. -/
theorem loadSharded_of_placed (kernel : Kernel) (holds : files.Holds levels rows) (placed : Placed blake3 levels rows) :
    (Separated Byte.slash (files.allPaths rows) ∧ loadSharded kernel blake3 files = .ok ⟨files.allRows rows⟩) ∨
      ¬Separated Byte.slash (files.allPaths rows) ∧ ∃ ancestor descendant,
        loadSharded kernel blake3 files = Outcome.fail (.domain (.directoryPrefixConflict ancestor descendant)) := by
  by_cases separated : Separated Byte.slash (files.allPaths rows)
  · exact Or.inl ⟨separated, loadSharded_eq_ok_iff.mpr ⟨levels, rows, ⟨holds, placed, separated⟩, rfl⟩⟩
  · refine Or.inr ⟨separated, ?_⟩
    rcases loadSharded_cases kernel blake3 files with ⟨-, other⟩ | ⟨levels', rows', holds', _, certified, loaded⟩
    · exact absurd holds (other levels rows)
    · obtain rfl := holds.unique holds'
      rw [loaded]
      cases certified with
      | accepted _ free => exact absurd free separated
      | conflict ancestor descendant => exact ⟨ancestor, descendant, rfl⟩
      | misplaced _ outside => exact absurd (holds.placed_of_holds holds' placed) outside

end Load

end Gat
