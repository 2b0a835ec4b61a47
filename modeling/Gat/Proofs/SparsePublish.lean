import Gat.Model.SparsePublish
import Gat.Proofs.LockTree
import Gat.Proofs.Movement
import Gat.Proofs.ShardCatalog

/-! # What sparse publication rewrites

A mutation leaves the rows of every shard that it does not collect alone, and publication rewrites the files of
the collected shards from the rows after it. Together they keep the files the mirror of the rows.
-/

namespace Gat

open LockFormat AncestorFree

variable {blake3 : ContentHash} {levels : LockShardLevels} {before after table : StateTable} {touched : Finset LockShardId}
  {shard : LockShardId}

/-! ## Collected shards -/

/-- A mutation collected every shard whose rows it changed, at one depth. -/
structure Touches (blake3 : ContentHash) (levels : LockShardLevels) (before after : StateTable) (touched : Finset LockShardId) :
    Prop where
  placed : after.PlacedAt blake3 levels
  depth : ∀ shard ∈ touched, shard.levels = levels
  untouched : ∀ shard ∉ touched, after.shardRows shard = before.shardRows shard

theorem StateTable.PlacedAt.depth {path : GatPath} {oid : Oid} (placed : table.PlacedAt blake3 levels)
    (desired : table.desiredAt path = some (oid, shard)) : shard.levels = levels := by
  rw [placed path oid shard desired, LockShardId.levels_forPath]

theorem StateTable.PlacedAt.empty : StateTable.PlacedAt .empty blake3 levels := by
  intro path oid shard desired
  cases desired

/-- Upserted rows carry the shards of their paths. -/
theorem StateTable.PlacedAt.upsertEntries (placed : table.PlacedAt blake3 levels) (entries : List Entry) :
    (table.upsertEntries blake3 levels entries).PlacedAt blake3 levels := by
  intro path oid shard desired
  by_cases inside : path ∈ entries.map Entry.path
  · obtain ⟨entry, -, -, found⟩ := StateTable.desiredAt_upsertEntries_of_mem table inside
    exact (congrArg Prod.snd (Option.some.inj (desired.symm.trans found)))
  · rw [StateTable.desiredAt_upsertEntries_of_not_mem table inside] at desired
    exact placed path oid shard desired

namespace Touches

theorem refl (placed : before.PlacedAt blake3 levels) : Touches blake3 levels before before ∅ :=
  ⟨placed, fun _ member => absurd member (Finset.notMem_empty _), fun _ _ => rfl⟩

/-- Mutations in a row collect the shards of each. -/
theorem trans {middle : StateTable} {others : Finset LockShardId} (first : Touches blake3 levels before middle touched)
    (second : Touches blake3 levels middle after others) : Touches blake3 levels before after (touched ∪ others) where
  placed := second.placed
  depth shard member := (Finset.mem_union.mp member).elim (first.depth shard) (second.depth shard)
  untouched shard outside := by
    rw [Finset.mem_union, not_or] at outside
    rw [second.untouched shard outside.2, first.untouched shard outside.1]

theorem upsertEntries (placed : before.PlacedAt blake3 levels) (entries : List Entry)
    (collected : ∀ shard, shard ∈ touched ↔ (∃ path ∈ entries.map Entry.path, ∃ oid, before.desiredAt path = some (oid, shard)) ∨
      ∃ entry ∈ entries, LockShardId.forPath blake3 entry.path levels = shard) :
    Touches blake3 levels before (before.upsertEntries blake3 levels entries) touched where
  placed := placed.upsertEntries entries
  depth shard member := by
    rcases (collected shard).mp member with ⟨path, -, oid, desired⟩ | ⟨entry, -, rfl⟩
    · exact placed.depth desired
    · exact LockShardId.levels_forPath ..
  untouched shard outside := by
    rw [collected, not_or] at outside
    refine StateTable.shardRows_congr fun path oid => ?_
    by_cases inside : path ∈ entries.map Entry.path
    · obtain ⟨entry, member, rfl, found⟩ := StateTable.desiredAt_upsertEntries_of_mem before inside
      refine iff_of_false (fun desired => outside.2 ⟨entry, member, ?_⟩) fun desired => outside.1 ⟨_, inside, oid, desired⟩
      exact congrArg Prod.snd (Option.some.inj (found.symm.trans desired))
    · rw [StateTable.desiredAt_upsertEntries_of_not_mem before inside]

theorem upsertCollectShards {state : StateTable × Finset LockShardId} (earlier : Touches blake3 levels before state.1 state.2)
    (entries : List Entry) : Touches blake3 levels before (Gat.upsertCollectShards blake3 levels state entries).1
      (Gat.upsertCollectShards blake3 levels state entries).2 := by
  rw [Gat.upsertCollectShards, Finset.union_assoc]
  refine earlier.trans (upsertEntries earlier.placed entries fun shard => ?_)
  rw [Finset.mem_union, StateTable.mem_desiredShardIdsForPaths, List.mem_toFinset, List.mem_map]

/-- A mutation that only clears desired halves collects the shards it clears them in. -/
theorem clear (placed : before.PlacedAt blake3 levels) {cleared : GatPath → Prop} [DecidablePred cleared]
    (rows : ∀ path, after.desiredAt path = if cleared path then none else before.desiredAt path)
    (collected : ∀ shard, shard ∈ touched ↔ ∃ path, cleared path ∧ ∃ oid, before.desiredAt path = some (oid, shard)) :
    Touches blake3 levels before after touched where
  placed path oid shard desired := by
    rw [rows] at desired
    split_ifs at desired
    exact placed path oid shard desired
  depth shard member := by
    obtain ⟨path, -, oid, desired⟩ := (collected shard).mp member
    exact placed.depth desired
  untouched shard outside := by
    refine StateTable.shardRows_congr fun path oid => ?_
    rw [rows]
    split_ifs with inside
    · exact iff_of_false nofun fun desired => outside ((collected shard).mpr ⟨path, inside, oid, desired⟩)
    · rfl

theorem clearDesiredPrefix (placed : before.PlacedAt blake3 levels) (scope : GatPath) :
    Touches blake3 levels before (before.clearDesiredPrefix scope) (before.desiredShardIdsForScope scope) := by
  refine clear placed (StateTable.desiredAt_clearDesiredPrefix before scope) fun shard => ?_
  simp only [StateTable.mem_desiredShardIdsForScope, exists_and_left]

theorem removeCollectShards {state : StateTable × Finset LockShardId} (earlier : Touches blake3 levels before state.1 state.2)
    (removal : DesiredRemoval) : Touches blake3 levels before (Gat.removeCollectShards state removal).1
      (Gat.removeCollectShards state removal).2 := by
  cases removal with
  | exact paths =>
    refine earlier.trans (clear earlier.placed (StateTable.desiredAt_clearDesiredExact state.1 paths) fun shard => ?_)
    exact StateTable.mem_desiredShardIdsForPaths
  | subtree path => exact earlier.trans (clearDesiredPrefix earlier.placed path)

theorem prepareAddWindow {state : StateTable × Finset LockShardId} (earlier : Touches blake3 levels before state.1 state.2)
    (window : List PreparedMaterialization) : Touches blake3 levels before (Gat.prepareAddWindow blake3 levels state window).1
      (Gat.prepareAddWindow blake3 levels state window).2 := by
  unfold Gat.prepareAddWindow
  dsimp only
  split_ifs
  · exact earlier
  · exact earlier.upsertCollectShards _

theorem upsertWindow {state : StateTable × Finset LockShardId} (earlier : Touches blake3 levels before state.1 state.2)
    (batch : List Entry) : Touches blake3 levels before (Gat.upsertWindow blake3 levels state batch).1
      (Gat.upsertWindow blake3 levels state batch).2 := by
  unfold Gat.upsertWindow
  split_ifs with none flat
  · exact earlier
  · refine earlier.trans (upsertEntries earlier.placed batch fun shard => ?_)
    obtain rfl := LockShardLevels.isFlat_iff.mp flat
    obtain ⟨entry, member⟩ := List.exists_mem_of_ne_nil batch none
    rw [Finset.mem_singleton]
    constructor
    · rintro rfl
      exact Or.inr ⟨entry, member, LockShardId.eq_flat (LockShardId.levels_forPath ..)⟩
    · rintro (⟨path, -, oid, desired⟩ | ⟨other, -, rfl⟩)
      · exact LockShardId.eq_flat (earlier.placed.depth desired)
      · exact LockShardId.eq_flat (LockShardId.levels_forPath ..)
  · exact earlier.upsertCollectShards batch

/-- A fold of collecting mutations collects the shards of all of them. -/
theorem foldl {α : Type} {step : StateTable × Finset LockShardId → α → StateTable × Finset LockShardId}
    (each : ∀ state, Touches blake3 levels before state.1 state.2 → ∀ item,
      Touches blake3 levels before (step state item).1 (step state item).2)
    (items : List α) {state : StateTable × Finset LockShardId} (earlier : Touches blake3 levels before state.1 state.2) :
    Touches blake3 levels before (items.foldl step state).1 (items.foldl step state).2 := by
  induction items generalizing state with
  | nil => exact earlier
  | cons item items ih => exact ih (each state earlier item)

theorem move (placed : before.PlacedAt blake3 levels) (src dst : GatPath) :
    Touches blake3 levels before (moveRepositoryRows before blake3 src dst levels).1 (moveRepositoryRows before blake3 src dst levels).2 := by
  unfold moveRepositoryRows
  by_cases tracked : (RepositoryMoveRows.read before src dst).hasTrackedSource
  · refine ⟨RepositoryMoveRows.placedAt_apply tracked placed, fun shard member => ?_, fun shard outside => ?_⟩
    · rw [RepositoryMoveRows.apply_snd tracked, Finset.mem_union, Finset.mem_union, StateTable.mem_desiredShardIdsForScope,
        StateTable.mem_desiredShardIdsForScope, RepositoryMoveRows.mem_targetShards] at member
      rcases member with (⟨path, oid, -, desired⟩ | ⟨path, oid, -, desired⟩) | ⟨path, -, -, rfl⟩
      · exact placed.depth desired
      · exact placed.depth desired
      · exact LockShardId.levels_forPath ..
    · exact RepositoryMoveRows.shardRows_apply_of_not_mem tracked outside
  · rw [RepositoryMoveRows.apply, if_pos (by simpa using tracked)]
    exact refl placed

end Touches

/-! ## Publishing one shard -/

variable {stats : PublishStats} {prior : Option (ShardContentIdentity × StatProof)} {current : Option Str} {rendered : Str}

/-- A receipt of the bytes that a shard file now has. Its proof is the one recorded with the same identity, or was read
off a file with these bytes, or was established by writing them. -/
structure ReceiptOf (blake3 : ContentHash) (stats : PublishStats) (prior : Option (ShardContentIdentity × StatProof))
    (current : Option Str) (rendered : Str) (evidence : ShardEvidence) : Prop where
  identity : evidence.identity = blake3 rendered
  proof : prior = some (evidence.identity, evidence.proof) ∨
    (evidence.proof = stats.observed evidence.shardId ∧ current = some rendered) ∨ evidence.proof = stats.written evidence.shardId rendered

/-- The file can be read, and where an agreeing proof spares its publication it has the bytes already. -/
structure Spared (blake3 : ContentHash) (stats : PublishStats) (shard : LockShardId) (prior : Option (ShardContentIdentity × StatProof))
    (current : Option Str) (rendered : Str) : Prop where
  readable : ∀ text, current = some text → Utf8.Valid text
  same : ∀ proof text, prior = some (blake3 rendered, proof) → current = some text → stats.agrees shard proof = true → text = rendered

/-- Publishing a shard leaves the rendered bytes in its file, whether or not it writes them. -/
theorem publishRenderedShard_spec (tree : ShardTree) (nested : shard.isFlat = false)
    (spared : Spared blake3 stats shard prior (tree.files.get? shard) rendered) :
    ∃ saved evidence, publishRenderedShard stats tree shard nested rendered (blake3 rendered) prior = .ok (saved, evidence) ∧
      (∀ other, saved.files.get? other = if shard = other then some rendered else tree.files.get? other) ∧
      evidence.shardId = shard ∧ ReceiptOf blake3 stats prior (tree.files.get? shard) rendered evidence := by
  have replaced := ShardTree.get?_write tree nested rendered
  have kept {text : Str} (found : tree.files.get? shard = some text) (same : text = rendered) (other : LockShardId) :
      tree.files.get? other = if shard = other then some rendered else tree.files.get? other := by
    split_ifs with here
    · rw [← here, found, same]
    · rfl
  unfold publishRenderedShard
  cases agreed : prior.filter fun prior => (tree.files.get? shard).isSome && stats.agrees shard prior.2 with
  | some recorded =>
    obtain ⟨identity, proof⟩ := recorded
    obtain ⟨isPrior, agrees⟩ := Option.filter_eq_some_iff.mp agreed
    obtain ⟨isFile, agrees⟩ := Bool.and_eq_true_iff.mp agrees
    obtain ⟨text, found⟩ := Option.isSome_iff_exists.mp isFile
    dsimp only
    split_ifs with same
    · subst same
      exact ⟨tree, _, rfl, kept found (spared.same proof text isPrior found agrees), rfl, rfl, Or.inl isPrior⟩
    · exact ⟨_, _, rfl, replaced, rfl, rfl, Or.inr (Or.inr rfl)⟩
  | none =>
    dsimp only
    unfold publishIfChanged
    cases found : tree.files.get? shard with
    | none => exact ⟨_, _, rfl, replaced, rfl, rfl, Or.inr (Or.inr rfl)⟩
    | some text =>
      dsimp only
      rw [if_pos (spared.readable text found)]
      split_ifs with size same
      · exact ⟨tree, _, rfl, kept found same, rfl, rfl, Or.inr (Or.inl ⟨rfl, congrArg some same⟩)⟩
      · exact ⟨_, _, rfl, replaced, rfl, rfl, Or.inr (Or.inr rfl)⟩
      · exact ⟨_, _, rfl, replaced, rfl, rfl, Or.inr (Or.inr rfl)⟩

/-! ## Steps on shard files -/

namespace ShardStep

variable {priors : LockShardId → Option (ShardContentIdentity × StatProof)}

/-- What a step leaves of its file. -/
def text? : ShardStep → Option Str
  | remove _ => none
  | publish _ _ rendered => some rendered

theorem isRemove_eq (step : ShardStep) : step.isRemove = step.text?.isNone := by
  cases step <;> rfl

/-- A step leaves its own file as it should, with a receipt or a removal, and every other file alone. -/
theorem run_spec (step : ShardStep) (state : ShardTree × SparseShardPublish)
    (spared : ∀ rendered, step.text? = some rendered →
      Spared blake3 stats step.shard (priors step.shard) (state.1.files.get? step.shard) rendered) :
    ∃ tree receipts, step.run blake3 stats priors state =
        .ok (tree, state.2.1 ++ receipts, state.2.2 ++ ([step].filter ShardStep.isRemove).map ShardStep.shard) ∧
      (∀ other, tree.files.get? other = if step.shard = other then step.text? else state.1.files.get? other) ∧
      receipts.map ShardEvidence.shardId = ([step].filter fun step => !step.isRemove).map ShardStep.shard ∧
      ∀ evidence ∈ receipts, ∃ rendered, step.text? = some rendered ∧
        ReceiptOf blake3 stats (priors evidence.shardId) (state.1.files.get? evidence.shardId) rendered evidence := by
  cases step with
  | remove removed =>
    refine ⟨state.1.remove removed, [], by rw [List.append_nil]; rfl, fun other => ?_, rfl, fun _ member => absurd member List.not_mem_nil⟩
    rw [ShardTree.remove, SortedMap.get?_erase]
    split_ifs <;> first | rfl | contradiction
  | publish written nested rendered =>
    obtain ⟨saved, evidence, ran, files, isShard, receipt⟩ := publishRenderedShard_spec state.1 nested (spared rendered rfl)
    refine ⟨saved, [evidence], ?_, files, by rw [List.map_singleton, isShard]; rfl, fun other member => ?_⟩
    · rw [run]
      dsimp only [ShardStep.shard] at ran
      rw [ran]
      exact congrArg (fun removed => Except.ok (saved, state.2.1 ++ [evidence], removed)) (List.append_nil _).symm
    · rw [List.mem_singleton.mp member, isShard]
      exact ⟨rendered, rfl, receipt⟩

variable (blake3 stats priors) in
/-- Steps on different files leave each file as its own step does, with the receipts and removals of all. -/
theorem foldlM_run {steps : List ShardStep} (distinct : (steps.map ShardStep.shard).Nodup) (state : ShardTree × SparseShardPublish)
    (spared : ∀ step ∈ steps, ∀ rendered, step.text? = some rendered →
      Spared blake3 stats step.shard (priors step.shard) (state.1.files.get? step.shard) rendered) :
    ∃ tree receipts, steps.foldlM (run blake3 stats priors) state =
        .ok (tree, state.2.1 ++ receipts, state.2.2 ++ (steps.filter ShardStep.isRemove).map ShardStep.shard) ∧
      (∀ step ∈ steps, tree.files.get? step.shard = step.text?) ∧
      (∀ shard ∉ steps.map ShardStep.shard, tree.files.get? shard = state.1.files.get? shard) ∧
      receipts.map ShardEvidence.shardId = (steps.filter fun step => !step.isRemove).map ShardStep.shard ∧
      ∀ evidence ∈ receipts, ∃ step ∈ steps, step.shard = evidence.shardId ∧ ∃ rendered, step.text? = some rendered ∧
        ReceiptOf blake3 stats (priors evidence.shardId) (state.1.files.get? evidence.shardId) rendered evidence := by
  induction steps generalizing state with
  | nil => exact ⟨state.1, [], by simp, by simp, fun _ _ => rfl, rfl, by simp⟩
  | cons step steps ih =>
    rw [List.map_cons, List.nodup_cons] at distinct
    obtain ⟨middle, first, ran, files, isFirst, receipt⟩ := run_spec step state (spared step List.mem_cons_self)
    have apart {other : ShardStep} (member : other ∈ steps) : step.shard ≠ other.shard := fun same =>
      distinct.1 (same ▸ List.mem_map_of_mem member)
    obtain ⟨tree, rest, folded, own, others, isRest, receipts⟩ := ih distinct.2
      (middle, state.2.1 ++ first, state.2.2 ++ ([step].filter ShardStep.isRemove).map ShardStep.shard) fun other member rendered isText => by
        rw [files, if_neg (apart member)]
        exact spared other (List.mem_cons_of_mem _ member) rendered isText
    have shards (keep : ShardStep → Bool) : ((step :: steps).filter keep).map ShardStep.shard =
        ([step].filter keep).map ShardStep.shard ++ (steps.filter keep).map ShardStep.shard := by
      rw [← List.map_append, ← List.filter_append, List.singleton_append]
    refine ⟨tree, first ++ rest, ?_, fun other member => ?_, fun shard outside => ?_, ?_, fun evidence member => ?_⟩
    · rw [List.foldlM_cons, ran, Outcome.ok_bind, folded, shards, List.append_assoc, List.append_assoc]
    · rcases List.mem_cons.mp member with rfl | later
      · rw [others _ distinct.1, files, if_pos rfl]
      · exact own other later
    · rw [List.map_cons, List.mem_cons, not_or] at outside
      rw [others shard outside.2, files, if_neg (Ne.symm outside.1)]
    · rw [List.map_append, isFirst, isRest, shards]
    · rcases List.mem_append.mp member with inFirst | inRest
      · obtain ⟨rendered, isText, isReceipt⟩ := receipt evidence inFirst
        have named : evidence.shardId ∈ first.map ShardEvidence.shardId := List.mem_map_of_mem inFirst
        rw [isFirst] at named
        obtain ⟨only, isOnly, same⟩ := List.mem_map.mp named
        rw [List.mem_singleton.mp (List.mem_of_mem_filter isOnly)] at same
        exact ⟨step, List.mem_cons_self, same, rendered, isText, isReceipt⟩
      · obtain ⟨other, later, same, rendered, isText, isReceipt⟩ := receipts evidence inRest
        rw [files, if_neg (same ▸ apart later)] at isReceipt
        exact ⟨other, List.mem_cons_of_mem _ later, same, rendered, isText, isReceipt⟩

end ShardStep

/-! ## Rows of touched shards -/

/-- Reading touched shards a chunk at a time returns the rows of those that have any. -/
theorem get?_desiredRowsByShardIds (table : StateTable) (ids : Finset LockShardId) (shard : LockShardId) :
    (table.desiredRowsByShardIds ids).get? shard =
      if shard ∈ ids ∧ table.shardRows shard ≠ [] then some (table.shardRows shard) else none := by
  have whole : table.desiredRowsByShardIds ids =
      (ids.sort.flatMap fun id => (table.shardRows id).map fun entry => (id, entry)).foldl pushRow .empty := by
    unfold StateTable.desiredRowsByShardIds
    conv => rhs; rw [← flatten_chunks lookupChunkSize (ids.sort (· ≤ ·))]
    generalize chunks lookupChunkSize (ids.sort (· ≤ ·)) = groups
    generalize (SortedMap.empty : SortedMap LockShardId (List Entry)) = start
    induction groups generalizing start with
    | nil => rfl
    | cons group groups ih => rw [List.foldl_cons, ih, List.flatten_cons, List.flatMap_append, List.foldl_append]
  have found : ((ids.sort.flatMap fun id => (table.shardRows id).map fun entry => (id, entry)).filter fun row => row.1 = shard) =
      if shard ∈ ids then (table.shardRows shard).map fun entry => (shard, entry) else [] := by
    have distinct := ids.sort_nodup (· ≤ ·)
    have listed : shard ∈ ids ↔ shard ∈ ids.sort := (Finset.mem_sort _).symm
    simp only [listed]
    generalize ids.sort (· ≤ ·) = listing at distinct ⊢
    induction listing with
    | nil => rfl
    | cons id listing ih =>
      rw [List.nodup_cons] at distinct
      rw [List.flatMap_cons, List.filter_append, ih distinct.2]
      by_cases here : id = shard
      · subst here
        rw [if_neg distinct.1, if_pos List.mem_cons_self, List.append_nil, List.filter_eq_self.mpr]
        intro row member
        obtain ⟨entry, -, rfl⟩ := List.mem_map.mp member
        exact decide_eq_true rfl
      · rw [List.filter_eq_nil_iff.mpr, List.nil_append]
        · simp [Ne.symm here]
        · intro row member
          obtain ⟨entry, -, rfl⟩ := List.mem_map.mp member
          simpa using here
  rw [whole, get?_foldl_pushRow, found]
  by_cases member : shard ∈ ids
  · by_cases empty : table.shardRows shard = [] <;> simp [member, empty, Function.comp_def]
  · simp [member]

variable (table) in
/-- Every touched deep shard gets the step that its rows ask for. -/
theorem sparseStep_eq (nested : shard.isFlat = false) (member : shard ∈ touched) :
    sparseStep (table.desiredRowsByShardIds touched) shard =
      .ok (if table.shardRows shard = [] then .remove shard else .publish shard nested (render (table.shardRows shard))) := by
  unfold sparseStep
  rw [dif_pos nested, get?_desiredRowsByShardIds]
  by_cases empty : table.shardRows shard = []
  · rw [if_neg fun both => both.2 empty, if_pos empty]
  · rw [if_pos ⟨member, empty⟩, if_neg empty]
    cases rows : table.shardRows shard with
    | nil => exact absurd rows empty
    | cons first rest =>
      dsimp only
      rw [renderEntries_eq, ← rows, sortedEntries_of_strictlySorted (StateTable.strictlySorted_shardRows table shard)]
      rfl

variable (table) in
/-- The steps of a sparse save: one for each touched shard. -/
theorem sparseSteps_eq (deep : ∀ shard ∈ touched, shard.isFlat = false) :
    ∃ steps, sparseSteps touched (table.desiredRowsByShardIds touched) = .ok steps ∧
      (steps.map ShardStep.shard).Perm touched.sort ∧
      ∀ step ∈ steps, step.text? = if table.shardRows step.shard = [] then none else some (render (table.shardRows step.shard)) := by
  have each (listing : List LockShardId) (included : ∀ shard ∈ listing, shard ∈ touched) :
      ∃ steps, listing.mapM (sparseStep (table.desiredRowsByShardIds touched)) = .ok steps ∧ steps.map ShardStep.shard = listing ∧
        ∀ step ∈ steps, step.text? =
          if table.shardRows step.shard = [] then none else some (render (table.shardRows step.shard)) := by
    induction listing with
    | nil => exact ⟨[], rfl, rfl, by simp⟩
    | cons shard listing ih =>
      rw [List.forall_mem_cons] at included
      obtain ⟨steps, ran, names, texts⟩ := ih included.2
      have step := sparseStep_eq table (deep shard included.1) included.1
      refine ⟨(if table.shardRows shard = [] then .remove shard
        else .publish shard (deep shard included.1) (render (table.shardRows shard))) :: steps, ?_, ?_, ?_⟩
      · rw [List.mapM_cons, step, ran]
        rfl
      · rw [List.map_cons, names]
        split_ifs <;> rfl
      · rw [List.forall_mem_cons]
        refine ⟨?_, texts⟩
        by_cases empty : table.shardRows shard = [] <;> simp [ShardStep.text?, ShardStep.shard, empty]
  obtain ⟨steps, ran, names, texts⟩ := each touched.sort fun shard member => (Finset.mem_sort _).mp member
  unfold sparseSteps
  rw [ran, Outcome.ok_bind]
  have perm : (steps.filter ShardStep.isRemove ++ steps.filter fun step => !step.isRemove).Perm steps :=
    List.filter_append_perm _ _
  refine ⟨_, rfl, names ▸ perm.map ShardStep.shard, fun step member => texts step (perm.mem_iff.mp member)⟩

/-! ## Publication -/

/-- Publication rewrote the files of the touched shards from their complete rows and left every other file alone. -/
def Republished (table : StateTable) (touched : Finset LockShardId) (before after : LockTree) : Prop :=
  ∀ shard, after.shardFiles.get? shard =
    if shard ∈ touched then if table.shardRows shard = [] then none else some (render (table.shardRows shard))
    else before.shardFiles.get? shard

/-- The files of a tree have one depth. -/
def LockTree.HasDepth (levels : LockShardLevels) (tree : LockTree) : Prop := ∀ file ∈ tree.shardFiles.entries, file.1.levels = levels

theorem LockTree.HasDepth.of_get? {tree : LockTree} (hasDepth : tree.HasDepth levels) {text : Str}
    (found : tree.shardFiles.get? shard = some text) : shard.levels = levels :=
  hasDepth _ (SortedMap.get?_eq_some_iff.mp found)

theorem Republished.hasDepth {tree saved : LockTree} (hasDepth : tree.HasDepth levels) (depth : ∀ shard ∈ touched, shard.levels = levels)
    (republished : Republished table touched tree saved) : saved.HasDepth levels := by
  intro file member
  by_cases inside : file.1 ∈ touched
  · exact depth file.1 inside
  · have found := SortedMap.get?_of_mem member
    rw [republished, if_neg inside] at found
    exact hasDepth.of_get? found

/-- At the flat depth the one shard holds every desired row. -/
theorem StateTable.PlacedAt.shardRows_flat (placed : table.PlacedAt blake3 LockShardLevels.FLAT) :
    table.shardRows LockShardId.flat = table.desiredRows := by
  refine List.eq_of_key_lt Entry.path (StateTable.strictlySorted_shardRows ..) (StateTable.strictlySorted_desiredRows _) fun entry => ?_
  rw [StateTable.mem_shardRows, StateTable.mem_desiredRows]
  refine ⟨fun desired => ⟨_, desired⟩, ?_⟩
  rintro ⟨shard, desired⟩
  rwa [← LockShardId.eq_flat (placed.depth desired)]

theorem LockTree.get?_file (text : Str) (shard : LockShardId) :
    (LockTree.file text).shardFiles.get? shard = if shard = LockShardId.flat then some text else none := by
  rw [LockTree.shardFiles, SortedMap.get?_insert, SortedMap.get?_empty]
  by_cases here : shard = LockShardId.flat
  · rw [if_pos here, if_pos here.symm]
  · rw [if_neg here, if_neg (Ne.symm here)]

/-! ## What a publication leaves -/

/-- The files and catalog rows of the touched shards are those of their rows, and everything else stays. -/
structure Publication (blake3 : ContentHash) (stats : PublishStats) (touched : Finset LockShardId) (before after : DesiredState) :
    Prop where
  table : after.table = before.table
  files : Republished before.table touched before.tree after.tree
  removed : ∀ shard ∈ touched, before.table.shardRows shard = [] → after.catalog.shards.get? shard = none
  published : ∀ shard ∈ touched, before.table.shardRows shard ≠ [] → ∃ evidence : ShardEvidence, evidence.shardId = shard ∧
    after.catalog.shards.get? shard = some ⟨evidence.identity, some evidence.proof⟩ ∧
    ReceiptOf blake3 stats (sparsePublishPriors before.catalog.shards shard) (before.tree.shardFiles.get? shard)
      (render (before.table.shardRows shard)) evidence
  untouched : ∀ shard ∉ touched, after.catalog.shards.get? shard = before.catalog.shards.get? shard

/-- The touched shards can be published. -/
def DesiredState.Spares (blake3 : ContentHash) (stats : PublishStats) (state : DesiredState) (touched : Finset LockShardId) : Prop :=
  ∀ shard ∈ touched, Spared blake3 stats shard (sparsePublishPriors state.catalog.shards shard) (state.tree.shardFiles.get? shard)
    (render (state.table.shardRows shard))

namespace Publication

variable {state middle next : DesiredState} {others : Finset LockShardId}

theorem refl (state : DesiredState) : Publication blake3 stats ∅ state state where
  table := rfl
  files _ := (if_neg (Finset.notMem_empty _)).symm
  removed _ member := absurd member (Finset.notMem_empty _)
  published _ member := absurd member (Finset.notMem_empty _)
  untouched _ _ := rfl

/-- Shards outside a publication can be published after it as before. -/
theorem spares (first : Publication blake3 stats touched state middle) (apart : ∀ shard ∈ others, shard ∉ touched)
    (spares : state.Spares blake3 stats others) : middle.Spares blake3 stats others := by
  intro shard member
  have ready := spares shard member
  have file := first.files shard
  rw [if_neg (apart shard member)] at file
  rwa [sparsePublishPriors, first.untouched shard (apart shard member), file, first.table]

/-- Publications of different shards in a row are one. -/
theorem trans (first : Publication blake3 stats touched state middle) (apart : ∀ shard ∈ others, shard ∉ touched)
    (second : Publication blake3 stats others middle next) : Publication blake3 stats (touched ∪ others) state next where
  table := second.table.trans first.table
  files shard := by
    rw [second.files, first.table, first.files]
    by_cases later : shard ∈ others
    · rw [if_pos later, if_pos (Finset.mem_union_right _ later)]
    · rw [if_neg later]
      by_cases here : shard ∈ touched
      · rw [if_pos here, if_pos (Finset.mem_union_left _ here)]
      · rw [if_neg here, if_neg fun either => (Finset.mem_union.mp either).elim here later]
  removed shard member none := by
    by_cases later : shard ∈ others
    · exact second.removed shard later (first.table ▸ none)
    · rw [second.untouched shard later]
      exact first.removed shard ((Finset.mem_union.mp member).resolve_right later) none
  published shard member rows := by
    by_cases later : shard ∈ others
    · obtain ⟨evidence, same, row, receipt⟩ := second.published shard later (first.table ▸ rows)
      have file := first.files shard
      rw [if_neg (apart shard later)] at file
      rw [sparsePublishPriors, first.untouched shard (apart shard later), file, first.table] at receipt
      exact ⟨evidence, same, row, receipt⟩
    · rw [second.untouched shard later]
      exact first.published shard ((Finset.mem_union.mp member).resolve_right later) rows
  untouched shard outside := by
    rw [Finset.mem_union, not_or] at outside
    rw [second.untouched shard outside.2, first.untouched shard outside.1]

end Publication

/-- The rows read before a publication spare the touched shards as the catalog does. -/
theorem sparsePublishPriors_shardIdentities (catalog : ShardCatalog) (member : shard ∈ touched) :
    sparsePublishPriors (catalog.shardIdentities touched) shard = sparsePublishPriors catalog.shards shard := by
  rw [sparsePublishPriors, sparsePublishPriors, ShardCatalog.get?_shardIdentities catalog member]

section PublishTouched

variable {state : DesiredState}

/-- Receipts and removals of the touched shards make the publication. -/
theorem Publication.of_recordPublished (component : ShardComponent) {saved : LockTree × SparseShardPublish}
    (files : Republished state.table touched state.tree saved.1) (once : (saved.2.1.map ShardEvidence.shardId).Nodup)
    (receipts : ∀ evidence ∈ saved.2.1, state.table.shardRows evidence.shardId ≠ [] ∧
      ReceiptOf blake3 stats (sparsePublishPriors state.catalog.shards evidence.shardId)
        (state.tree.shardFiles.get? evidence.shardId) (render (state.table.shardRows evidence.shardId)) evidence)
    (published : ∀ shard, shard ∈ saved.2.1.map ShardEvidence.shardId ↔ shard ∈ touched ∧ state.table.shardRows shard ≠ [])
    (removed : ∀ shard, shard ∈ saved.2.2 ↔ shard ∈ touched ∧ state.table.shardRows shard = []) :
    Publication blake3 stats touched state (state.recordPublished component saved (state.catalog.shardIdentities touched)) where
  table := rfl
  files := files
  removed shard member none := by
    have row := ShardCatalog.get?_recordPublishedShards_of_not_mem component state.catalog
      (fun inside => ((published shard).mp inside).2 none) fun shard gone => ((removed shard).mp gone).1
    exact row.trans (if_pos ((removed shard).mpr ⟨member, none⟩))
  published shard member rows := by
    obtain ⟨evidence, inside, same⟩ := List.mem_map.mp ((published shard).mpr ⟨member, rows⟩)
    subst same
    exact ⟨evidence, rfl, ShardCatalog.get?_recordPublishedShards_of_mem component state.catalog once inside _ _, (receipts evidence inside).2⟩
  untouched shard outside := by
    have row := ShardCatalog.get?_recordPublishedShards_of_not_mem component state.catalog
      (fun inside => outside ((published shard).mp inside).1) fun shard gone => ((removed shard).mp gone).1
    exact row.trans (if_neg fun gone => outside ((removed shard).mp gone).1)

variable (stats) in
/-- A flat lock is published whole. -/
theorem publishFlatStreaming_spec (component : ShardComponent) (placed : state.table.PlacedAt blake3 LockShardLevels.FLAT)
    (hasDepth : state.tree.HasDepth LockShardLevels.FLAT) :
    ∃ next, state.publishFlatStreaming blake3 stats component = .ok next ∧ Publication blake3 stats {LockShardId.flat} state next := by
  have outside (shard : LockShardId) (other : shard ≠ LockShardId.flat) : state.tree.shardFiles.get? shard = .none :=
    Option.eq_none_iff_forall_ne_some.mpr fun text found => other (LockShardId.eq_flat (hasDepth.of_get? found))
  have rows := placed.shardRows_flat
  unfold DesiredState.publishFlatStreaming publishFlatShardStreaming
  cases whole : state.table.desiredRows with
  | nil =>
    rw [whole] at rows
    refine ⟨_, rfl, Publication.of_recordPublished component (fun shard => ?_) List.nodup_nil (by simp) (fun shard => ?_) fun shard => ?_⟩
    · simp only [Finset.mem_singleton]
      by_cases here : shard = LockShardId.flat
      · rw [if_pos here, here, rows, if_pos rfl]
        rfl
      · rw [if_neg here, outside shard here]
        rfl
    · rw [Finset.mem_singleton]
      refine iff_of_false List.not_mem_nil ?_
      rintro ⟨rfl, some⟩
      exact some rows
    · rw [Finset.mem_singleton, List.mem_singleton, iff_self_and]
      rintro rfl
      exact rows
  | cons first rest =>
    dsimp only
    rw [renderOrderedEntries_eq, Outcome.ok_bind]
    rw [whole] at rows
    have some : state.table.shardRows LockShardId.flat ≠ [] := by
      rw [rows]
      exact List.cons_ne_nil _ _
    refine ⟨_, rfl, Publication.of_recordPublished component (fun shard => ?_) (List.nodup_singleton _) (fun evidence member => ?_)
      (fun shard => ?_) fun shard => ?_⟩
    · simp only [Finset.mem_singleton, LockTree.get?_file]
      by_cases here : shard = LockShardId.flat
      · rw [if_pos here, if_pos here, here, if_neg some, rows]
      · rw [if_neg here, if_neg here, outside shard here]
    · rw [List.mem_singleton.mp member]
      exact ⟨some, by rw [rows], Or.inr (Or.inr (by rw [rows]))⟩
    · rw [Finset.mem_singleton, List.map_singleton, List.mem_singleton, iff_self_and]
      rintro rfl
      exact some
    · rw [Finset.mem_singleton]
      refine iff_of_false List.not_mem_nil ?_
      rintro ⟨rfl, none⟩
      exact some none

/-- The touched files of a sharded lock are published one by one. -/
theorem saveSparseShards_spec (component : ShardComponent) (deep : levels.isFlat = false) (depth : ∀ shard ∈ touched, shard.levels = levels)
    (hasDepth : state.tree.HasDepth levels) (spares : state.Spares blake3 stats touched) :
    ∃ saved, saveSparseShards blake3 stats state.tree touched (state.table.desiredRowsByShardIds touched)
        (sparsePublishPriors (state.catalog.shardIdentities touched)) = .ok saved ∧
      Publication blake3 stats touched state (state.recordPublished component saved (state.catalog.shardIdentities touched)) := by
  have nested : ∀ shard ∈ touched, shard.isFlat = false := fun shard member => by rw [LockShardId.isFlat, depth shard member, deep]
  obtain ⟨steps, ran, names, texts⟩ := sparseSteps_eq state.table nested
  have distinct : (steps.map ShardStep.shard).Nodup := names.nodup_iff.mpr (touched.sort_nodup _)
  have listed (shard : LockShardId) : shard ∈ touched ↔ shard ∈ steps.map ShardStep.shard := by
    rw [names.mem_iff, Finset.mem_sort]
  have isTouched {step : ShardStep} (member : step ∈ steps) : step.shard ∈ touched := (listed _).mpr (List.mem_map_of_mem member)
  have rendered {step : ShardStep} (member : step ∈ steps) {text : Str} (isText : step.text? = some text) :
      state.table.shardRows step.shard ≠ [] ∧ text = render (state.table.shardRows step.shard) := by
    rw [texts step member] at isText
    split_ifs at isText with empty
    exact ⟨empty, (Option.some.inj isText).symm⟩
  have based : state.tree.createDirectory.files = state.tree.shardFiles ∧ ∀ text, state.tree ≠ .file text := by
    cases whole : state.tree with
    | missing => exact ⟨rfl, fun _ => LockTree.noConfusion⟩
    | directory => exact ⟨rfl, fun _ => LockTree.noConfusion⟩
    | file text =>
      have isFlat : LockShardLevels.FLAT = levels := hasDepth (LockShardId.flat, text) (by rw [whole]; exact List.mem_cons_self)
      rw [LockShardLevels.isFlat_iff.mpr isFlat.symm] at deep
      cases deep
  obtain ⟨tree, receipts, folded, own, others, isReceipt, receipt⟩ := ShardStep.foldlM_run blake3 stats
    (sparsePublishPriors (state.catalog.shardIdentities touched)) distinct (state.tree.createDirectory, [], [])
    fun step member text isText => by
      rw [sparsePublishPriors_shardIdentities state.catalog (isTouched member), based.1, (rendered member isText).2]
      exact spares step.shard (isTouched member)
  have saved : saveSparseShards blake3 stats state.tree touched (state.table.desiredRowsByShardIds touched)
      (sparsePublishPriors (state.catalog.shardIdentities touched)) =
        .ok (.directory tree, receipts, (steps.filter ShardStep.isRemove).map ShardStep.shard) := by
    unfold saveSparseShards
    split
    · next text whole => exact absurd whole (based.2 text)
    · rw [ran, Outcome.ok_bind, folded]
      rfl
  -- a touched shard is removed exactly when it has no rows
  have sorted (removed : Bool) (shard : LockShardId) : (∃ step ∈ steps, step.isRemove = removed ∧ step.shard = shard) ↔
      shard ∈ touched ∧ decide (state.table.shardRows shard = []) = removed := by
    have isRemove {step : ShardStep} (inside : step ∈ steps) : step.isRemove = decide (state.table.shardRows step.shard = []) := by
      rw [ShardStep.isRemove_eq, texts step inside]
      split_ifs with empty
      · rw [decide_eq_true empty]
        rfl
      · rw [decide_eq_false empty]
        rfl
    constructor
    · rintro ⟨step, inside, kept, rfl⟩
      exact ⟨isTouched inside, (isRemove inside).symm.trans kept⟩
    · rintro ⟨member, rows⟩
      obtain ⟨step, inside, rfl⟩ := List.mem_map.mp ((listed shard).mp member)
      exact ⟨step, inside, (isRemove inside).trans rows, rfl⟩
  refine ⟨_, saved, Publication.of_recordPublished component (fun shard => ?_) ?_ (fun evidence member => ?_) (fun shard => ?_)
    fun shard => ?_⟩
  · rw [LockTree.shardFiles]
    by_cases member : shard ∈ touched
    · obtain ⟨step, inside, rfl⟩ := List.mem_map.mp ((listed shard).mp member)
      rw [if_pos member, own step inside, texts step inside]
    · rw [if_neg member, others shard fun inside => member ((listed shard).mpr inside), based.1]
  · rw [isReceipt]
    exact distinct.sublist (List.filter_sublist.map _)
  · obtain ⟨step, inside, same, text, isText, isReceiptOf⟩ := receipt evidence member
    obtain ⟨rows, rfl⟩ := rendered inside isText
    rw [same] at rows isReceiptOf
    rw [sparsePublishPriors_shardIdentities state.catalog (same ▸ isTouched inside), based.1] at isReceiptOf
    exact ⟨rows, isReceiptOf⟩
  · rw [isReceipt]
    simpa [and_assoc] using sorted false shard
  · simpa [and_assoc] using sorted true shard

/-- Publishing touched shards leaves exactly their files and catalog rows new. -/
theorem publishTouched_spec (component : ShardComponent) (placed : state.table.PlacedAt blake3 levels)
    (depth : ∀ shard ∈ touched, shard.levels = levels) (hasDepth : state.tree.HasDepth levels)
    (spares : state.Spares blake3 stats touched) :
    ∃ next, state.publishTouched blake3 stats component levels touched = .ok next ∧ Publication blake3 stats touched state next := by
  unfold DesiredState.publishTouched
  split_ifs with none flat
  · subst none
    exact ⟨state, rfl, Publication.refl state⟩
  · obtain rfl := LockShardLevels.isFlat_iff.mp flat
    obtain ⟨other, isTouched⟩ := Finset.nonempty_iff_ne_empty.mpr none
    obtain rfl : touched = {LockShardId.flat} :=
      Finset.eq_singleton_iff_unique_mem.mpr
        ⟨LockShardId.eq_flat (depth other isTouched) ▸ isTouched, fun shard member => LockShardId.eq_flat (depth shard member)⟩
    exact publishFlatStreaming_spec stats component placed hasDepth
  · obtain ⟨saved, ran, published⟩ := saveSparseShards_spec component (by simpa using flat) depth hasDepth spares
    refine ⟨_, ?_, published⟩
    dsimp only
    rw [ran]
    rfl

/-- Publishing in windows leaves what publishing at once does. -/
theorem publishTouchedWindows_spec (component : ShardComponent) (placed : state.table.PlacedAt blake3 levels)
    (depth : ∀ shard ∈ touched, shard.levels = levels) (hasDepth : state.tree.HasDepth levels)
    (spares : state.Spares blake3 stats touched) {window : ℕ} (positive : 0 < window) :
    ∃ next, state.publishTouchedWindows blake3 stats component levels touched window = .ok next ∧
      Publication blake3 stats touched state next := by
  have groups (windows : List (List LockShardId)) (distinct : windows.flatten.Nodup)
      (included : ∀ shard ∈ windows.flatten, shard.levels = levels) {state : DesiredState}
      (placed : state.table.PlacedAt blake3 levels) (hasDepth : state.tree.HasDepth levels)
      (spares : state.Spares blake3 stats windows.flatten.toFinset) :
      ∃ next, windows.foldlM (fun state group => state.publishTouched blake3 stats component levels group.toFinset) state = .ok next ∧
        Publication blake3 stats windows.flatten.toFinset state next := by
    induction windows generalizing state with
    | nil => exact ⟨state, rfl, Publication.refl state⟩
    | cons group windows ih =>
      rw [List.flatten_cons] at distinct included spares ⊢
      rw [List.toFinset_append] at spares ⊢
      rw [List.forall_mem_append] at included
      obtain ⟨-, later, apart⟩ := List.nodup_append.mp distinct
      have outside : ∀ shard ∈ windows.flatten.toFinset, shard ∉ group.toFinset := fun shard inside first =>
        apart shard (List.mem_toFinset.mp first) shard (List.mem_toFinset.mp inside) rfl
      have own : ∀ shard ∈ group.toFinset, shard.levels = levels := fun shard member => included.1 shard (List.mem_toFinset.mp member)
      obtain ⟨middle, ran, first⟩ := publishTouched_spec component placed own hasDepth fun shard member =>
        spares shard (Finset.mem_union_left _ member)
      obtain ⟨next, rest, second⟩ := ih later included.2 (first.table ▸ placed) (first.files.hasDepth hasDepth own)
        (first.spares outside fun shard member => spares shard (Finset.mem_union_right _ member))
      refine ⟨next, ?_, first.trans outside second⟩
      rw [List.foldlM_cons, ran]
      exact rest
  unfold DesiredState.publishTouchedWindows
  rw [dif_pos positive]
  have whole := flatten_chunks ⟨window, positive⟩ (touched.sort (· ≤ ·))
  have all : (chunks ⟨window, positive⟩ (touched.sort (· ≤ ·))).flatten.toFinset = touched := by rw [whole, Finset.sort_toFinset]
  obtain ⟨next, ran, publication⟩ := groups (chunks ⟨window, positive⟩ (touched.sort (· ≤ ·)))
    (by rw [whole]; exact touched.sort_nodup _)
    (fun shard member => depth shard ((Finset.mem_sort (· ≤ ·)).mp (by rwa [whole] at member))) placed hasDepth (all.symm ▸ spares)
  rw [all] at publication
  exact ⟨next, ran, publication⟩

end PublishTouched

end Gat
