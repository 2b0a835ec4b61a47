import Gat.Model.StateBatch
import Gat.Proofs.SyncLedger
import Gat.Proofs.SyncPlan

/-! # A batch is its mutations in order

A run of mutations of one kind is the same as its mutations one by one: insertions conflict row by row anyway, and a
refresh of distinct paths joins every row with at most one proof. Every mutation keeps the desired half of its row.
-/

namespace Gat

/-- No path is refreshed twice among neighbouring refreshes. -/
def RefreshedOnce (ops : List StateMutation) : Prop :=
  ∀ before run after, ops = before ++ (run ++ after) → (∀ op ∈ run, op.kind = .refreshStat) → (run.map StateMutation.path).Nodup

namespace StateRelation

variable {choice : JoinChoice} {table : StateRelation}

/-! ## Statements -/

theorem foldl_chunks {α β : Type} (size : ℕ+) (step : β → α → β) (start : β) (items : List α) :
    (chunks size items).foldl (fun value chunk => chunk.foldl step value) start = items.foldl step start := by
  conv_rhs => rw [← flatten_chunks size items, List.foldl_flatten]

theorem bulkUpsertMaterialized_eq (rows : List MaterializedRow) : table.bulkUpsertMaterialized rows = rows.foldl upsertRow table :=
  foldl_chunks _ _ _ _

theorem get?_refreshChunk (chunk : List (GatPath × StatProof)) (path : GatPath) :
    (table.refreshChunk choice chunk).get? path = (table.get? path).map fun columns =>
      match choice.pick ((chunk.filter fun pair => pair.1 = path).map Prod.snd) with
      | some proof => columns.refreshProof proof
      | none => columns := SortedMap.get?_mapValues ..

/-- A row joins with one proof only. -/
theorem refreshChunk_cons {pair : GatPath × StatProof} {chunk : List (GatPath × StatProof)} (fresh : pair.1 ∉ chunk.map Prod.fst) :
    table.refreshChunk choice (pair :: chunk) = (table.refreshChunk choice [pair]).refreshChunk choice chunk := by
  apply SortedMap.ext
  intro path
  rw [get?_refreshChunk, get?_refreshChunk, get?_refreshChunk, Option.map_map]
  congr 1
  funext columns
  rw [Function.comp_apply]
  by_cases same : pair.1 = path
  · have alone : chunk.filter (fun other => other.1 = path) = [] := by
      rw [List.filter_eq_nil_iff]
      intro other member
      rw [decide_eq_true_eq]
      exact fun equal => fresh (List.mem_map.mpr ⟨other, member, equal.trans same.symm⟩)
    rw [List.filter_cons_of_pos (by simpa using same), List.filter_cons_of_pos (by simpa using same), alone, List.filter_nil, List.map_nil,
      choice.pick_nil]
  · rw [List.filter_cons_of_neg (by simpa using same), List.filter_cons_of_neg (by simpa using same), List.filter_nil, List.map_nil,
      choice.pick_nil]

theorem refreshChunk_nil : table.refreshChunk choice [] = table := by
  apply SortedMap.ext
  intro path
  rw [get?_refreshChunk, List.filter_nil, List.map_nil, choice.pick_nil]
  exact Option.map_id_apply

theorem refreshChunk_eq_foldl {chunk : List (GatPath × StatProof)} (distinct : (chunk.map Prod.fst).Nodup) :
    table.refreshChunk choice chunk = chunk.foldl (fun table pair => table.refreshChunk choice [pair]) table := by
  induction chunk generalizing table with
  | nil => exact refreshChunk_nil
  | cons pair chunk ih =>
    rw [List.map_cons, List.nodup_cons] at distinct
    rw [refreshChunk_cons distinct.1, ih distinct.2, List.foldl_cons]

theorem bulkRefreshMaterializedProofs_eq {proofs : List (GatPath × StatProof)} (distinct : (proofs.map Prod.fst).Nodup) :
    table.bulkRefreshMaterializedProofs choice proofs = proofs.foldl (fun table pair => table.refreshChunk choice [pair]) table := by
  rw [bulkRefreshMaterializedProofs, ← foldl_chunks (sqlChunkSize 2 (by decide)) _ table proofs]
  have each : ∀ chunk ∈ chunks (sqlChunkSize 2 (by decide)) proofs, (chunk.map Prod.fst).Nodup := by
    rw [← flatten_chunks (sqlChunkSize 2 (by decide)) proofs, List.map_flatten, List.nodup_flatten] at distinct
    exact fun chunk member => distinct.1 _ (List.mem_map_of_mem member)
  apply List.foldl_ext
  intro table chunk member
  exact refreshChunk_eq_foldl (each chunk member)

/-! ## Runs -/

theorem foldl_filterMap_eq {α β τ : Type} {select : α → Option β} {step : τ → β → τ} {single : τ → α → τ} {items : List α}
    (each : ∀ item ∈ items, ∃ value, select item = some value ∧ ∀ state, single state item = step state value) (start : τ) :
    (items.filterMap select).foldl step start = items.foldl single start := by
  induction items generalizing start with
  | nil => rfl
  | cons item items ih =>
    rw [List.forall_mem_cons] at each
    obtain ⟨⟨value, selected, same⟩, others⟩ := each
    rw [List.filterMap_cons_some selected, List.foldl_cons, List.foldl_cons, same, ih others]

theorem applyBatch_singleton (op : StateMutation) : applyBatch choice table [op] = table.applyRun choice op.kind [op] := by
  rw [applyBatch, List.takeWhile_nil, List.dropWhile_nil, applyBatch]

theorem applyBatch_upsert (row : MaterializedRow) : applyBatch choice table [.upsert row] = table.upsertRow row :=
  (applyBatch_singleton _).trans (bulkUpsertMaterialized_eq [row])

theorem applyBatch_refreshStat (path : GatPath) (proof : StatProof) :
    applyBatch choice table [.refreshStat path proof] = table.refreshChunk choice [(path, proof)] := by
  have distinct : (List.map Prod.fst [(path, proof)]).Nodup := List.nodup_singleton _
  exact (applyBatch_singleton _).trans (bulkRefreshMaterializedProofs_eq distinct)

theorem applyBatch_removeExact (path : GatPath) : applyBatch choice table [.removeExact path] = table.clearPath path := applyBatch_singleton _

theorem applyRun_eq_foldl {kind : StateMutation.Kind} {run : List StateMutation} (alike : ∀ op ∈ run, op.kind = kind)
    (distinct : kind = .refreshStat → (run.map StateMutation.path).Nodup) :
    table.applyRun choice kind run = run.foldl (fun table op => applyBatch choice table [op]) table := by
  cases kind with
  | upsert =>
    refine (bulkUpsertMaterialized_eq _).trans (foldl_filterMap_eq (fun op member => ?_) table)
    have same := alike op member
    cases op with
    | upsert row => exact ⟨row, rfl, fun state => applyBatch_upsert row⟩
    | refreshStat => cases same
    | removeExact => cases same
  | refreshStat =>
    have selected : ∀ op ∈ run, ∃ pair, op.proof? = some pair ∧ pair.1 = op.path ∧ op = .refreshStat pair.1 pair.2 := by
      intro op member
      have same := alike op member
      cases op with
      | upsert => cases same
      | refreshStat path proof => exact ⟨(path, proof), rfl, rfl, rfl⟩
      | removeExact => cases same
    have paths : (run.filterMap StateMutation.proof?).map Prod.fst = run.map StateMutation.path := by
      rw [List.map_filterMap]
      apply List.filterMap_eq_map_iff_forall_eq_some.mpr
      intro op member
      obtain ⟨pair, found, same, -⟩ := selected op member
      rw [found, Option.map_some, same]
    refine (bulkRefreshMaterializedProofs_eq (paths ▸ distinct rfl)).trans (foldl_filterMap_eq (fun op member => ?_) table)
    obtain ⟨pair, found, -, rfl⟩ := selected op member
    exact ⟨pair, found, fun state => applyBatch_refreshStat pair.1 pair.2⟩
  | removeExact =>
    refine foldl_filterMap_eq (fun op member => ?_) table
    have same := alike op member
    cases op with
    | upsert => cases same
    | refreshStat => cases same
    | removeExact path => exact ⟨path, rfl, fun state => applyBatch_removeExact path⟩

/-- A batch is its mutations one by one. -/
theorem applyBatch_eq_foldl (choice : JoinChoice) (table : StateRelation) {ops : List StateMutation} (once : RefreshedOnce ops) :
    applyBatch choice table ops = ops.foldl (fun table op => applyBatch choice table [op]) table := by
  fun_induction applyBatch choice table ops with
  | case1 table => rfl
  | case2 table op ops run ih =>
    have whole : op :: ops = run ++ ops.dropWhile fun other => other.kind = op.kind := by
      rw [List.cons_append, List.takeWhile_append_dropWhile]
    have alike : ∀ other ∈ run, other.kind = op.kind := by
      refine List.forall_mem_cons.mpr ⟨rfl, fun other member => ?_⟩
      exact of_decide_eq_true (List.all_eq_true.mp List.all_takeWhile other member)
    have distinct : op.kind = .refreshStat → (run.map StateMutation.path).Nodup := fun refreshes =>
      once [] run _ whole fun other member => (alike other member).trans refreshes
    rw [ih, applyRun_eq_foldl alike distinct, whole, List.foldl_append]
    intro before block after same
    exact once (run ++ before) block after (by rw [whole, same, List.append_assoc])

/-! ## Halves -/

/-- What a single mutation does to the row of its path. -/
def columns : StateMutation → Option StateColumns → Option StateColumns
  | .upsert row, none => some (.inserted row.oid row.proof)
  | .upsert row, some held => some (held.upsertMaterialized row.oid row.proof)
  | .refreshStat _ proof, current => current.map fun held => held.refreshProof proof
  | .removeExact _, current => current.bind fun held => if held.desiredOid.isNone then none else some held.clearMaterialized

theorem get?_applyBatch_singleton (op : StateMutation) (path : GatPath) :
    (applyBatch choice table [op]).get? path = if op.path = path then columns op (table.get? op.path) else table.get? path := by
  cases op with
  | upsert row =>
    rw [applyBatch_upsert, upsertRow, SortedMap.get?_alter, StateMutation.path]
    by_cases here : row.path = path
    · rw [if_pos here, if_pos here]
      cases table.get? row.path <;> rfl
    · rw [if_neg here, if_neg here]
  | refreshStat refreshed proof =>
    obtain ⟨picked, member, same⟩ := choice.pick_mem (List.cons_ne_nil proof [])
    obtain rfl := List.mem_singleton.mp member
    rw [applyBatch_refreshStat, get?_refreshChunk, StateMutation.path]
    by_cases here : refreshed = path
    · rw [if_pos here, here, List.filter_cons_of_pos (by simp), List.filter_nil, List.map_singleton, same]
      rfl
    · rw [if_neg here, List.filter_cons_of_neg (by simpa using here), List.filter_nil, List.map_nil, choice.pick_nil]
      exact Option.map_id_apply
  | removeExact removed =>
    rw [applyBatch_removeExact, clearPath, SortedMap.get?_alter, StateMutation.path]
    by_cases here : removed = path
    · rw [if_pos here, if_pos here]
      rfl
    · rw [if_neg here, if_neg here]

/-- The desired columns of a path; a path without a row has none. -/
def desiredColumns (table : StateRelation) (path : GatPath) : Option Oid × Option LockShardId :=
  ((table.get? path).bind StateColumns.desiredOid, (table.get? path).bind StateColumns.desiredShardId)

/-- No row is empty in both halves. -/
def Occupied (table : StateRelation) : Prop :=
  ∀ path held, table.get? path = some held → held.desiredOid.isSome ∨ held.materializedOid.isSome

/-- The ledger is what the table says of oids and proofs. -/
def Mirrors (table : StateRelation) (ledger : Ledger) : Prop :=
  ∀ path, (table.get? path).map StateColumns.ledgerRow = ledger.get? path

theorem desired_columns (op : StateMutation) (current : Option StateColumns) :
    (columns op current).bind StateColumns.desiredOid = current.bind StateColumns.desiredOid ∧
      (columns op current).bind StateColumns.desiredShardId = current.bind StateColumns.desiredShardId := by
  cases current with
  | none => cases op <;> exact ⟨rfl, rfl⟩
  | some held =>
    cases op with
    | upsert row =>
      simp only [columns, StateColumns.upsertMaterialized]
      split_ifs <;> exact ⟨rfl, rfl⟩
    | refreshStat path proof =>
      simp only [columns, StateColumns.refreshProof, Option.map_some]
      split_ifs <;> exact ⟨rfl, rfl⟩
    | removeExact path =>
      simp only [columns, StateColumns.clearMaterialized, Option.bind_some]
      have paired := held.paired
      split_ifs with alone materialized
      · rw [alone] at paired
        exact ⟨(Option.isNone_iff_eq_none.mp alone).symm, (Option.isNone_iff_eq_none.mp paired.symm).symm⟩
      · exact ⟨rfl, rfl⟩
      · exact ⟨rfl, rfl⟩

theorem occupied_columns (op : StateMutation) {current : Option StateColumns}
    (occupied : ∀ held, current = some held → held.desiredOid.isSome ∨ held.materializedOid.isSome) :
    ∀ held, columns op current = some held → held.desiredOid.isSome ∨ held.materializedOid.isSome := by
  intro after changed
  cases op with
  | upsert row =>
    cases current with
    | none =>
      cases changed
      exact Or.inr rfl
    | some held =>
      cases changed
      rw [StateColumns.upsertMaterialized]
      split_ifs
      · exact Or.inr rfl
      · exact occupied held rfl
  | refreshStat path proof =>
    obtain ⟨held, rfl, rfl⟩ := Option.map_eq_some_iff.mp changed
    have before := occupied held rfl
    rw [StateColumns.refreshProof]
    split_ifs <;> exact before
  | removeExact path =>
    obtain ⟨held, rfl, kept⟩ := Option.bind_eq_some_iff.mp changed
    split_ifs at kept with alone
    cases kept
    have desired : held.desiredOid.isSome := by simpa [Option.isSome_iff_ne_none] using alone
    rw [StateColumns.clearMaterialized]
    split_ifs <;> exact Or.inl desired

theorem ledgerRow_columns (op : StateMutation) (current : Option StateColumns) :
    (columns op current).map StateColumns.ledgerRow = op.change (current.map StateColumns.ledgerRow) := by
  cases current with
  | none => cases op <;> rfl
  | some held =>
    cases op with
    | upsert row =>
      simp only [columns, StateColumns.upsertMaterialized, Option.map_some, StateMutation.change, Option.bind_some]
      split_ifs with differs
      · rfl
      · rw [not_or, not_not, not_not] at differs
        rw [StateColumns.ledgerRow, differs.1, differs.2]
        rfl
    | refreshStat path proof =>
      simp only [columns, StateColumns.refreshProof, Option.map_some, StateMutation.change]
      split_ifs with materialized
      · obtain ⟨oid, found⟩ := Option.isSome_iff_exists.mp materialized
        simp only [StateColumns.ledgerRow, found, Option.map_some]
      · rw [Option.isSome_iff_ne_none, not_not] at materialized
        simp only [StateColumns.ledgerRow, materialized, Option.map_none]
    | removeExact path =>
      simp only [columns, StateColumns.clearMaterialized, Option.bind_some, Option.map_some, StateMutation.change]
      by_cases alone : held.desiredOid.isNone
      · rw [if_pos alone, if_pos (show (StateColumns.ledgerRow held).desired.isNone from alone)]
        rfl
      · rw [if_neg alone, if_neg (show ¬(StateColumns.ledgerRow held).desired.isNone from alone)]
        split_ifs with materialized
        · rfl
        · rw [Option.isSome_iff_ne_none, not_not] at materialized
          simp only [StateColumns.ledgerRow, Option.map_some, materialized, Option.map_none]

/-- What every mutation keeps is kept by a batch. -/
theorem foldl_applyBatch_preserves (Holds : StateRelation → Prop) (step : ∀ table op, Holds table → Holds (applyBatch choice table [op]))
    (start : Holds table) (ops : List StateMutation) : Holds (ops.foldl (fun table op => applyBatch choice table [op]) table) := by
  induction ops generalizing table with
  | nil => exact start
  | cons op ops ih => exact ih (step table op start)

theorem desiredColumns_singleton (op : StateMutation) (path : GatPath) :
    (applyBatch choice table [op]).desiredColumns path = table.desiredColumns path := by
  rw [desiredColumns, desiredColumns, get?_applyBatch_singleton]
  split_ifs with here
  · obtain ⟨oid, shard⟩ := desired_columns op (table.get? op.path)
    rw [oid, shard, here]
  · rfl

theorem Occupied.singleton (occupied : Occupied table) (op : StateMutation) : Occupied (applyBatch choice table [op]) := by
  intro path held found
  rw [get?_applyBatch_singleton] at found
  split_ifs at found with here
  · exact occupied_columns op (occupied op.path) held found
  · exact occupied path held found

theorem Mirrors.singleton {ledger : Ledger} (mirrors : Mirrors table ledger) (op : StateMutation) :
    Mirrors (applyBatch choice table [op]) (ledger.apply op) := by
  intro path
  rw [get?_applyBatch_singleton, Ledger.apply, SortedMap.get?_alter]
  by_cases here : op.path = path
  · rw [if_pos here, if_pos here, ledgerRow_columns, mirrors]
  · rw [if_neg here, if_neg here, mirrors]

theorem Mirrors.foldl {ledger : Ledger} (mirrors : Mirrors table ledger) (ops : List StateMutation) :
    Mirrors (ops.foldl (fun table op => applyBatch choice table [op]) table) (ledger.applyBatch ops) := by
  induction ops generalizing table ledger with
  | nil => exact mirrors
  | cons op ops ih => exact ih (mirrors.singleton op)

end StateRelation

open StateRelation in
/-- A batch gives the table of its mutations one by one, keeps every desired half and leaves no empty row. -/
theorem applyBatch_agrees (choice : JoinChoice) (table : StateRelation) {ops : List StateMutation} (once : RefreshedOnce ops) :
    table.applyBatch choice ops = ops.foldl (fun table op => table.applyBatch choice [op]) table ∧
      (∀ path, (table.applyBatch choice ops).desiredColumns path = table.desiredColumns path) ∧
      (table.Occupied → (table.applyBatch choice ops).Occupied) ∧
      (∀ path held, (table.applyBatch choice ops).get? path = some held → held.materializedProof.isSome → held.materializedOid.isSome) ∧
      ∀ ledger, table.Mirrors ledger → (table.applyBatch choice ops).Mirrors (ledger.applyBatch ops) := by
  have single := applyBatch_eq_foldl choice table once
  refine ⟨single, ?_, ?_, fun _ held _ => held.proved, ?_⟩
  · intro path
    rw [single]
    exact foldl_applyBatch_preserves (fun after => after.desiredColumns path = table.desiredColumns path)
      (fun after op same => (desiredColumns_singleton op path).trans same) rfl ops
  · intro occupied
    rw [single]
    exact foldl_applyBatch_preserves Occupied (fun _ op held => held.singleton op) occupied ops
  · intro ledger mirrors
    rw [single]
    exact mirrors.foldl ops

theorem refreshedOnce_of_nodup {ops : List StateMutation}
    (distinct : ((ops.filter fun op => op.kind = .refreshStat).map StateMutation.path).Nodup) : RefreshedOnce ops := by
  intro before run after whole refreshes
  have all : run.filter (fun op => op.kind = .refreshStat) = run := by
    rw [List.filter_eq_self]
    exact fun op member => decide_eq_true (refreshes op member)
  have part : run.Sublist (ops.filter fun op => op.kind = .refreshStat) := by
    have middle : run.Sublist ops := by
      rw [whole]
      exact (List.sublist_append_left run after).trans (List.sublist_append_right before _)
    have filtered := middle.filter fun op => decide (op.kind = .refreshStat)
    rwa [all] at filtered
  exact distinct.sublist (part.map _)

namespace StateBatch

/-- The first row of the join. -/
def firstMatch : JoinChoice where
  pick := List.head?
  pick_nil := rfl
  pick_mem := by
    intro matching some
    cases matching with
    | nil => exact absurd rfl some
    | cons proof matching => exact ⟨proof, List.mem_cons_self, rfl⟩

def proof : StatProof := ⟨1, 1, 1⟩

/-- A row whose object is desired and materialized. -/
def tracked (shard : LockShardId) : StateColumns := ⟨some (.filled 1), some shard, some (.filled 1), none, rfl, fun _ => rfl⟩

/-- Three such rows and a leftover. -/
def rows : StateRelation :=
  (((SortedMap.empty.insert .a (tracked LockShardId.flat)).insert .b (tracked LockShardId.flat)).insert .c
    (tracked LockShardId.flat)).insert .control (.inserted (.filled 1) none)

def ledger : Ledger :=
  (((SortedMap.empty.insert .a ⟨some (.filled 1), some (.filled 1, none)⟩).insert .b ⟨some (.filled 1), some (.filled 1, none)⟩).insert .c
    ⟨some (.filled 1), some (.filled 1, none)⟩).insert .control ⟨none, some (.filled 1, none)⟩

/-- Two refreshes, two removals and two upserts, one of them below a refreshed path. -/
def ops : List StateMutation :=
  [.refreshStat .a proof, .refreshStat .b proof, .removeExact .c, .removeExact .control, .upsert ⟨.b, .filled 2, none⟩,
    .upsert ⟨.ac, .filled 3, some proof⟩]

/-- What they leave. -/
def changed : Ledger :=
  (((SortedMap.empty.insert .a ⟨some (.filled 1), some (.filled 1, some proof)⟩).insert .b ⟨some (.filled 1), some (.filled 2, none)⟩).insert .c
    ⟨some (.filled 1), none⟩).insert .ac ⟨none, some (.filled 3, some proof)⟩

theorem mirrors : StateRelation.Mirrors rows ledger := by
  intro path
  simp only [rows, ledger, SortedMap.get?_insert, SortedMap.get?_empty]
  split_ifs <;> rfl

end StateBatch

open StateBatch in
/-- Three statements do what the six mutations do one by one: the leftover is pruned and every desired half stays. -/
theorem applyBatch_agrees_ops :
    rows.applyBatch firstMatch ops = ops.foldl (fun table op => table.applyBatch firstMatch [op]) rows ∧
      StateRelation.Mirrors (rows.applyBatch firstMatch ops) changed := by
  have once : RefreshedOnce ops := refreshedOnce_of_nodup (by decide)
  obtain ⟨single, -, -, -, mirrored⟩ := applyBatch_agrees firstMatch rows once
  have applied : ledger.applyBatch ops = changed := by decide +kernel
  exact ⟨single, applied ▸ mirrored ledger mirrors⟩

end Gat
