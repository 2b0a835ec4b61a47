import Gat.Model.SyncLedger

/-! # Ledger lookups

A mutation changes the row of its own path and never the desired half of it.
-/

namespace Gat

theorem LedgerRow.dirty_eq_false_iff (row : LedgerRow) :
    row.dirty = false ↔ row.materialized.map Prod.fst = row.desired := by
  obtain ⟨desired, materialized⟩ := row
  cases desired with
  | none => cases materialized <;> simp [dirty]
  | some desired =>
    cases materialized with
    | none => simp [dirty]
    | some held =>
      have decided : (decide (desired ≠ held.1) = false) ↔ held.1 = desired := by simp [eq_comm (a := held.1)]
      exact decided.trans (Option.some_inj (a := held.1)).symm

theorem StateMutation.desired_change (mutation : StateMutation) (row : Option LedgerRow) :
    (mutation.change row).bind LedgerRow.desired = row.bind LedgerRow.desired := by
  cases mutation with
  | upsert written => rfl
  | refreshStat path proof => cases row <;> rfl
  | removeExact path =>
    cases row with
    | none => rfl
    | some row =>
      rw [change, Option.bind_some, Option.bind_some]
      split_ifs with absent
      · exact (Option.isNone_iff_eq_none.mp absent).symm
      · rfl

namespace Ledger

variable (ledger : Ledger)

theorem get?_apply (mutation : StateMutation) (path : GatPath) :
    (ledger.apply mutation).get? path =
      if mutation.path = path then mutation.change (ledger.get? path) else ledger.get? path := by
  rw [apply, SortedMap.get?_alter]
  split_ifs with same
  · rw [same]
  · rfl

@[simp] theorem applyBatch_nil : ledger.applyBatch [] = ledger := rfl

theorem applyBatch_append (first second : List StateMutation) :
    ledger.applyBatch (first ++ second) = (ledger.applyBatch first).applyBatch second :=
  List.foldl_append

theorem get?_applyBatch_of_ne {mutations : List StateMutation} {path : GatPath}
    (others : ∀ mutation ∈ mutations, mutation.path ≠ path) : (ledger.applyBatch mutations).get? path = ledger.get? path := by
  induction mutations generalizing ledger with
  | nil => rfl
  | cons mutation mutations ih =>
    rw [List.forall_mem_cons] at others
    change ((ledger.apply mutation).applyBatch mutations).get? path = _
    rw [ih (ledger.apply mutation) others.2, get?_apply, if_neg others.1]

theorem desiredOid_applyBatch (mutations : List StateMutation) (path : GatPath) :
    (ledger.applyBatch mutations).desiredOid path = ledger.desiredOid path := by
  induction mutations generalizing ledger with
  | nil => rfl
  | cons mutation mutations ih =>
    refine (ih (ledger.apply mutation)).trans ?_
    rw [desiredOid, get?_apply]
    split_ifs
    · exact mutation.desired_change _
    · rfl

/-- Every path has exactly its desired object materialized. -/
def Converged : Prop := ∀ path, ledger.materializedOid path = ledger.desiredOid path

theorem dirtyPaths_eq_nil_iff : ledger.dirtyPaths = [] ↔ ledger.Converged := by
  unfold dirtyPaths
  rw [List.map_eq_nil_iff, List.filter_eq_nil_iff]
  constructor
  · intro clean path
    unfold materializedOid desiredOid
    cases found : ledger.get? path with
    | none => rfl
    | some row =>
      have notDirty := clean _ (SortedMap.get?_eq_some_iff.mp found)
      exact row.dirty_eq_false_iff.mp (Bool.eq_false_iff.mpr notDirty)
  · intro converged entry member
    have same := converged entry.1
    unfold materializedOid desiredOid at same
    rw [SortedMap.get?_of_mem member] at same
    exact Bool.eq_false_iff.mp (entry.2.dirty_eq_false_iff.mpr same)

/-! ## Reading the halves -/

variable {ledger} {selection : Selection}

theorem mem_desiredRows {entry : Entry} :
    entry ∈ ledger.desiredRows selection ↔
      selection.selects entry.path ∧ ledger.desiredOid entry.path = some entry.oid := by
  unfold desiredRows desiredOid
  rw [List.mem_filterMap]
  constructor
  · rintro ⟨binding, member, found⟩
    split_ifs at found with selected
    obtain ⟨oid, desired, rfl⟩ := Option.map_eq_some_iff.mp found
    exact ⟨selected, by rw [SortedMap.get?_of_mem member]; exact desired⟩
  · rintro ⟨selected, desired⟩
    obtain ⟨row, found, half⟩ := Option.bind_eq_some_iff.mp desired
    exact ⟨_, SortedMap.get?_eq_some_iff.mp found, by rw [if_pos selected, half]; rfl⟩

theorem mem_materializedRows {row : MaterializedRow} :
    row ∈ ledger.materializedRows selection ↔
      selection.selects row.path ∧ (ledger.get? row.path).bind LedgerRow.materialized = some (row.oid, row.proof) := by
  unfold materializedRows
  rw [List.mem_filterMap]
  constructor
  · rintro ⟨binding, member, found⟩
    split_ifs at found with selected
    obtain ⟨held, materialized, rfl⟩ := Option.map_eq_some_iff.mp found
    exact ⟨selected, by rw [SortedMap.get?_of_mem member]; exact materialized⟩
  · rintro ⟨selected, materialized⟩
    obtain ⟨stored, found, half⟩ := Option.bind_eq_some_iff.mp materialized
    exact ⟨_, SortedMap.get?_eq_some_iff.mp found, by rw [if_pos selected, half]; rfl⟩

end Ledger

end Gat
