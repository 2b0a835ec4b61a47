import Mathlib

/-! # Round robin

Columns are read in rounds. Each round takes the head of every column that has one. Every element is read once, and the
elements of a column are read in its order.
-/

namespace List

variable {α : Type*}

/-- What is left of the columns after a round. -/
def nextRound (columns : List (List α)) : List (List α) := (columns.map tail).filter fun column => !column.isEmpty

theorem nextRound_lt {columns : List (List α)} (nonempty : columns ≠ []) :
    ((nextRound columns).map fun column => column.length + 1).sum < (columns.map fun column => column.length + 1).sum := by
  have le (columns : List (List α)) : ((nextRound columns).map fun column => column.length + 1).sum + columns.length ≤
      (columns.map fun column => column.length + 1).sum := by
    induction columns with
    | nil => exact Nat.le_refl _
    | cons column rest ih =>
      rw [nextRound, map_cons, filter_cons, map_cons, sum_cons, length_cons]
      rw [nextRound] at ih
      split_ifs with more
      · rw [map_cons, sum_cons, length_tail]
        cases column with
        | nil => cases more
        | cons head column =>
          rw [length_cons]
          omega
      · omega
  have positive := length_pos_of_ne_nil nonempty
  have bound := le columns
  omega

set_option linter.unusedVariables false in
/-- Read columns in rounds until they are exhausted. -/
def roundRobin (columns : List (List α)) : List α :=
  if nonempty : columns = [] then [] else columns.filterMap head? ++ roundRobin (nextRound columns)
termination_by (columns.map fun column => column.length + 1).sum
decreasing_by exact nextRound_lt nonempty

theorem mem_nextRound {columns : List (List α)} {head : α} {column : List α} (member : head :: column ∈ columns) :
    column = [] ∨ column ∈ nextRound columns := by
  cases column with
  | nil => exact .inl rfl
  | cons second rest => exact .inr (mem_filter.mpr ⟨mem_map.mpr ⟨_, member, rfl⟩, rfl⟩)

/-- A round reads the heads. -/
theorem round_perm (columns : List (List α)) : (columns.filterMap head? ++ (nextRound columns).flatten).Perm columns.flatten := by
  induction columns with
  | nil => exact Perm.refl _
  | cons column rest ih =>
    cases column with
    | nil => exact ih
    | cons head column =>
      have later : (nextRound ((head :: column) :: rest)).flatten = column ++ (nextRound rest).flatten := by
        cases column <;> rfl
      have heads : ((head :: column) :: rest).filterMap head? = head :: rest.filterMap head? := rfl
      rw [later, heads, cons_append, flatten_cons, cons_append]
      refine Perm.cons head ?_
      rw [← append_assoc]
      refine (perm_append_comm.append_right _).trans ?_
      rw [append_assoc]
      exact ih.append_left column

/-- Every element is read once. -/
theorem roundRobin_perm (columns : List (List α)) : (roundRobin columns).Perm columns.flatten := by
  fun_induction roundRobin columns with
  | case1 => exact Perm.refl _
  | case2 columns nonempty ih => exact (ih.append_left _).trans (round_perm columns)

/-- A column is read in its order. -/
theorem sublist_roundRobin {columns : List (List α)} {column : List α} (member : column ∈ columns) : column.Sublist (roundRobin columns) := by
  fun_induction roundRobin columns generalizing column with
  | case1 => cases member
  | case2 columns nonempty ih =>
    cases column with
    | nil => exact nil_sublist _
    | cons head rest =>
      have first : [head].Sublist (columns.filterMap head?) := singleton_sublist.mpr (mem_filterMap.mpr ⟨_, member, rfl⟩)
      refine first.append ?_
      rcases mem_nextRound member with rfl | later
      · exact nil_sublist _
      · exact ih later

end List
