import Gat.ToMathlib.SortedMap

/-! # Totals over a map

A commutative operation folded over the entries of a map can be kept up to date: erasing a key takes its weight out
and inserting it puts the new weight in.
-/

namespace SortedMap

variable {κ ν M : Type*} [LinearOrder κ] {map : SortedMap κ ν} {key : κ} {value : ν}

/-! ## Entries of changed maps -/

theorem nodup_entries (map : SortedMap κ ν) : map.entries.Nodup :=
  map.sorted.imp fun below same => below.ne (congrArg Prod.fst same)

theorem erase_of_get?_eq_none (missing : map.get? key = none) : map.erase key = map := by
  refine SortedMap.ext fun other => ?_
  rw [get?_erase]
  split_ifs with here
  · rw [← here, missing]
  · rfl

/-- A key's entry stands beside the entries without the key. -/
theorem entries_perm_of_get? (found : map.get? key = some value) : map.entries.Perm ((key, value) :: (map.erase key).entries) := by
  have fresh : (key, value) ∉ (map.erase key).entries := by
    rw [← get?_eq_some_iff, get?_erase, if_pos rfl]
    exact Option.some_ne_none value ∘ Eq.symm
  refine (List.perm_ext_iff_of_nodup (nodup_entries _) (List.nodup_cons.mpr ⟨fresh, nodup_entries _⟩)).mpr fun entry => ?_
  rw [List.mem_cons, ← get?_eq_some_iff, ← get?_eq_some_iff, get?_erase]
  by_cases here : key = entry.1
  · rw [if_pos here, ← here, found, Option.some.injEq, Prod.ext_iff]
    simp [here, eq_comm]
  · rw [if_neg here]
    simp [Prod.ext_iff, Ne.symm here]

theorem erase_insert (map : SortedMap κ ν) (key : κ) (value : ν) : (map.insert key value).erase key = map.erase key := by
  refine SortedMap.ext fun other => ?_
  rw [get?_erase, get?_erase, get?_insert]
  split_ifs <;> rfl

theorem insert_erase (map : SortedMap κ ν) (key : κ) (value : ν) : (map.erase key).insert key value = map.insert key value := by
  refine SortedMap.ext fun other => ?_
  rw [get?_insert, get?_insert, get?_erase]
  split_ifs <;> rfl

/-! ## Lists by key -/

section Items

variable {α : Type*}

/-- The elements of all lists of a map. -/
def items (map : SortedMap κ (List α)) : List α := map.entries.flatMap Prod.snd

theorem mem_items {map : SortedMap κ (List α)} {item : α} : item ∈ map.items ↔ ∃ key list, map.get? key = some list ∧ item ∈ list := by
  simp only [items, List.mem_flatMap, Prod.exists, get?_eq_some_iff]

/-- The elements are those of one key and those of the others. -/
theorem items_perm (map : SortedMap κ (List α)) (key : κ) : map.items.Perm ((map.get? key).getD [] ++ (map.erase key).items) := by
  cases found : map.get? key with
  | none => rw [erase_of_get?_eq_none found]; exact List.Perm.refl _
  | some list =>
    have perm := (entries_perm_of_get? found).flatMap_right Prod.snd
    rwa [List.flatMap_cons] at perm

theorem items_insert_perm (map : SortedMap κ (List α)) (key : κ) (list : List α) :
    (map.insert key list).items.Perm (list ++ (map.erase key).items) := by
  have perm := items_perm (map.insert key list) key
  rwa [get?_insert, if_pos rfl, erase_insert] at perm

end Items

/-! ## Totals -/

variable (op : M → M → M) (weigh : κ → ν → M) (start : M)

/-- The operation folded over the weights of all entries. -/
def total (map : SortedMap κ ν) : M := map.entries.foldl (fun sum entry => op sum (weigh entry.1 entry.2)) start

variable [Std.Commutative op] [Std.Associative op]

/-- Taking an entry out takes its weight out. -/
theorem total_of_get? (found : map.get? key = some value) :
    map.total op weigh start = op ((map.erase key).total op weigh start) (weigh key value) := by
  have assoc (a b c : M) : op (op a b) c = op a (op b c) := Std.Associative.assoc a b c
  have comm (a b : M) : op a b = op b a := Std.Commutative.comm a b
  have swap : RightCommutative fun (sum : M) (entry : κ × ν) => op sum (weigh entry.1 entry.2) :=
    ⟨fun sum first second => by rw [assoc, assoc, comm (weigh first.1 _)]⟩
  rw [total, (entries_perm_of_get? found).foldl_eq, List.foldl_cons, total]
  generalize (map.erase key).entries = entries
  induction entries generalizing start with
  | nil => rfl
  | cons entry entries ih =>
    rw [List.foldl_cons, List.foldl_cons, ← ih]
    congr 1
    exact swap.right_comm start (key, value) entry

/-- Inserting a value puts its weight in. -/
theorem total_insert : (map.insert key value).total op weigh start =
    op ((map.erase key).total op weigh start) (weigh key value) := by
  have found : (map.insert key value).get? key = some value := by rw [get?_insert, if_pos rfl]
  rw [total_of_get? op weigh start found, erase_insert]

/-- Changing a value without changing its weight keeps the total. -/
theorem total_alter_map {change : ν → ν} (keeps : ∀ value, weigh key (change value) = weigh key value) :
    (map.alter key (Option.map change)).total op weigh start = map.total op weigh start := by
  have others : (map.alter key (Option.map change)).erase key = map.erase key := by
    refine SortedMap.ext fun other => ?_
    rw [get?_erase, get?_erase, get?_alter]
    split_ifs <;> rfl
  cases found : map.get? key with
  | none =>
    congr 1
    refine SortedMap.ext fun other => ?_
    rw [get?_alter]
    split_ifs with here
    · rw [← here, found, Option.map_none]
    · rfl
  | some value =>
    have changed : (map.alter key (Option.map change)).get? key = some (change value) := by
      rw [get?_alter, if_pos rfl, found, Option.map_some]
    rw [total_of_get? op weigh start changed, total_of_get? op weigh start found, others, keeps]

end SortedMap
