import Mathlib.Data.List.Nodup
import Mathlib.Data.List.Pairwise
import Mathlib.Data.List.Perm.Basic
import Mathlib.Order.Lattice
import Mathlib.Tactic.Common

/-! # Finite maps as strictly sorted lists

A finite map over a linear order is its list of bindings in strictly increasing key order. The list is
canonical: maps with the same bindings are equal, and iterating the list visits the keys in order. One
operation, altering the binding of a key, gives insertion, update and removal.
-/

/-- Lists with strictly increasing keys are equal when they have the same elements. -/
theorem List.eq_of_key_lt {α κ : Type*} [LinearOrder κ] (key : α → κ) {left right : List α}
    (leftSorted : left.Pairwise fun first second => key first < key second)
    (rightSorted : right.Pairwise fun first second => key first < key second)
    (same : ∀ element, element ∈ left ↔ element ∈ right) : left = right := by
  have nodup {list : List α} (sorted : list.Pairwise fun first second => key first < key second) : list.Nodup :=
    sorted.imp fun below equal => absurd (equal ▸ below) (lt_irrefl _)
  have perm : left.Perm right := (List.perm_ext_iff_of_nodup (nodup leftSorted) (nodup rightSorted)).mpr same
  exact perm.eq_of_pairwise (fun _ _ _ _ below above => absurd below (lt_asymm above)) leftSorted rightSorted

/-- Nothing in an ascending list is above its last element. -/
theorem List.key_le_getLast {α κ : Type*} [LinearOrder κ] {key : α → κ} {items : List α}
    (sorted : items.Pairwise fun first second => key first < key second) (nonempty : items ≠ []) :
    ∀ item ∈ items, key item ≤ key (items.getLast nonempty) := by
  intro item member
  have whole : items = items.dropLast ++ [items.getLast nonempty] := (List.dropLast_append_getLast nonempty).symm
  rw [whole] at member sorted
  rcases List.mem_append.mp member with inFront | single
  · exact ((List.pairwise_append.mp sorted).2.2 item inFront _ (List.mem_singleton_self _)).le
  · rw [List.mem_singleton.mp single]

/-- Reading on after the last row of a page gives the rows that the page has left out. -/
theorem List.page_append_filter_last {α κ : Type*} [LinearOrder κ] (key : α → κ) {items page : List α} {size : ℕ}
    (sorted : items.Pairwise fun first second => key first < key second) (isPage : items.take size = page) (nonempty : page ≠ []) :
    page ++ items.filter (fun item => key (page.getLast nonempty) < key item) = items := by
  set last := page.getLast nonempty
  have split : page ++ items.drop size = items := by rw [← isPage, List.take_append_drop]
  have parts := split ▸ sorted
  obtain ⟨pageSorted, -, across⟩ := List.pairwise_append.mp parts
  have upTo := List.key_le_getLast pageSorted nonempty
  have left : items.filter (fun item => key last < key item) = items.drop size := by
    conv_lhs => rw [← split]
    rw [List.filter_append, List.filter_eq_nil_iff.mpr fun item member => by simpa using upTo item member, List.nil_append]
    exact List.filter_eq_self.mpr fun item member => by simpa using across last (List.getLast_mem nonempty) item member
  rw [left, split]

/-- The bindings of a finite map, one per key, in increasing key order. -/
structure SortedMap (κ ν : Type*) [LinearOrder κ] where
  entries : List (κ × ν)
  sorted : entries.Pairwise fun left right => left.1 < right.1

namespace SortedMap

variable {κ ν : Type*} [LinearOrder κ]

instance [DecidableEq ν] : DecidableEq (SortedMap κ ν) := fun left right =>
  decidable_of_iff (left.entries = right.entries) <| by
    cases left
    cases right
    simp

@[ext] theorem ext_entries {left right : SortedMap κ ν} (same : left.entries = right.entries) : left = right := by
  cases left
  cases right
  cases same
  rfl

def empty : SortedMap κ ν := ⟨[], List.Pairwise.nil⟩

instance : Inhabited (SortedMap κ ν) := ⟨empty⟩

/-- The value bound to a key. -/
def get? (map : SortedMap κ ν) (key : κ) : Option ν :=
  (map.entries.find? fun entry => entry.1 = key).map Prod.snd

private def alterEntries (key : κ) (change : Option ν → Option ν) : List (κ × ν) → List (κ × ν)
  | [] => (change none).toList.map fun value => (key, value)
  | entry :: rest =>
    if key < entry.1 then ((change none).toList.map fun value => (key, value)) ++ entry :: rest
    else if key = entry.1 then ((change (some entry.2)).toList.map fun value => (key, value)) ++ rest
    else entry :: alterEntries key change rest

private theorem alterEntries_keys {key : κ} {change : Option ν → Option ν} {entries : List (κ × ν)} {entry : κ × ν}
    (member : entry ∈ alterEntries key change entries) : entry.1 = key ∨ entry ∈ entries := by
  induction entries with
  | nil =>
    obtain ⟨value, -, rfl⟩ := List.mem_map.mp member
    exact Or.inl rfl
  | cons head rest ih =>
    unfold alterEntries at member
    split_ifs at member with before same
    · rcases List.mem_append.mp member with new | old
      · obtain ⟨value, -, rfl⟩ := List.mem_map.mp new
        exact Or.inl rfl
      · exact Or.inr old
    · rcases List.mem_append.mp member with new | old
      · obtain ⟨value, -, rfl⟩ := List.mem_map.mp new
        exact Or.inl rfl
      · exact Or.inr (List.mem_cons_of_mem _ old)
    · rcases List.mem_cons.mp member with rfl | old
      · exact Or.inr List.mem_cons_self
      · exact (ih old).imp_right (List.mem_cons_of_mem _)

private theorem alterEntries_sorted (key : κ) (change : Option ν → Option ν) {entries : List (κ × ν)}
    (sorted : entries.Pairwise fun left right => left.1 < right.1) :
    (alterEntries key change entries).Pairwise fun left right => left.1 < right.1 := by
  have single (value : Option ν) : (value.toList.map fun v => (key, v)).Pairwise fun left right => left.1 < right.1 := by
    cases value <;> simp
  have keyOf {value : Option ν} {entry : κ × ν} (member : entry ∈ value.toList.map fun v => (key, v)) :
      entry.1 = key := by
    obtain ⟨_, -, rfl⟩ := List.mem_map.mp member
    rfl
  induction entries with
  | nil => exact single _
  | cons head rest ih =>
    have parts := List.pairwise_cons.mp sorted
    unfold alterEntries
    split_ifs with before same
    · refine List.pairwise_append.mpr ⟨single _, sorted, fun left new right old => ?_⟩
      rw [keyOf new]
      rcases List.mem_cons.mp old with rfl | later
      · exact before
      · exact before.trans (parts.1 right later)
    · refine List.pairwise_append.mpr ⟨single _, parts.2, fun left new right old => ?_⟩
      rw [keyOf new, same]
      exact parts.1 right old
    · refine List.pairwise_cons.mpr ⟨fun entry member => ?_, ih parts.2⟩
      rcases alterEntries_keys member with keyed | old
      · exact keyed ▸ lt_of_le_of_ne (not_lt.mp before) (Ne.symm same)
      · exact parts.1 entry old

/-- Change the binding of one key. -/
def alter (map : SortedMap κ ν) (key : κ) (change : Option ν → Option ν) : SortedMap κ ν :=
  ⟨alterEntries key change map.entries, alterEntries_sorted key change map.sorted⟩

def insert (map : SortedMap κ ν) (key : κ) (value : ν) : SortedMap κ ν := map.alter key fun _ => some value

def erase (map : SortedMap κ ν) (key : κ) : SortedMap κ ν := map.alter key fun _ => none

/-- Keep the bindings that satisfy a predicate. -/
def filter (map : SortedMap κ ν) (keep : κ × ν → Bool) : SortedMap κ ν :=
  ⟨map.entries.filter keep, map.sorted.filter _⟩

/-- Change the value of every key. -/
def mapValues (map : SortedMap κ ν) (change : κ → ν → ν) : SortedMap κ ν where
  entries := map.entries.map fun entry => (entry.1, change entry.1 entry.2)
  sorted := List.pairwise_map.mpr map.sorted

/-! ## Lookup -/

theorem get?_eq_some_iff {map : SortedMap κ ν} {key : κ} {value : ν} :
    map.get? key = some value ↔ (key, value) ∈ map.entries := by
  obtain ⟨entries, sorted⟩ := map
  unfold get?
  induction entries with
  | nil => simp
  | cons head rest ih =>
    have parts := List.pairwise_cons.mp sorted
    dsimp only at ih ⊢
    rw [List.find?_cons, List.mem_cons]
    by_cases same : head.1 = key
    · simp only [same, decide_true, Option.map_some, Option.some.injEq]
      constructor
      · rintro rfl
        exact Or.inl (by rw [← same])
      · rintro (rfl | later)
        · rfl
        · exact absurd (parts.1 _ later) (by rw [same]; exact lt_irrefl _)
    · simp only [same, decide_false]
      rw [ih parts.2]
      refine ⟨Or.inr, ?_⟩
      rintro (rfl | later)
      · exact absurd rfl same
      · exact later

theorem get?_eq_none_iff {map : SortedMap κ ν} {key : κ} :
    map.get? key = none ↔ ∀ entry ∈ map.entries, entry.1 ≠ key := by
  rw [Option.eq_none_iff_forall_ne_some]
  constructor
  · rintro missing ⟨_, value⟩ member rfl
    exact missing value (get?_eq_some_iff.mpr member)
  · intro absent value found
    exact absent _ (get?_eq_some_iff.mp found) rfl

theorem get?_of_mem {map : SortedMap κ ν} {entry : κ × ν} (member : entry ∈ map.entries) :
    map.get? entry.1 = some entry.2 :=
  get?_eq_some_iff.mpr member

/-- Maps with the same bindings are equal. -/
theorem ext {left right : SortedMap κ ν} (same : ∀ key, left.get? key = right.get? key) : left = right := by
  refine ext_entries (List.eq_of_key_lt Prod.fst left.sorted right.sorted fun entry => ?_)
  rw [← get?_eq_some_iff, ← get?_eq_some_iff, same]

@[simp] theorem get?_empty (key : κ) : (empty : SortedMap κ ν).get? key = none := rfl

private theorem find?_append_single (key other : κ) (value : Option ν) (entries : List (κ × ν)) :
    (((value.toList.map fun v => (key, v)) ++ entries).find? fun entry => entry.1 = other) =
      if key = other then (value.map fun v => (key, v)).or (entries.find? fun entry => entry.1 = other)
      else entries.find? fun entry => entry.1 = other := by
  cases value <;> by_cases same : key = other <;> simp [same]

omit [LinearOrder κ] in
private theorem map_snd_or_none (key : κ) (value : Option ν) :
    ((value.map fun v => (key, v)).or none).map Prod.snd = value := by
  cases value <;> rfl

/-- Altering changes exactly the binding of its key. -/
theorem get?_alter (map : SortedMap κ ν) (key other : κ) (change : Option ν → Option ν) :
    (map.alter key change).get? other = if key = other then change (map.get? key) else map.get? other := by
  obtain ⟨entries, sorted⟩ := map
  unfold get? alter
  dsimp only
  induction entries with
  | nil =>
    have whole := find?_append_single key other (change none) []
    rw [List.append_nil] at whole
    rw [alterEntries, whole]
    by_cases target : key = other
    · rw [if_pos target, if_pos target]
      exact map_snd_or_none key (change none)
    · rw [if_neg target, if_neg target]
  | cons head rest ih =>
    have parts := List.pairwise_cons.mp sorted
    have restAbsent (bound : key ≤ head.1) : (rest.find? fun entry => entry.1 = key) = none := by
      refine List.find?_eq_none.mpr fun entry member equal => ?_
      exact absurd (parts.1 entry member) (not_lt_of_ge (of_decide_eq_true equal ▸ bound))
    have atHead (entries : List (κ × ν)) : ((head :: entries).find? fun entry => entry.1 = other) =
        if head.1 = other then some head else entries.find? fun entry => entry.1 = other := by
      rw [List.find?_cons]
      by_cases same : head.1 = other <;> simp [same]
    rw [alterEntries]
    by_cases before : key < head.1
    · rw [if_pos before, find?_append_single]
      split_ifs with target
      · rw [← target] at atHead ⊢
        rw [atHead, if_neg before.ne', restAbsent before.le]
        exact map_snd_or_none key (change none)
      · rfl
    rw [if_neg before]
    by_cases same : key = head.1
    · rw [if_pos same, find?_append_single, atHead, ← same]
      split_ifs with target
      · rw [← target, restAbsent same.le, List.find?_cons, decide_eq_true same.symm]
        exact map_snd_or_none key (change (some head.2))
      · rfl
    · rw [if_neg same, atHead, atHead]
      by_cases here : head.1 = other
      · rw [if_pos here, if_pos here, if_neg fun target => same (target.trans here.symm)]
      · rw [if_neg here, if_neg here, ih parts.2, List.find?_cons, decide_eq_false (Ne.symm same)]

@[simp] theorem get?_insert (map : SortedMap κ ν) (key other : κ) (value : ν) :
    (map.insert key value).get? other = if key = other then some value else map.get? other :=
  get?_alter map key other _

@[simp] theorem get?_erase (map : SortedMap κ ν) (key other : κ) :
    (map.erase key).get? other = if key = other then none else map.get? other :=
  get?_alter map key other _

theorem get?_filter (map : SortedMap κ ν) (keep : κ × ν → Bool) (key : κ) :
    (map.filter keep).get? key = (map.get? key).filter fun value => keep (key, value) := by
  refine Option.ext fun value => ?_
  rw [get?_eq_some_iff, Option.filter_eq_some_iff, get?_eq_some_iff]
  exact List.mem_filter

theorem get?_mapValues (map : SortedMap κ ν) (change : κ → ν → ν) (key : κ) :
    (map.mapValues change).get? key = (map.get? key).map (change key) := by
  refine Option.ext fun value => ?_
  rw [get?_eq_some_iff, Option.map_eq_some_iff]
  constructor
  · intro member
    obtain ⟨entry, inside, same⟩ := List.mem_map.mp member
    cases same
    exact ⟨entry.2, get?_of_mem inside, rfl⟩
  · rintro ⟨old, found, rfl⟩
    exact List.mem_map.mpr ⟨(key, old), get?_eq_some_iff.mp found, rfl⟩

/-- Altering key after key changes the value of a key by its own alterations in order. -/
theorem get?_foldl_alter {α : Type*} (key : α → κ) (change : α → Option ν → Option ν) (items : List α) (map : SortedMap κ ν)
    (other : κ) :
    (items.foldl (fun map item => map.alter (key item) (change item)) map).get? other =
      (items.filter fun item => key item = other).foldl (fun value item => change item value) (map.get? other) := by
  induction items generalizing map with
  | nil => rfl
  | cons item items ih =>
    rw [List.foldl_cons, ih, get?_alter]
    by_cases here : key item = other
    · rw [if_pos here, List.filter_cons_of_pos (by simpa using here), List.foldl_cons, here]
    · rw [if_neg here, List.filter_cons_of_neg (by simpa using here)]

omit [LinearOrder κ] in
/-- With distinct keys at most one item has a key. -/
theorem filter_key_eq [DecidableEq κ] {α : Type*} {key : α → κ} {items : List α} (distinct : (items.map key).Nodup) {item : α}
    (member : item ∈ items) : (items.filter fun other => key other = key item) = [item] := by
  induction items with
  | nil => cases member
  | cons head items ih =>
    rw [List.map_cons, List.nodup_cons] at distinct
    rcases List.mem_cons.mp member with rfl | later
    · rw [List.filter_cons_of_pos (by simp), List.filter_eq_nil_iff.mpr]
      intro other inside same
      exact distinct.1 (List.mem_map.mpr ⟨other, inside, of_decide_eq_true same⟩)
    · have apart : key head ≠ key item := fun same => distinct.1 (List.mem_map.mpr ⟨item, later, same.symm⟩)
      rw [List.filter_cons_of_neg (by simpa using apart), ih distinct.2 later]

/-- Of alterations at distinct keys, one decides its own key. -/
theorem get?_foldl_alter_of_mem {α : Type*} (key : α → κ) {change : α → Option ν → Option ν} {items : List α}
    (distinct : (items.map key).Nodup) (map : SortedMap κ ν) {item : α} (member : item ∈ items) :
    (items.foldl (fun map item => map.alter (key item) (change item)) map).get? (key item) =
      change item (map.get? (key item)) := by
  rw [get?_foldl_alter, filter_key_eq distinct member]
  rfl

/-- Alterations at other keys leave a key alone. -/
theorem get?_foldl_alter_of_forall_ne {α : Type*} (key : α → κ) {change : α → Option ν → Option ν} {items : List α}
    (map : SortedMap κ ν) {other : κ} (apart : ∀ item ∈ items, key item ≠ other) :
    (items.foldl (fun map item => map.alter (key item) (change item)) map).get? other = map.get? other := by
  rw [get?_foldl_alter, List.filter_eq_nil_iff.mpr fun item member => by simpa using apart item member]
  rfl

/-- Inserting keys with values of their own binds exactly these keys. -/
theorem get?_foldl_insert_keys (value : κ → ν) (keys : List κ) (map : SortedMap κ ν) (other : κ) :
    (keys.foldl (fun map key => map.insert key (value key)) map).get? other = if other ∈ keys then some (value other) else map.get? other := by
  induction keys generalizing map with
  | nil => rw [List.foldl_nil, if_neg List.not_mem_nil]
  | cons key keys ih =>
    rw [List.foldl_cons, ih, get?_insert]
    by_cases later : other ∈ keys
    · rw [if_pos later, if_pos (List.mem_cons_of_mem _ later)]
    · rw [if_neg later]
      by_cases here : key = other
      · rw [if_pos here, here, if_pos List.mem_cons_self]
      · rw [if_neg here, if_neg fun inside => (List.mem_cons.mp inside).elim (Ne.symm here) later]

/-- Inserting pairs with different keys binds exactly these pairs. -/
theorem get?_foldl_insert_eq_some_iff {pairs : List (κ × ν)} (distinct : (pairs.map Prod.fst).Nodup) {key : κ} {value : ν} :
    (pairs.foldl (fun map pair => map.insert pair.1 pair.2) empty).get? key = some value ↔ (key, value) ∈ pairs := by
  have own {pair : κ × ν} (member : pair ∈ pairs) :
      (pairs.foldl (fun map pair => map.insert pair.1 pair.2) empty).get? pair.1 = some pair.2 :=
    get?_foldl_alter_of_mem Prod.fst distinct empty member
  constructor
  · intro bound
    by_cases known : ∃ pair ∈ pairs, pair.1 = key
    · obtain ⟨pair, member, rfl⟩ := known
      cases (own member).symm.trans bound
      exact member
    · have apart : ∀ pair ∈ pairs, pair.1 ≠ key := fun pair member same => known ⟨pair, member, same⟩
      have unbound : (pairs.foldl (fun map pair => map.insert pair.1 pair.2) empty).get? key = none :=
        get?_foldl_alter_of_forall_ne Prod.fst empty apart
      cases unbound.symm.trans bound
  · exact own

end SortedMap
