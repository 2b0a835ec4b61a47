import Gat.Model.PathPolicy
import Gat.Proofs.LexicalTree

/-! # Prefix indexes and valid configurations

The walk up from a path visits exactly the names whose subtree holds the path, the longest first, so an index finds
the longest of its names around a path. The scans of a configuration accept it only if its targets are apart and
its route paths differ.
-/

namespace Gat

open AncestorFree

/-! ## The walk up -/

theorem parentPrefix_append (parent : Str) {last : Str} (component : Byte.slash ∉ last) :
    parentPrefix (parent ++ Byte.slash :: last) = some parent := by
  have fromEnd : (parent ++ Byte.slash :: last).reverse.findIdx? (· = Byte.slash) = some last.length := by
    rw [List.reverse_append, List.reverse_cons, List.append_assoc, List.findIdx?_append, List.findIdx?_eq_none_iff.mpr fun byte member => ?_]
    · simp [List.findIdx?_cons]
    · have other : byte ≠ Byte.slash := fun same => component (same ▸ List.mem_reverse.mp member)
      simpa using other
  have position : (parent ++ Byte.slash :: last).length - 1 - last.length = parent.length := by
    rw [List.length_append, List.length_cons]
    omega
  rw [parentPrefix, Str.rfind, fromEnd, Option.map_some, Option.map_some, position, List.take_left]

theorem parentPrefix_of_notMem {path : Str} (single : Byte.slash ∉ path) : parentPrefix path = none := by
  rw [parentPrefix, Str.rfind, List.findIdx?_eq_none_iff.mpr fun byte member => ?_]
  · rfl
  · have other : byte ≠ Byte.slash := fun same => single (same ▸ List.mem_reverse.mp member)
    simpa using other

/-- Text with a separator is a parent and one more component. -/
theorem exists_parent {path : Str} (nested : Byte.slash ∈ path) :
    ∃ parent last, path = parent ++ Byte.slash :: last ∧ Byte.slash ∉ last := by
  obtain ⟨front, back, split, component⟩ := List.eq_append_cons_of_mem (List.mem_reverse.mpr nested)
  refine ⟨back.reverse, front.reverse, ?_, fun member => component (List.mem_reverse.mp member)⟩
  rw [← List.reverse_reverse path, split]
  simp

theorem parentPrefix_eq_some_iff {path parent : Str} :
    parentPrefix path = some parent ↔ ∃ last, path = parent ++ Byte.slash :: last ∧ Byte.slash ∉ last := by
  constructor
  · intro found
    by_cases nested : Byte.slash ∈ path
    · obtain ⟨above, last, rfl, component⟩ := exists_parent nested
      rw [parentPrefix_append above component] at found
      cases found
      exact ⟨last, rfl, component⟩
    · rw [parentPrefix_of_notMem nested] at found
      cases found
  · rintro ⟨last, rfl, component⟩
    exact parentPrefix_append parent component

/-- The walk up ends after one step for each component. -/
theorem iterate_parentPrefix (path : Str) : (fun found => found.bind parentPrefix)^[path.count Byte.slash + 1] (some path) = none := by
  induction depth : path.count Byte.slash generalizing path with
  | zero => exact parentPrefix_of_notMem (List.count_eq_zero.mp depth)
  | succ depth ih =>
    have nested : Byte.slash ∈ path := List.count_pos_iff.mp (depth ▸ Nat.succ_pos _)
    obtain ⟨parent, last, rfl, component⟩ := exists_parent nested
    rw [List.count_append, List.count_cons_self, List.count_eq_zero.mpr component] at depth
    rw [Function.iterate_succ_apply, Option.bind_some, parentPrefix_append parent component]
    exact ih parent (by omega)

/-- The walk visits the names whose subtree holds the path. -/
theorem mem_ancestorPrefixes {root path : Str} : root ∈ ancestorPrefixes path ↔ IsWithin Byte.slash root path := by
  fun_induction ancestorPrefixes path with
  | case1 path parent found ih =>
    obtain ⟨last, rfl, component⟩ := parentPrefix_eq_some_iff.mp found
    rw [List.mem_cons, ih]
    exact (isWithin_append_iff component).symm
  | case2 path single =>
    rw [List.mem_singleton]
    refine (isWithin_iff_of_notMem fun nested => ?_).symm
    obtain ⟨parent, last, rfl, component⟩ := exists_parent nested
    rw [parentPrefix_append parent component] at single
    cases single

/-- The longest name comes first. -/
theorem pairwise_ancestorPrefixes (path : Str) : (ancestorPrefixes path).Pairwise fun first second => second.length < first.length := by
  fun_induction ancestorPrefixes path with
  | case1 path parent found ih =>
    refine List.pairwise_cons.mpr ⟨fun root member => ?_, ih⟩
    have shorter := length_parentPrefix found
    rcases mem_ancestorPrefixes.mp member with rfl | above
    · exact shorter
    · exact above.length_lt.trans shorter
  | case2 => exact List.pairwise_singleton _ _

/-! ## Lookups -/

namespace PathPrefixMap

variable {τ : Type} {map : PathPrefixMap τ} {path : GatPath}

theorem getKeyValue_eq_some_iff {key : Str} {entry : GatPath × τ} :
    map.getKeyValue key = some entry ↔ entry ∈ map.entries.entries ∧ entry.1.text = key := by
  constructor
  · intro found
    exact ⟨List.mem_of_find?_eq_some found, by simpa using List.find?_some found⟩
  · rintro ⟨member, rfl⟩
    cases found : map.getKeyValue entry.1.text with
    | none => simpa using List.find?_eq_none.mp found entry member
    | some other =>
      have same : other.1 = entry.1 := GatPath.ext (by simpa using List.find?_some found)
      have bound := SortedMap.get?_of_mem (List.mem_of_find?_eq_some found)
      rw [same, SortedMap.get?_of_mem member] at bound
      rw [Prod.ext same (Option.some.inj bound).symm]

theorem longestPrefix_eq (map : PathPrefixMap τ) (path : GatPath) :
    map.longestPrefix path = (ancestorPrefixes path.text).findSome? map.getKeyValue := by
  unfold longestPrefix
  split_ifs with empty
  · refine (List.findSome?_eq_none_iff.mpr fun key _ => ?_).symm
    rw [getKeyValue, empty, List.find?_nil]
  · rfl

/-- A lookup fails when no name is around the path. -/
theorem longestPrefix_eq_none_iff : map.longestPrefix path = none ↔ ∀ entry ∈ map.entries.entries, ¬GatPath.Under entry.1 path := by
  rw [longestPrefix_eq, List.findSome?_eq_none_iff]
  constructor
  · intro missing entry member under
    have probed := missing entry.1.text (mem_ancestorPrefixes.mpr under)
    rw [getKeyValue_eq_some_iff.mpr ⟨member, rfl⟩] at probed
    cases probed
  · intro apart key visited
    refine Option.eq_none_iff_forall_ne_some.mpr fun entry found => ?_
    obtain ⟨member, rfl⟩ := getKeyValue_eq_some_iff.mp found
    exact apart entry member (mem_ancestorPrefixes.mp visited)

/-- A lookup finds the longest name around the path. -/
theorem longestPrefix_spec {found : GatPath × τ} (isFound : map.longestPrefix path = some found) :
    found ∈ map.entries.entries ∧ GatPath.Under found.1 path ∧
      ∀ entry ∈ map.entries.entries, GatPath.Under entry.1 path → entry.1.text.length ≤ found.1.text.length := by
  rw [longestPrefix_eq, List.findSome?_eq_some_iff] at isFound
  obtain ⟨before, key, after, walk, probed, missed⟩ := isFound
  obtain ⟨member, rfl⟩ := getKeyValue_eq_some_iff.mp probed
  have visited : found.1.text ∈ ancestorPrefixes path.text := by
    rw [walk]
    exact List.mem_append_right _ List.mem_cons_self
  refine ⟨member, mem_ancestorPrefixes.mp visited, fun entry inside under => ?_⟩
  have reached := mem_ancestorPrefixes.mpr under
  rw [walk] at reached
  rcases List.mem_append.mp reached with earlier | later
  · have probed := missed _ earlier
    rw [getKeyValue_eq_some_iff.mpr ⟨inside, rfl⟩] at probed
    cases probed
  · have shorter := pairwise_ancestorPrefixes path.text
    rw [walk] at shorter
    rcases List.mem_cons.mp later with same | below
    · rw [same]
    · exact ((List.pairwise_cons.mp (List.pairwise_append.mp shorter).2.1).1 _ below).le

/-- Pairs with different paths are all indexed, and nothing else is. -/
theorem mem_collect {pairs : List (GatPath × τ)} (distinct : (pairs.map Prod.fst).Nodup) {entry : GatPath × τ} :
    entry ∈ (collect pairs).entries.entries ↔ entry ∈ pairs :=
  SortedMap.get?_eq_some_iff.symm.trans (SortedMap.get?_foldl_insert_eq_some_iff distinct)

theorem perm_collect {pairs : List (GatPath × τ)} (distinct : (pairs.map Prod.fst).Nodup) : (collect pairs).entries.entries.Perm pairs :=
  (List.perm_ext_iff_of_nodup ((collect pairs).entries.sorted.imp fun below same => absurd (same ▸ below) (lt_irrefl _))
    (List.Nodup.of_map Prod.fst distinct)).mpr fun _ => mem_collect distinct

end PathPrefixMap

end Gat
