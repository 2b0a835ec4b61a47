import Gat.Model.LockMerge
import Gat.Proofs.LockCodec

/-! # What the merge computes

The union binds each path to its three values, the loop filters it into resolved entries and
conflicts, and the prefix search over the sorted entries finds the first ancestor pair.
-/

namespace Gat

open AncestorFree

/-! ## The union -/

/-- Three values, or nothing when no version tracks the path. -/
def Versions.present (versions : Versions) : Option Versions :=
  if versions = Versions.none then .none else some versions

private theorem get?_recordSide (paths : SortedMap GatPath Versions) (side : Side) {lock : Lock}
    (unique : lock.UniquePaths) (path : GatPath) :
    (recordSide paths side lock).get? path =
      match lock.oidAt path with
      | none => paths.get? path
      | some oid => some (((paths.get? path).getD Versions.none).record oid side) := by
  obtain ⟨entries⟩ := lock
  unfold recordSide
  change (entries.map Entry.path).Nodup at unique
  induction entries generalizing paths with
  | nil => rfl
  | cons head rest ih =>
    rw [List.map_cons, List.nodup_cons] at unique
    dsimp only at ih ⊢
    rw [List.foldl_cons, ih _ unique.2, SortedMap.get?_alter]
    have here : Lock.oidAt ⟨head :: rest⟩ path = if head.path = path then some head.oid else Lock.oidAt ⟨rest⟩ path := by
      unfold Lock.oidAt
      rw [List.find?_cons]
      by_cases same : head.path = path <;> simp [same]
    rw [here]
    by_cases same : head.path = path
    · have absent : Lock.oidAt ⟨rest⟩ path = none := by
        rw [Lock.oidAt_eq_none_iff]
        rintro entry member equal
        exact unique.1 (List.mem_map.mpr ⟨entry, member, equal.trans same.symm⟩)
      rw [if_pos same, absent, if_pos same, same]
    · rw [if_neg same, if_neg same]

/-- The union binds a path to its three values when some version tracks it. -/
theorem get?_unionOf {ancestor ours theirs : Lock} (ancestorUnique : ancestor.UniquePaths)
    (oursUnique : ours.UniquePaths) (theirsUnique : theirs.UniquePaths) (path : GatPath) :
    (unionOf ancestor ours theirs).get? path =
      (Versions.mk (ancestor.oidAt path) (ours.oidAt path) (theirs.oidAt path)).present := by
  unfold unionOf
  rw [get?_recordSide _ _ theirsUnique, get?_recordSide _ _ oursUnique, get?_recordSide _ _ ancestorUnique]
  cases ancestor.oidAt path <;> cases ours.oidAt path <;> cases theirs.oidAt path <;>
    simp [Versions.present, Versions.none, Versions.record]

/-! ## The loop -/

def resolvedEntry (row : GatPath × Versions) : Option Entry :=
  match row.2.resolve with
  | some (some oid) => some ⟨row.1, oid⟩
  | _ => none

def conflictOf (row : GatPath × Versions) : Option Conflict :=
  match row.2.resolve with
  | none => some ⟨row.1, row.2.ancestor, row.2.ours, row.2.theirs⟩
  | some _ => none

theorem foldl_mergeStep (rows : List (GatPath × Versions)) (entries : List Entry) (conflicts : List Conflict) :
    rows.foldl mergeStep (entries, conflicts) =
      (entries ++ rows.filterMap resolvedEntry, conflicts ++ rows.filterMap conflictOf) := by
  induction rows generalizing entries conflicts with
  | nil => simp
  | cons row rows ih =>
    rw [List.foldl_cons, mergeStep, List.filterMap_cons, List.filterMap_cons, resolvedEntry, conflictOf]
    match row.2.resolve with
    | some (some oid) => rw [ih]; simp
    | some none => rw [ih]
    | none => rw [ih]; simp

theorem resolvedEntries_sorted (map : SortedMap GatPath Versions) :
    StrictlySorted (map.entries.filterMap resolvedEntry) := by
  refine List.Pairwise.filterMap resolvedEntry ?_ map.sorted
  intro left right below entry first other second
  unfold resolvedEntry at first second
  split at first
  · split at second
    · cases first
      cases second
      exact below
    · simp at second
  · simp at first

theorem conflicts_sorted (map : SortedMap GatPath Versions) :
    (map.entries.filterMap conflictOf).Pairwise fun left right => left.path < right.path := by
  refine List.Pairwise.filterMap conflictOf ?_ map.sorted
  intro left right below entry first other second
  unfold conflictOf at first second
  split at first
  · split at second
    · cases first
      cases second
      exact below
    · simp at second
  · simp at first

/-! ## The prefix search -/

theorem isDirectoryPrefix_iff {ancestor path : Str} :
    isDirectoryPrefix ancestor path = true ↔ IsAncestor Byte.slash ancestor path := by
  unfold isDirectoryPrefix
  rw [Bool.and_eq_true, Bool.and_eq_true, decide_eq_true_eq, decide_eq_true_eq, List.isPrefixOf_iff_prefix, isAncestor_iff]
  constructor
  · rintro ⟨⟨-, letter⟩, below⟩
    exact ⟨below, letter⟩
  · rintro ⟨below, letter⟩
    exact ⟨⟨(List.getElem?_eq_some_iff.mp letter).1, letter⟩, below⟩

theorem getElem?_partitionPoint {α : Type} (slice : List α) (predicate : α → Bool) :
    slice[partitionPoint slice predicate]? = (slice.dropWhile predicate).head? := by
  induction slice with
  | nil => rfl
  | cons first rest ih =>
    unfold partitionPoint at ih ⊢
    rw [List.takeWhile_cons, List.dropWhile_cons]
    cases predicate first with
    | true => simpa using ih
    | false => rfl

/-- The pair is an ancestor pair of the paths, the first one by ancestor and then by descendant. -/
structure FirstPair (paths : List Str) (ancestor descendant : Str) : Prop where
  ancestor_mem : ancestor ∈ paths
  descendant_mem : descendant ∈ paths
  isAncestor : IsAncestor Byte.slash ancestor descendant
  first : ∀ other ∈ paths, ∀ below ∈ paths, IsAncestor Byte.slash other below →
    ancestor < other ∨ ancestor = other ∧ descendant ≤ below

/-- The result of a search is the first ancestor pair, or nothing when there is none. -/
def IsFirstConflict (paths : List Str) : Option (Str × Str) → Prop
  | none => Separated Byte.slash paths
  | some (ancestor, descendant) => FirstPair paths ancestor descendant

section Search

variable {path : Str} {later : List Str}

/-- In sorted order, a pair starts at the head or lies in the tail. -/
private theorem pair_cases (smallest : ∀ name ∈ later, path < name) {other below : Str}
    (ancestorMember : other ∈ path :: later) (descendantMember : below ∈ path :: later)
    (above : IsAncestor Byte.slash other below) :
    other = path ∧ below ∈ later ∨ other ∈ later ∧ below ∈ later := by
  rcases List.mem_cons.mp ancestorMember with rfl | ancestorLater
  · rcases List.mem_cons.mp descendantMember with rfl | descendantLater
    · exact absurd above.lt (lt_irrefl _)
    · exact Or.inl ⟨rfl, descendantLater⟩
  · rcases List.mem_cons.mp descendantMember with rfl | descendantLater
    · exact absurd above.lt (lt_asymm (smallest other ancestorLater))
    · exact Or.inr ⟨ancestorLater, descendantLater⟩

/-- Without a descendant of the head, the pairs are those of the tail. -/
private theorem separated_cons (smallest : ∀ name ∈ later, path < name)
    (none_ : ∀ name ∈ later, ¬IsAncestor Byte.slash path name) (free : Separated Byte.slash later) :
    Separated Byte.slash (path :: later) := by
  intro other first below second above
  rcases pair_cases smallest first second above with ⟨rfl, member⟩ | ⟨left, right⟩
  · exact none_ below member above
  · exact free other left below right above

private theorem firstPair_cons (smallest : ∀ name ∈ later, path < name)
    (none_ : ∀ name ∈ later, ¬IsAncestor Byte.slash path name) {ancestor descendant : Str}
    (pair : FirstPair later ancestor descendant) : FirstPair (path :: later) ancestor descendant where
  ancestor_mem := List.mem_cons_of_mem _ pair.ancestor_mem
  descendant_mem := List.mem_cons_of_mem _ pair.descendant_mem
  isAncestor := pair.isAncestor
  first := by
    intro other first below second above
    rcases pair_cases smallest first second above with ⟨rfl, member⟩ | ⟨left, right⟩
    · exact absurd above (none_ below member)
    · exact pair.first other left below right above

private theorem firstPair_head (smallest : ∀ name ∈ later, path < name) {descendant : Str}
    (member : descendant ∈ later) (above : IsAncestor Byte.slash path descendant)
    (least : ∀ name ∈ later, IsAncestor Byte.slash path name → descendant ≤ name) :
    FirstPair (path :: later) path descendant where
  ancestor_mem := List.mem_cons_self
  descendant_mem := List.mem_cons_of_mem _ member
  isAncestor := above
  first := by
    intro other first below second otherAbove
    rcases pair_cases smallest first second otherAbove with ⟨rfl, belowMember⟩ | ⟨left, -⟩
    · exact Or.inr ⟨rfl, least below belowMember otherAbove⟩
    · exact Or.inl (smallest other left)

end Search

/-- The search finds the first ancestor pair of sorted entries, if there is one. -/
theorem directoryPrefixConflict_spec {entries : List Entry} (sorted : StrictlySorted entries) :
    IsFirstConflict (entries.map fun entry => entry.path.text) (directoryPrefixConflict entries) := by
  induction entries with
  | nil => exact separated_nil
  | cons entry remaining ih =>
    have parts := List.pairwise_cons.mp sorted
    have rest := ih parts.2
    have laterSorted : (remaining.map fun entry => entry.path.text).Pairwise (· < ·) := List.pairwise_map.mpr parts.2
    have smallest : ∀ name ∈ remaining.map fun entry => entry.path.text, entry.path.text < name := by
      intro name member
      obtain ⟨other, listed, rfl⟩ := List.mem_map.mp member
      exact parts.1 other listed
    have tail (none_ : ∀ name ∈ remaining.map fun entry => entry.path.text, ¬IsAncestor Byte.slash entry.path.text name) :
        IsFirstConflict ((entry :: remaining).map fun entry => entry.path.text) (directoryPrefixConflict remaining) := by
      rw [List.map_cons]
      cases found : directoryPrefixConflict remaining with
      | none =>
        rw [found] at rest
        exact separated_cons smallest none_ rest
      | some pair =>
        rw [found] at rest
        exact firstPair_cons smallest none_ rest
    have heads (name : Str) : (((remaining.map fun entry => entry.path.text).dropWhile
        fun candidate => decide (candidate < entry.path.text ++ [Byte.slash])).head? = some name) ↔
        ∃ candidate, (remaining.dropWhile fun candidate =>
          decide (candidate.path.text < entry.path.text ++ [Byte.slash])).head? = some candidate ∧
            candidate.path.text = name := by
      rw [List.dropWhile_map, List.head?_map, Option.map_eq_some_iff]
      rfl
    rw [directoryPrefixConflict]
    dsimp only
    split
    · -- the partition point is the only possible first descendant
      rw [getElem?_partitionPoint]
      cases found : (remaining.dropWhile fun candidate =>
          decide (candidate.path.text < entry.path.text ++ [Byte.slash])).head? with
      | none =>
        refine tail fun name member above => ?_
        obtain ⟨first, head, -⟩ := exists_head_of_descendant laterSorted member above
        obtain ⟨candidate, head, -⟩ := (heads first).mp head
        rw [found] at head
        simp at head
      | some candidate =>
        have unique {name : Str} (member : name ∈ remaining.map fun entry => entry.path.text)
            (above : IsAncestor Byte.slash entry.path.text name) :
            IsAncestor Byte.slash entry.path.text candidate.path.text ∧ candidate.path.text ≤ name := by
          obtain ⟨first, head, below, least⟩ := exists_head_of_descendant laterSorted member above
          obtain ⟨other, otherHead, rfl⟩ := (heads first).mp head
          rw [found, Option.some.injEq] at otherHead
          exact otherHead ▸ ⟨below, least⟩
        dsimp only
        split
        · next isPrefix =>
            have above := isDirectoryPrefix_iff.mp isPrefix
            have member := (List.dropWhile_suffix _).subset (List.mem_of_mem_head? found)
            exact firstPair_head smallest (List.mem_map_of_mem (f := fun entry : Entry => entry.path.text) member) above
              fun name listed otherAbove => (unique listed otherAbove).2
        · next apart => exact tail fun name member above => apart (isDirectoryPrefix_iff.mpr (unique member above).1)
    · next apart =>
        refine tail ?_
        cases remaining with
        | nil => simp
        | cons next remaining =>
          have outside : ¬entry.path.text <+: next.path.text := by
            simpa [List.isPrefixOf_iff_prefix] using apart
          exact not_isAncestor_of_head laterSorted (parts.1 next List.mem_cons_self) outside

/-! ## The result -/

/-- The three values of a path differ pairwise. -/
def Contested (ancestor ours theirs : Option Oid) : Prop := ancestor ≠ ours ∧ ours ≠ theirs ∧ ancestor ≠ theirs

/-- Equal sides keep their value, and a side equal to the ancestor yields to the other. -/
def Resolves (ancestor ours theirs value : Option Oid) : Prop :=
  ours = theirs ∧ value = ours ∨ ours = ancestor ∧ value = theirs ∨ theirs = ancestor ∧ value = ours

theorem Versions.resolve_eq_none_iff {versions : Versions} :
    versions.resolve = .none ↔ Contested versions.ancestor versions.ours versions.theirs := by
  unfold resolve Contested
  split_ifs with same fromTheirs fromOurs
  · simp [same]
  · simp [fromTheirs]
  · simp [fromOurs]
  · simpa using ⟨Ne.symm fromTheirs, same, Ne.symm fromOurs⟩

theorem Versions.resolve_eq_some_iff {versions : Versions} {value : Option Oid} :
    versions.resolve = some value ↔ ¬Contested versions.ancestor versions.ours versions.theirs ∧
      Resolves versions.ancestor versions.ours versions.theirs value := by
  obtain ⟨ancestor, ours, theirs⟩ := versions
  unfold resolve Contested Resolves
  dsimp only
  split_ifs with same fromTheirs fromOurs
  · subst same
    rw [Option.some.injEq]
    constructor
    · rintro rfl
      exact ⟨by simp, Or.inl ⟨rfl, rfl⟩⟩
    · rintro ⟨-, ⟨-, rfl⟩ | ⟨-, rfl⟩ | ⟨-, rfl⟩⟩ <;> rfl
  · subst fromTheirs
    rw [Option.some.injEq]
    constructor
    · rintro rfl
      exact ⟨by simp, Or.inr (Or.inl ⟨rfl, rfl⟩)⟩
    · rintro ⟨-, ⟨equal, -⟩ | ⟨-, rfl⟩ | ⟨equal, -⟩⟩
      · exact absurd equal same
      · rfl
      · exact absurd equal.symm same
  · subst fromOurs
    rw [Option.some.injEq]
    constructor
    · rintro rfl
      exact ⟨by simp, Or.inr (Or.inr ⟨rfl, rfl⟩)⟩
    · rintro ⟨-, ⟨equal, -⟩ | ⟨equal, -⟩ | ⟨-, rfl⟩⟩
      · exact absurd equal same
      · exact absurd equal same
      · rfl
  · refine iff_of_false (by simp) ?_
    rintro ⟨uncontested, -⟩
    exact uncontested ⟨Ne.symm fromTheirs, same, Ne.symm fromOurs⟩

section Result

variable {ancestor ours theirs : Lock}

/-- The three values at a path. -/
def versionsAt (ancestor ours theirs : Lock) (path : GatPath) : Versions :=
  ⟨ancestor.oidAt path, ours.oidAt path, theirs.oidAt path⟩

def resolvedEntries (ancestor ours theirs : Lock) : List Entry :=
  (unionOf ancestor ours theirs).entries.filterMap resolvedEntry

def conflictsOf (ancestor ours theirs : Lock) : List Conflict :=
  (unionOf ancestor ours theirs).entries.filterMap conflictOf

/-- Conflicts come first, then the first ancestor pair of the resolved entries. -/
theorem mergeThreeWay_eq (ancestor ours theirs : Lock) :
    mergeThreeWay ancestor ours theirs =
      if conflictsOf ancestor ours theirs ≠ [] then .error (.paths (conflictsOf ancestor ours theirs))
      else
        match directoryPrefixConflict (resolvedEntries ancestor ours theirs) with
        | some (prefix_, descendant) => .error (.directoryPrefix prefix_ descendant)
        | none => .ok ⟨resolvedEntries ancestor ours theirs⟩ := by
  unfold mergeThreeWay
  rw [foldl_mergeStep]
  rfl

variable (ancestorUnique : ancestor.UniquePaths) (oursUnique : ours.UniquePaths) (theirsUnique : theirs.UniquePaths)
include ancestorUnique oursUnique theirsUnique

private theorem mem_union_iff {path : GatPath} {versions : Versions} :
    (path, versions) ∈ (unionOf ancestor ours theirs).entries ↔
      versions = versionsAt ancestor ours theirs path ∧ versions ≠ Versions.none := by
  rw [← SortedMap.get?_eq_some_iff, get?_unionOf ancestorUnique oursUnique theirsUnique]
  change (versionsAt ancestor ours theirs path).present = some versions ↔ _
  unfold Versions.present
  split_ifs with absent
  · refine iff_of_false (by simp) ?_
    rintro ⟨rfl, tracked⟩
    exact tracked absent
  · rw [Option.some.injEq]
    constructor
    · rintro rfl
      exact ⟨rfl, absent⟩
    · rintro ⟨rfl, -⟩
      rfl

/-- The conflicts are exactly the contested paths with their values. -/
theorem mem_conflictsOf_iff {conflict : Conflict} :
    conflict ∈ conflictsOf ancestor ours theirs ↔
      Contested (ancestor.oidAt conflict.path) (ours.oidAt conflict.path) (theirs.oidAt conflict.path) ∧
        conflict.ancestor = ancestor.oidAt conflict.path ∧ conflict.ours = ours.oidAt conflict.path ∧
        conflict.theirs = theirs.oidAt conflict.path := by
  unfold conflictsOf
  rw [List.mem_filterMap]
  constructor
  · rintro ⟨⟨path, versions⟩, member, made⟩
    obtain ⟨rfl, -⟩ := (mem_union_iff ancestorUnique oursUnique theirsUnique).mp member
    unfold conflictOf at made
    split at made
    · next unresolved =>
        cases made
        exact ⟨Versions.resolve_eq_none_iff.mp unresolved, rfl, rfl, rfl⟩
    · simp at made
  · obtain ⟨path, ancestorValue, oursValue, theirsValue⟩ := conflict
    rintro ⟨contested, first, second, third⟩
    dsimp only at contested first second third
    subst first second third
    refine ⟨(path, versionsAt ancestor ours theirs path),
      (mem_union_iff ancestorUnique oursUnique theirsUnique).mpr ⟨rfl, ?_⟩, ?_⟩
    · intro absent
      exact contested.1 ((congrArg Versions.ancestor absent).trans (congrArg Versions.ours absent).symm)
    · unfold conflictOf
      rw [Versions.resolve_eq_none_iff.mpr contested]
      rfl

/-- The resolved entries are exactly the uncontested tracked values. -/
theorem mem_resolvedEntries_iff {path : GatPath} {oid : Oid} :
    (⟨path, oid⟩ : Entry) ∈ resolvedEntries ancestor ours theirs ↔
      (versionsAt ancestor ours theirs path).resolve = some (some oid) := by
  unfold resolvedEntries
  rw [List.mem_filterMap]
  constructor
  · rintro ⟨⟨other, versions⟩, member, made⟩
    obtain ⟨rfl, -⟩ := (mem_union_iff ancestorUnique oursUnique theirsUnique).mp member
    unfold resolvedEntry at made
    split at made
    · next resolved =>
        cases made
        exact resolved
    · simp at made
  · intro resolved
    refine ⟨(path, versionsAt ancestor ours theirs path),
      (mem_union_iff ancestorUnique oursUnique theirsUnique).mpr ⟨rfl, ?_⟩, ?_⟩
    · intro absent
      rw [absent] at resolved
      simp [Versions.resolve, Versions.none] at resolved
    · unfold resolvedEntry
      rw [resolved]

/-- The merge reports paths exactly when some path is contested. -/
theorem conflictsOf_ne_nil_iff :
    conflictsOf ancestor ours theirs ≠ [] ↔
      ∃ path, Contested (ancestor.oidAt path) (ours.oidAt path) (theirs.oidAt path) := by
  constructor
  · intro nonempty
    obtain ⟨conflict, member⟩ := List.exists_mem_of_ne_nil _ nonempty
    exact ⟨_, ((mem_conflictsOf_iff ancestorUnique oursUnique theirsUnique).mp member).1⟩
  · rintro ⟨path, contested⟩
    have member : ⟨path, ancestor.oidAt path, ours.oidAt path, theirs.oidAt path⟩ ∈ conflictsOf ancestor ours theirs :=
      (mem_conflictsOf_iff ancestorUnique oursUnique theirsUnique).mpr ⟨contested, rfl, rfl, rfl⟩
    exact List.ne_nil_of_mem member

/-- Without conflicts the resolved entries hold the resolved value of every path. -/
theorem resolvedEntries_oidAt
    (uncontested : ∀ path, ¬Contested (ancestor.oidAt path) (ours.oidAt path) (theirs.oidAt path)) (path : GatPath) :
    Resolves (ancestor.oidAt path) (ours.oidAt path) (theirs.oidAt path)
      (Lock.oidAt ⟨resolvedEntries ancestor ours theirs⟩ path) := by
  have unique := (resolvedEntries_sorted (unionOf ancestor ours theirs)).uniquePaths
  cases value : (versionsAt ancestor ours theirs path).resolve with
  | none => exact absurd (Versions.resolve_eq_none_iff.mp value) (uncontested path)
  | some value? =>
    have resolves := (Versions.resolve_eq_some_iff.mp value).2
    suffices same : Lock.oidAt ⟨resolvedEntries ancestor ours theirs⟩ path = value? by rwa [same]
    cases value? with
    | some oid =>
      exact (Lock.oidAt_eq_some_iff unique).mpr
        ((mem_resolvedEntries_iff ancestorUnique oursUnique theirsUnique).mpr value)
    | none =>
      rw [Option.eq_none_iff_forall_ne_some]
      intro oid tracked
      have member := (Lock.oidAt_eq_some_iff unique).mp tracked
      rw [(mem_resolvedEntries_iff ancestorUnique oursUnique theirsUnique).mp member] at value
      simp at value

end Result

end Gat
