import Gat.Proofs.LockMerge

/-! # The merge implements the per-path rule

Contested paths are reported first and completely. Otherwise the resolved map is published exactly when
no tracked file is a directory prefix of another, and the report of the first such pair replaces it.
Exchanging the sides exchanges only the sides of each reported conflict.
-/

namespace Gat

open AncestorFree

section Specification

variable (ancestor ours theirs : Lock)

/-- Both sides changed the path incompatibly. -/
def ContestedAt (path : GatPath) : Prop :=
  Contested (ancestor.oidAt path) (ours.oidAt path) (theirs.oidAt path)

/-- The resolved map tracks the path. -/
def ResolvedAt (path : GatPath) : Prop :=
  ∃ oid, Resolves (ancestor.oidAt path) (ours.oidAt path) (theirs.oidAt path) (some oid)

/-- The resolved map tracks both paths and one is an ancestor of the other. -/
def ResolvedPair (above below : GatPath) : Prop :=
  ResolvedAt ancestor ours theirs above ∧ ResolvedAt ancestor ours theirs below ∧
    IsAncestor Byte.slash above.text below.text

/-- What each result of a merge says about its inputs. -/
structure MergeSpec (kernel : Kernel) (result : Except MergeConflict Lock) : Prop where
  paths_iff : (∃ conflicts, result = .error (.paths conflicts)) ↔ ∃ path, ContestedAt ancestor ours theirs path
  paths_eq : ∀ conflicts, result = .error (.paths conflicts) →
    conflicts.Pairwise (fun left right => left.path < right.path) ∧
      ∀ conflict, conflict ∈ conflicts ↔ ContestedAt ancestor ours theirs conflict.path ∧
        conflict.ancestor = ancestor.oidAt conflict.path ∧ conflict.ours = ours.oidAt conflict.path ∧
        conflict.theirs = theirs.oidAt conflict.path
  prefix_iff : (∃ above below, result = .error (.directoryPrefix above below)) ↔
    (∀ path, ¬ContestedAt ancestor ours theirs path) ∧ ∃ above below, ResolvedPair ancestor ours theirs above below
  prefix_first : ∀ above below, result = .error (.directoryPrefix above below) →
    ∃ abovePath belowPath : GatPath, abovePath.text = above ∧ belowPath.text = below ∧
      ResolvedPair ancestor ours theirs abovePath belowPath ∧
      ∀ other under, ResolvedPair ancestor ours theirs other under →
        abovePath < other ∨ abovePath = other ∧ belowPath ≤ under
  merged : ∀ lock, result = .ok lock → StrictlySorted lock.entries ∧
    (∀ path, Resolves (ancestor.oidAt path) (ours.oidAt path) (theirs.oidAt path) (lock.oidAt path)) ∧
    ∃ text, (lock.toText : Outcome LockDomainError Str) = .ok text ∧ Lock.parse kernel text = .ok lock

end Specification

/-- The merge result with the two sides of each conflict exchanged. -/
def MergeConflict.swapSides : MergeConflict → MergeConflict
  | .paths conflicts => .paths (conflicts.map fun conflict => ⟨conflict.path, conflict.ancestor, conflict.theirs, conflict.ours⟩)
  | .directoryPrefix above below => .directoryPrefix above below

section Merge

variable {ancestor ours theirs : Lock} (ancestorUnique : ancestor.UniquePaths) (oursUnique : ours.UniquePaths)
  (theirsUnique : theirs.UniquePaths)
include ancestorUnique oursUnique theirsUnique

/-- Without conflicts, the tracked paths of the resolved map are the paths of the resolved entries. -/
private theorem mem_resolvedPaths_iff (uncontested : ∀ path, ¬ContestedAt ancestor ours theirs path) (path : GatPath) :
    path.text ∈ (resolvedEntries ancestor ours theirs).map (fun entry => entry.path.text) ↔
      ResolvedAt ancestor ours theirs path := by
  rw [List.mem_map]
  constructor
  · rintro ⟨⟨other, oid⟩, member, same⟩
    obtain rfl : other = path := GatPath.ext same
    have resolved := (mem_resolvedEntries_iff ancestorUnique oursUnique theirsUnique).mp member
    exact ⟨oid, (Versions.resolve_eq_some_iff.mp resolved).2⟩
  · rintro ⟨oid, resolves⟩
    have resolved : (versionsAt ancestor ours theirs path).resolve = some (some oid) :=
      Versions.resolve_eq_some_iff.mpr ⟨uncontested path, resolves⟩
    exact ⟨_, (mem_resolvedEntries_iff ancestorUnique oursUnique theirsUnique).mpr resolved, rfl⟩

omit ancestorUnique oursUnique theirsUnique in
private theorem exists_path_of_mem {text : Str}
    (member : text ∈ (resolvedEntries ancestor ours theirs).map (fun entry => entry.path.text)) :
    ∃ path : GatPath, path.text = text := by
  obtain ⟨entry, -, rfl⟩ := List.mem_map.mp member
  exact ⟨entry.path, rfl⟩

/-- The merge meets its specification. -/
private theorem mergeThreeWay_spec (kernel : Kernel) :
    MergeSpec ancestor ours theirs kernel (mergeThreeWay ancestor ours theirs) := by
  have contested_iff := conflictsOf_ne_nil_iff ancestorUnique oursUnique theirsUnique
  rw [mergeThreeWay_eq]
  by_cases contested : conflictsOf ancestor ours theirs ≠ []
  · rw [if_pos contested]
    refine ⟨iff_of_true ⟨_, rfl⟩ (contested_iff.mp contested), ?_, iff_of_false (by simp) ?_, by simp, by simp⟩
    · rintro _ ⟨⟩
      exact ⟨conflicts_sorted _, fun conflict => mem_conflictsOf_iff ancestorUnique oursUnique theirsUnique⟩
    · rintro ⟨uncontested, -⟩
      obtain ⟨path, differs⟩ := contested_iff.mp contested
      exact uncontested path differs
  · rw [if_neg contested]
    have uncontested : ∀ path, ¬ContestedAt ancestor ours theirs path := fun path differs =>
      contested (contested_iff.mpr ⟨path, differs⟩)
    have noPaths : ¬∃ path, ContestedAt ancestor ours theirs path := fun ⟨path, differs⟩ => uncontested path differs
    have sorted : StrictlySorted (resolvedEntries ancestor ours theirs) := resolvedEntries_sorted _
    have search := directoryPrefixConflict_spec sorted
    have tracked := mem_resolvedPaths_iff ancestorUnique oursUnique theirsUnique uncontested
    cases found : directoryPrefixConflict (resolvedEntries ancestor ours theirs) with
    | some pair =>
      rw [found] at search
      obtain ⟨above, aboveText⟩ := exists_path_of_mem search.ancestor_mem
      obtain ⟨below, belowText⟩ := exists_path_of_mem search.descendant_mem
      have reported : ResolvedPair ancestor ours theirs above below :=
        ⟨(tracked above).mp (aboveText ▸ search.ancestor_mem), (tracked below).mp (belowText ▸ search.descendant_mem),
          aboveText ▸ belowText ▸ search.isAncestor⟩
      refine ⟨iff_of_false (by simp) noPaths, by simp, iff_of_true ⟨_, _, rfl⟩ ⟨uncontested, above, below, reported⟩, ?_,
        by simp⟩
      rintro _ _ ⟨⟩
      refine ⟨above, below, aboveText, belowText, reported, fun other under pair => ?_⟩
      have first := search.first other.text ((tracked other).mpr pair.1) under.text ((tracked under).mpr pair.2.1) pair.2.2
      rw [← aboveText, ← belowText] at first
      exact first.imp_right fun both => ⟨GatPath.ext both.1, both.2⟩
    | none =>
      rw [found] at search
      refine ⟨iff_of_false (by simp) noPaths, by simp, iff_of_false (by simp) ?_, by simp, ?_⟩
      · rintro ⟨-, above, below, first, second, ancestry⟩
        exact search above.text ((tracked above).mpr first) below.text ((tracked below).mpr second) ancestry
      · rintro _ ⟨⟩
        refine ⟨sorted, resolvedEntries_oidAt ancestorUnique oursUnique theirsUnique uncontested, _, toText_eq _, ?_⟩
        rw [sortedEntries_of_strictlySorted sorted]
        exact Lock.parse_render kernel sorted search

/-- Exchanging the sides keeps the contested paths and exchanges their side values. -/
private theorem conflictsOf_swap :
    conflictsOf ancestor theirs ours =
      (conflictsOf ancestor ours theirs).map fun conflict => ⟨conflict.path, conflict.ancestor, conflict.theirs, conflict.ours⟩ := by
  have contested_comm {a o t : Option Oid} : Contested a o t → Contested a t o :=
    fun ⟨first, second, third⟩ => ⟨third, second.symm, first⟩
  refine List.eq_of_key_lt Conflict.path (conflicts_sorted _) (List.pairwise_map.mpr (conflicts_sorted _)) fun conflict => ?_
  rw [mem_conflictsOf_iff ancestorUnique theirsUnique oursUnique, List.mem_map]
  constructor
  · rintro ⟨contested, first, second, third⟩
    exact ⟨⟨conflict.path, conflict.ancestor, conflict.theirs, conflict.ours⟩,
      (mem_conflictsOf_iff ancestorUnique oursUnique theirsUnique).mpr ⟨contested_comm contested, first, third, second⟩, rfl⟩
  · rintro ⟨other, member, rfl⟩
    obtain ⟨contested, first, second, third⟩ := (mem_conflictsOf_iff ancestorUnique oursUnique theirsUnique).mp member
    exact ⟨contested_comm contested, first, third, second⟩

/-- Resolution treats the sides alike. -/
private theorem resolvedEntries_swap : resolvedEntries ancestor theirs ours = resolvedEntries ancestor ours theirs := by
  have resolve_comm {a o t value : Option Oid} (resolved : (Versions.mk a o t).resolve = some value) :
      (Versions.mk a t o).resolve = some value := by
    obtain ⟨uncontested, resolves⟩ := Versions.resolve_eq_some_iff.mp resolved
    refine Versions.resolve_eq_some_iff.mpr ⟨fun ⟨first, second, third⟩ => uncontested ⟨third, second.symm, first⟩, ?_⟩
    rcases resolves with ⟨same, rfl⟩ | ⟨same, rfl⟩ | ⟨same, rfl⟩
    · exact Or.inl ⟨same.symm, same⟩
    · exact Or.inr (Or.inr ⟨same, rfl⟩)
    · exact Or.inr (Or.inl ⟨same, rfl⟩)
  refine List.eq_of_key_lt Entry.path (resolvedEntries_sorted _) (resolvedEntries_sorted _) fun entry => ?_
  rw [mem_resolvedEntries_iff ancestorUnique theirsUnique oursUnique,
    mem_resolvedEntries_iff ancestorUnique oursUnique theirsUnique]
  exact ⟨resolve_comm, resolve_comm⟩

/-- For locks with unique paths in any order, the merge reports contested paths, then the first ancestor
pair of the resolved map, and otherwise returns that map; exchanging the sides exchanges only the sides
of reported conflicts. -/
theorem merge_three_way (kernel : Kernel) :
    MergeSpec ancestor ours theirs kernel (mergeThreeWay ancestor ours theirs) ∧
      mergeThreeWay ancestor theirs ours = (mergeThreeWay ancestor ours theirs).mapError MergeConflict.swapSides := by
  refine ⟨mergeThreeWay_spec ancestorUnique oursUnique theirsUnique kernel, ?_⟩
  rw [mergeThreeWay_eq, mergeThreeWay_eq, conflictsOf_swap ancestorUnique oursUnique theirsUnique,
    resolvedEntries_swap ancestorUnique oursUnique theirsUnique]
  by_cases contested : conflictsOf ancestor ours theirs ≠ []
  · rw [if_pos contested, if_pos (by simpa using contested)]
    rfl
  · rw [if_neg contested, if_neg (by simpa using contested)]
    cases directoryPrefixConflict (resolvedEntries ancestor ours theirs) <;> rfl

end Merge

/-! ## Sides that differ -/

namespace EditedSides

def ancestor : Lock := ⟨[⟨.control, .filled 1⟩, ⟨.b, .filled 1⟩, ⟨.a, .filled 1⟩]⟩

/-- One entry is deleted, one changed and one added. -/
def ours : Lock := ⟨[⟨.d, .filled 3⟩, ⟨.a, .filled 1⟩, ⟨.b, .filled 2⟩]⟩

/-- The entry that the other side keeps is changed. -/
def theirs : Lock := ⟨[⟨.a, .filled 4⟩, ⟨.control, .filled 1⟩, ⟨.b, .filled 1⟩]⟩

/-- The entries that the other side changes and deletes are changed, too. -/
def contesting : Lock := ⟨[⟨.a, .filled 4⟩, ⟨.control, .filled 6⟩, ⟨.b, .filled 5⟩]⟩

end EditedSides

open EditedSides in
/-- Edits of different entries are merged; where both sides edit an entry, it is reported. -/
theorem merge_three_way_edited :
    MergeSpec ancestor ours theirs Kernel.scalar (.ok ⟨[⟨.a, .filled 4⟩, ⟨.b, .filled 2⟩, ⟨.d, .filled 3⟩]⟩) ∧
      mergeThreeWay ancestor theirs ours = .ok ⟨[⟨.a, .filled 4⟩, ⟨.b, .filled 2⟩, ⟨.d, .filled 3⟩]⟩ ∧
      MergeSpec ancestor ours contesting Kernel.scalar (.error (.paths
        [⟨.b, some (.filled 1), some (.filled 2), some (.filled 5)⟩, ⟨.control, some (.filled 1), none, some (.filled 6)⟩])) ∧
      mergeThreeWay ancestor contesting ours = .error (.paths
        [⟨.b, some (.filled 1), some (.filled 5), some (.filled 2)⟩, ⟨.control, some (.filled 1), some (.filled 6), none⟩]) := by
  have ancestorUnique : ancestor.UniquePaths := by rw [Lock.UniquePaths]; decide
  have oursUnique : ours.UniquePaths := by rw [Lock.UniquePaths]; decide
  have theirsUnique : theirs.UniquePaths := by rw [Lock.UniquePaths]; decide
  have contestingUnique : contesting.UniquePaths := by rw [Lock.UniquePaths]; decide
  have merged : mergeThreeWay ancestor ours theirs = .ok ⟨[⟨.a, .filled 4⟩, ⟨.b, .filled 2⟩, ⟨.d, .filled 3⟩]⟩ := by decide +kernel
  have contested : mergeThreeWay ancestor ours contesting = .error (.paths
      [⟨.b, some (.filled 1), some (.filled 2), some (.filled 5)⟩, ⟨.control, some (.filled 1), none, some (.filled 6)⟩]) := by decide +kernel
  obtain ⟨spec, swapped⟩ := merge_three_way ancestorUnique oursUnique theirsUnique Kernel.scalar
  obtain ⟨contestedSpec, contestedSwapped⟩ := merge_three_way ancestorUnique oursUnique contestingUnique Kernel.scalar
  rw [merged] at spec swapped
  rw [contested] at contestedSpec contestedSwapped
  exact ⟨spec, swapped, contestedSpec, contestedSwapped⟩

end Gat
