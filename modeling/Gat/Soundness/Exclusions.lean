import Gat.Model.Excludes

/-! # Excluded subtrees are covered exactly

A range holds what is properly below one directory. Coalescing keeps the union of the ranges, so a lookup finds exactly
the paths below some directory, and the gaps hold every other path once and in order.
-/

namespace Gat

open AncestorFree

theorem LexicalRange.mem_below {directory path : GatPath} : path.text ∈ below directory ↔ IsAncestor Byte.slash directory.text path.text := by
  rw [GatPath.isAncestor_iff_descendantRange, HalfOpen.mem_iff, below, WithTop.coe_lt_coe]

/-- The item before the partition point is the last one that satisfies the predicate. -/
theorem getElem?_of_partitionPoint {α : Type} {slice : List α} {predicate : α → Bool} {index : ℕ}
    (point : partitionPoint slice predicate = index + 1) : slice[index]? = (slice.takeWhile predicate).getLast? := by
  unfold partitionPoint at point
  rw [List.getLast?_eq_getElem?, point, Nat.add_sub_cancel]
  obtain ⟨rest, whole⟩ := List.takeWhile_prefix predicate (l := slice)
  conv_lhs => rw [← whole]
  exact List.getElem?_append_left (by omega)

namespace DesiredPathExclusions

variable {exclusions : DesiredPathExclusions} {path : GatPath}

theorem contains_iff_covers : exclusions.contains path = true ↔ HalfOpen.Covers exclusions.ranges path.text := by
  rw [HalfOpen.covers_iff_getLast? exclusions.ascending exclusions.apart]
  unfold contains
  cases point : partitionPoint exclusions.ranges fun range => range.lower ≤ path.text with
  | zero =>
    rw [List.length_eq_zero_iff.mp point]
    simp
  | succ index =>
    dsimp only
    rw [getElem?_of_partitionPoint point, Option.any_eq_true]
    simp only [decide_eq_true_eq]

theorem covers_new {directories : List GatPath} :
    HalfOpen.Covers (new directories).ranges path.text ↔ ∃ directory ∈ directories, IsAncestor Byte.slash directory.text path.text := by
  rw [new, covers_coalesceRanges]
  unfold HalfOpen.Covers
  simp only [List.mem_map, exists_exists_and_eq_and, LexicalRange.mem_below]

theorem contains_new {directories : List GatPath} :
    (new directories).contains path = true ↔ ∃ directory ∈ directories, IsAncestor Byte.slash directory.text path.text :=
  contains_iff_covers.trans covers_new

end DesiredPathExclusions

/-! ## Enumeration -/

namespace StateTable

variable {table : StateTable}

theorem pairwise_desiredPaths : table.desiredPaths.Pairwise (· < ·) := List.pairwise_map.mpr table.strictlySorted_desiredRows

theorem mem_desiredPaths {path : GatPath} : path ∈ table.desiredPaths ↔ (table.desiredAt path).isSome := by
  simp only [desiredPaths, List.mem_map, mem_desiredRows, Option.isSome_iff_exists, Prod.exists]
  constructor
  · rintro ⟨entry, ⟨shard, desired⟩, rfl⟩
    exact ⟨entry.oid, shard, desired⟩
  · rintro ⟨oid, shard, desired⟩
    exact ⟨⟨path, oid⟩, ⟨shard, desired⟩, rfl⟩

section Visit

variable {ε σ : Type} {visit : σ → GatPath → Except ε σ}

/-- The intervals are the gaps between the ranges. -/
theorem visitIntervals_eq (lower : Str) (ranges : List LexicalRange) (state : σ) :
    table.visitIntervals visit lower ranges state = ((HalfOpen.gaps lower ranges).flatMap table.desiredPathsIn).foldlM visit state := by
  induction ranges generalizing lower state with
  | nil => rw [visitIntervals, HalfOpen.gaps, List.flatMap_singleton]
  | cons range ranges ih =>
    rw [visitIntervals, HalfOpen.gaps, List.flatMap_cons, List.foldlM_append]
    refine congrArg _ (funext fun state => ?_)
    cases range.upper with
    | top => rfl
    | coe upper => exact ih upper state

theorem flatMap_desiredPathsIn (excluded : DesiredPathExclusions) :
    (HalfOpen.gaps [] excluded.ranges).flatMap table.desiredPathsIn = table.desiredPaths.filter fun path => !excluded.contains path := by
  have least (text : Str) : [] ≤ text := List.nil_prefix.le_lex
  have sorted : (table.desiredPaths.map GatPath.text).Pairwise (· < ·) := List.pairwise_map.mpr pairwise_desiredPaths
  have outside := HalfOpen.flatMap_gaps sorted excluded.ascending excluded.apart excluded.proper fun range _ => least range.lower
  -- the gaps are about texts, which determine the paths
  refine List.map_injective_iff.mpr GatPath.text_injective ?_
  have read (range : LexicalRange) : (table.desiredPathsIn range).map GatPath.text =
      (table.desiredPaths.map GatPath.text).filter fun text => text ∈ range := by
    rw [List.filter_map]
    rfl
  rw [List.map_flatMap]
  simp only [read]
  rw [outside, List.filter_map]
  refine congrArg _ (List.filter_congr fun path _ => ?_)
  have covered : excluded.contains path = true ↔ HalfOpen.Covers excluded.ranges path.text := DesiredPathExclusions.contains_iff_covers
  simp only [Function.comp_apply, least, decide_true, Bool.true_and, ← covered, Bool.decide_eq_true]

theorem visitDesiredPathsExcluding_eq (excluded : DesiredPathExclusions) (state : σ) :
    table.visitDesiredPathsExcluding visit excluded state =
      (table.desiredPaths.filter fun path => !excluded.contains path).foldlM visit state := by
  unfold visitDesiredPathsExcluding
  split_ifs with nothing
  · have free : ∀ path, excluded.contains path = false := by
      intro path
      unfold DesiredPathExclusions.contains
      rw [nothing]
      rfl
    simp [free]
  · rw [visitIntervals_eq, flatMap_desiredPathsIn]

end Visit

end StateTable

/-! ## Ignore patterns -/

/-- A literal directory stands between two separators and needs no escape. -/
theorem literalDirectory_eq_some_iff {pattern : GitIgnorePattern} {directory : GatPath} :
    literalDirectory pattern = some directory ↔
      pattern.text = ascii "/" ++ (directory.text ++ ascii "/") ∧ ∀ char ∈ Utf8.chars directory.text, isPatternSyntax char = false := by
  unfold literalDirectory
  simp only [Option.bind_eq_bind, Option.bind_eq_some_iff, Str.stripPrefix_eq_some_iff, Str.stripSuffix_eq_some_iff]
  constructor
  · rintro ⟨-, framed, raw, rfl, found⟩
    split_ifs at found with special
    have parsed : GatPath.parseCanonical raw = .ok directory := by
      cases result : GatPath.parseCanonical raw with
      | error fault =>
        rw [result] at found
        cases found
      | ok path =>
        rw [result] at found
        cases found
        rfl
    obtain rfl := GatPath.parseCanonical_eq_ok_iff.mp parsed
    exact ⟨framed, by simpa using special⟩
  · rintro ⟨framed, plain⟩
    refine ⟨_, framed, _, rfl, ?_⟩
    rw [if_neg (by simpa using plain), GatPath.parseCanonical_eq_ok_iff.mpr rfl]
    rfl

/-- The plan excludes what is below a directory that some pattern spells. -/
theorem IgnoreCoveragePlan.contains_excluded {matcher : List GitIgnorePattern → Str → Bool} {patterns : List GitIgnorePattern} {path : GatPath} :
    (new matcher patterns).excluded.contains path = true ↔
      ∃ pattern ∈ patterns, ∃ directory : GatPath, pattern.text = ascii "/" ++ (directory.text ++ ascii "/") ∧
        (∀ char ∈ Utf8.chars directory.text, isPatternSyntax char = false) ∧ IsAncestor Byte.slash directory.text path.text := by
  refine DesiredPathExclusions.contains_new.trans ?_
  simp only [List.mem_filterMap, literalDirectory_eq_some_iff]
  constructor
  · rintro ⟨directory, ⟨pattern, member, framed, plain⟩, below⟩
    exact ⟨pattern, member, directory, framed, plain, below⟩
  · rintro ⟨pattern, member, directory, framed, plain, below⟩
    exact ⟨directory, ⟨pattern, member, framed, plain⟩, below⟩

/-- For every list of directories, an exclusion contains exactly the paths properly below one of them. Its ranges ascend with a gap between
any two, and a visit of the desired paths outside them reaches every other desired path once, in path order. The directories of a plan are
those that its patterns spell letter by letter. -/
theorem desired_path_exclusions_exact (directories : List GatPath) :
    let exclusions := DesiredPathExclusions.new directories
    (∀ path, exclusions.contains path = true ↔ ∃ directory ∈ directories, IsAncestor Byte.slash directory.text path.text) ∧
      (∀ range ∈ exclusions.ranges, (range.lower : WithTop Str) < range.upper) ∧
      (exclusions.ranges.Pairwise fun first second => first.upper < second.lower) ∧
      (∀ table : StateTable, ∃ visited : List GatPath, visited.Pairwise (· < ·) ∧
        (∀ path, path ∈ visited ↔ (table.desiredAt path).isSome ∧ ∀ directory ∈ directories, ¬IsAncestor Byte.slash directory.text path.text) ∧
        ∀ {ε σ : Type} (visit : σ → GatPath → Except ε σ) (state : σ),
          table.visitDesiredPathsExcluding visit exclusions state = visited.foldlM visit state) ∧
      ∀ (matcher : List GitIgnorePattern → Str → Bool) (patterns : List GitIgnorePattern) (path : GatPath),
        (IgnoreCoveragePlan.new matcher patterns).excluded.contains path = true ↔
          ∃ pattern ∈ patterns, ∃ directory : GatPath, pattern.text = ascii "/" ++ (directory.text ++ ascii "/") ∧
            (∀ char ∈ Utf8.chars directory.text, isPatternSyntax char = false) ∧ IsAncestor Byte.slash directory.text path.text := by
  intro exclusions
  refine ⟨fun path => DesiredPathExclusions.contains_new, exclusions.proper, exclusions.apart, fun table => ?_,
    fun matcher patterns path => IgnoreCoveragePlan.contains_excluded⟩
  refine ⟨table.desiredPaths.filter fun path => !exclusions.contains path, StateTable.pairwise_desiredPaths.filter _, fun path => ?_,
    fun visit state => StateTable.visitDesiredPathsExcluding_eq exclusions state⟩
  rw [List.mem_filter, StateTable.mem_desiredPaths, Bool.not_eq_true', Bool.eq_false_iff, ne_eq, DesiredPathExclusions.contains_new]
  push Not
  rfl

end Gat
