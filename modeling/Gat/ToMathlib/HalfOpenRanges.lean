import Mathlib.Data.List.Sort
import Mathlib.Data.List.TakeWhile
import Mathlib.Order.WithBot
import Mathlib.Order.MinMax
import Mathlib.Tactic.Common

/-! # Unions of half-open ranges

A set of points given as half-open ranges, some without an upper bound, is kept as a list in ascending order of
the lower bounds. Fusing ranges that overlap or touch leaves the set as it is, and afterwards there is a gap
between any two ranges. Points outside all ranges are found in one pass over both lists.
-/

/-- The points from a lower bound up to an upper bound, which is excluded; the top stands for no upper bound. -/
structure HalfOpen (α : Type*) where
  lower : α
  upper : WithTop α
deriving DecidableEq

namespace HalfOpen

variable {α : Type*} [LinearOrder α]

instance : Membership α (HalfOpen α) := ⟨fun range point => range.lower ≤ point ∧ (point : WithTop α) < range.upper⟩

theorem mem_iff {range : HalfOpen α} {point : α} : point ∈ range ↔ range.lower ≤ point ∧ (point : WithTop α) < range.upper := Iff.rfl

instance (range : HalfOpen α) (point : α) : Decidable (point ∈ range) := inferInstanceAs (Decidable (_ ∧ _))

/-- The union of some ranges. -/
def Covers (ranges : List (HalfOpen α)) (point : α) : Prop := ∃ range ∈ ranges, point ∈ range

instance (ranges : List (HalfOpen α)) (point : α) : Decidable (Covers ranges point) :=
  inferInstanceAs (Decidable (∃ range ∈ ranges, point ∈ range))

theorem covers_cons {range : HalfOpen α} {ranges : List (HalfOpen α)} {point : α} :
    Covers (range :: ranges) point ↔ point ∈ range ∨ Covers ranges point := by
  simp [Covers]

/-- Lower bounds ascend. -/
def Ascending (ranges : List (HalfOpen α)) : Prop := ranges.Pairwise fun first second => first.lower ≤ second.lower

/-- There is a gap between any two ranges. -/
def Apart (ranges : List (HalfOpen α)) : Prop := ranges.Pairwise fun first second => first.upper < second.lower

/-- A range and one that starts inside it or where it ends, as one range. -/
def join (first second : HalfOpen α) : HalfOpen α := ⟨first.lower, max first.upper second.upper⟩

theorem mem_join {first second : HalfOpen α} (ascending : first.lower ≤ second.lower) (meets : second.lower ≤ first.upper)
    {point : α} : point ∈ first.join second ↔ point ∈ first ∨ point ∈ second := by
  simp only [join, mem_iff, lt_max_iff]
  constructor
  · rintro ⟨above, below | below⟩
    · exact Or.inl ⟨above, below⟩
    · by_cases inside : (point : WithTop α) < first.upper
      · exact Or.inl ⟨above, inside⟩
      · have reached : second.lower ≤ point := WithTop.coe_le_coe.mp (meets.trans (not_lt.mp inside))
        exact Or.inr ⟨reached, below⟩
  · rintro (⟨above, below⟩ | ⟨above, below⟩)
    · exact ⟨above, Or.inl below⟩
    · exact ⟨ascending.trans above, Or.inr below⟩

/-! ## Fusing -/

/-- Fuse neighbours that overlap or touch. -/
def fuse : List (HalfOpen α) → List (HalfOpen α)
  | first :: second :: rest =>
    if second.lower ≤ first.upper then fuse (first.join second :: rest) else first :: fuse (second :: rest)
  | short => short
termination_by ranges => ranges.length

/-- Fusing keeps the union and its least bound, and leaves gaps. -/
theorem fuse_cons_spec (first : HalfOpen α) (rest : List (HalfOpen α)) (ascending : Ascending (first :: rest)) :
    (∀ point, Covers (fuse (first :: rest)) point ↔ Covers (first :: rest) point) ∧
      (∀ range ∈ fuse (first :: rest), first.lower ≤ range.lower) ∧ Apart (fuse (first :: rest)) := by
  induction rest generalizing first with
  | nil =>
    rw [fuse]
    · exact ⟨fun _ => Iff.rfl, by simp, List.pairwise_singleton _ _⟩
    · simp
  | cons second rest ih =>
    obtain ⟨least, ascending'⟩ := List.pairwise_cons.mp ascending
    have before : first.lower ≤ second.lower := least second List.mem_cons_self
    rw [fuse]
    split_ifs with meets
    · have joined : Ascending (first.join second :: rest) :=
        List.pairwise_cons.mpr ⟨fun range member => least range (List.mem_cons_of_mem _ member), ascending'.of_cons⟩
      obtain ⟨covers, bound, apart⟩ := ih (first.join second) joined
      refine ⟨fun point => (covers point).trans ?_, bound, apart⟩
      simp only [covers_cons, mem_join before meets, or_assoc]
    · obtain ⟨covers, bound, apart⟩ := ih second ascending'
      refine ⟨fun point => ?_, ?_, ?_⟩
      · rw [covers_cons, covers point, ← covers_cons]
      · exact List.forall_mem_cons.mpr ⟨le_refl _, fun range member => before.trans (bound range member)⟩
      · refine List.pairwise_cons.mpr ⟨fun range member => ?_, apart⟩
        exact (not_le.mp meets).trans_le (WithTop.coe_le_coe.mpr (bound range member))

theorem covers_fuse {ranges : List (HalfOpen α)} (ascending : Ascending ranges) {point : α} :
    Covers (fuse ranges) point ↔ Covers ranges point := by
  cases ranges with
  | nil => simp [fuse]
  | cons first rest => exact (fuse_cons_spec first rest ascending).1 point

theorem apart_fuse {ranges : List (HalfOpen α)} (ascending : Ascending ranges) : Apart (fuse ranges) := by
  cases ranges with
  | nil => simp [fuse, Apart]
  | cons first rest => exact (fuse_cons_spec first rest ascending).2.2

theorem ascending_fuse {ranges : List (HalfOpen α)} (ascending : Ascending ranges) : Ascending (fuse ranges) := by
  fun_induction fuse ranges with
  | case1 first second rest meets ih =>
    obtain ⟨least, ascending'⟩ := List.pairwise_cons.mp ascending
    exact ih (List.pairwise_cons.mpr ⟨fun range member => least range (List.mem_cons_of_mem _ member), ascending'.of_cons⟩)
  | case2 first second rest gap ih =>
    obtain ⟨least, ascending'⟩ := List.pairwise_cons.mp ascending
    refine List.pairwise_cons.mpr ⟨fun range member => ?_, ih ascending'⟩
    exact (least second List.mem_cons_self).trans ((fuse_cons_spec second rest ascending').2.1 range member)
  | case3 => exact ascending

/-- Fusing ranges that hold their lower bounds gives such ranges. -/
theorem proper_fuse {ranges : List (HalfOpen α)} (proper : ∀ range ∈ ranges, (range.lower : WithTop α) < range.upper) :
    ∀ range ∈ fuse ranges, (range.lower : WithTop α) < range.upper := by
  fun_induction fuse ranges with
  | case1 first second rest meets ih =>
    rw [List.forall_mem_cons, List.forall_mem_cons] at proper
    exact ih (List.forall_mem_cons.mpr ⟨lt_max_of_lt_left proper.1, proper.2.2⟩)
  | case2 first second rest gap ih =>
    rw [List.forall_mem_cons] at proper
    exact List.forall_mem_cons.mpr ⟨proper.1, ih proper.2⟩
  | case3 => exact proper

/-! ## Points outside -/

/-- Keep the points of an ascending list that lie in none of the ascending ranges; neither list is read twice. -/
def uncovered : List (HalfOpen α) → List α → List α
  | _, [] => []
  | [], points => points
  | range :: ranges, point :: points =>
    if range.upper ≤ point then uncovered ranges (point :: points)
    else if range.lower ≤ point then uncovered (range :: ranges) points
    else point :: uncovered (range :: ranges) points
termination_by ranges points => ranges.length + points.length

theorem uncovered_eq {ranges : List (HalfOpen α)} {points : List α} (ascending : Ascending ranges)
    (sorted : points.Pairwise (· ≤ ·)) : uncovered ranges points = points.filter fun point => !decide (Covers ranges point) := by
  fun_induction uncovered ranges points with
  | case1 ranges => rfl
  | case2 points nonempty => exact (List.filter_eq_self.mpr fun _ _ => by simp [Covers]).symm
  | case3 range ranges point points past ih =>
    -- a range that ends before a point covers none of the later ones
    rw [ih ascending.of_cons sorted]
    refine List.filter_congr fun other member => ?_
    have later : point ≤ other := by
      rcases List.mem_cons.mp member with rfl | member
      · exact le_refl _
      · exact (List.pairwise_cons.mp sorted).1 other member
    have outside : other ∉ range := fun inside => absurd inside.2 (not_lt.mpr (past.trans (WithTop.coe_le_coe.mpr later)))
    simp [covers_cons, outside]
  | case4 range ranges point points open_ started ih =>
    have inside : Covers (range :: ranges) point := covers_cons.mpr (Or.inl ⟨started, not_le.mp open_⟩)
    rw [ih ascending sorted.of_cons, List.filter_cons_of_neg (by simpa using inside)]
  | case5 range ranges point points open_ ahead ih =>
    have outside : ¬Covers (range :: ranges) point := by
      rintro ⟨other, member, inside⟩
      apply ahead
      rcases List.mem_cons.mp member with rfl | member
      · exact inside.1
      · exact ((List.pairwise_cons.mp ascending).1 other member).trans inside.1
    rw [ih ascending sorted.of_cons, List.filter_cons_of_pos (by simpa using outside)]

/-! ## Looking a point up -/

/-- Only the last range that starts at or below a point can hold it. -/
theorem covers_iff_getLast? {ranges : List (HalfOpen α)} (ascending : Ascending ranges) (apart : Apart ranges) {point : α} :
    Covers ranges point ↔
      ∃ range, (ranges.takeWhile fun range => range.lower ≤ point).getLast? = some range ∧ (point : WithTop α) < range.upper := by
  induction ranges with
  | nil => simp [Covers]
  | cons range ranges ih =>
    obtain ⟨least, ascending⟩ := List.pairwise_cons.mp ascending
    obtain ⟨gap, apart⟩ := List.pairwise_cons.mp apart
    rw [covers_cons, ih ascending apart, List.takeWhile_cons]
    by_cases started : range.lower ≤ point
    · rw [if_pos (decide_eq_true started), List.getLast?_cons]
      cases last : (ranges.takeWhile fun range => range.lower ≤ point).getLast? with
      | none => simp [mem_iff, started]
      | some other =>
        have member := List.mem_of_getLast? last
        have reached : other.lower ≤ point := by simpa using List.mem_takeWhile_imp member
        have past : ¬(point : WithTop α) < range.upper := by
          have ended := gap other ((List.takeWhile_sublist _).subset member)
          exact not_lt.mpr (ended.le.trans (WithTop.coe_le_coe.mpr reached))
        simp [mem_iff, past]
    · have none : ranges.takeWhile (fun range => decide (range.lower ≤ point)) = [] := by
        cases ranges with
        | nil => rfl
        | cons next ranges =>
          have later : ¬next.lower ≤ point := fun below => started ((least next List.mem_cons_self).trans below)
          rw [List.takeWhile_cons_of_neg (by simpa using later)]
      rw [none, if_neg (by simpa using started)]
      simp [mem_iff, started]

/-! ## Gaps -/

/-- The ranges between and beside the listed ones, from a first point on. -/
def gaps : α → List (HalfOpen α) → List (HalfOpen α)
  | lower, [] => [⟨lower, ⊤⟩]
  | lower, range :: ranges =>
    ⟨lower, range.lower⟩ :: match range.upper with
      | ⊤ => []
      | (upper : α) => gaps upper ranges

/-- The points of the gaps, gap by gap, are the points outside. -/
theorem flatMap_gaps {ranges : List (HalfOpen α)} {lower : α} {points : List α} (sorted : points.Pairwise (· < ·))
    (ascending : Ascending ranges) (apart : Apart ranges) (proper : ∀ range ∈ ranges, (range.lower : WithTop α) < range.upper)
    (first : ∀ range ∈ ranges, lower ≤ range.lower) :
    ((gaps lower ranges).flatMap fun gap => points.filter fun point => point ∈ gap) =
      points.filter fun point => decide (lower ≤ point) && !decide (Covers ranges point) := by
  induction ranges generalizing lower with
  | nil => simp [gaps, mem_iff, Covers]
  | cons range ranges ih =>
    obtain ⟨least, ascending⟩ := List.pairwise_cons.mp ascending
    obtain ⟨gap, apart⟩ := List.pairwise_cons.mp apart
    rw [List.forall_mem_cons] at proper first
    -- both sides are in ascending order, so only their members matter
    have ordered : ∀ {keep : α → Bool}, (points.filter keep).Pairwise (· < ·) := sorted.filter _
    rw [gaps, List.flatMap_cons]
    cases isUpper : range.upper with
    | top =>
      rw [List.flatMap_nil, List.append_nil]
      refine List.filter_congr fun point _ => ?_
      have outside : ¬Covers ranges point := by
        rintro ⟨other, member, -⟩
        have above := gap other member
        rw [isUpper] at above
        exact absurd above not_top_lt
      simp [mem_iff, covers_cons, outside, isUpper, ← not_lt]
    | coe upper =>
      rw [isUpper] at proper
      have ends : range.lower < upper := WithTop.coe_lt_coe.mp proper.1
      have above : ∀ other ∈ ranges, upper ≤ other.lower := by
        intro other member
        have apart := gap other member
        rw [isUpper] at apart
        exact (WithTop.coe_lt_coe.mp apart).le
      dsimp only
      rw [ih ascending apart proper.2 above]
      refine List.Pairwise.eq_of_mem_iff ?_ ordered fun point => ?_
      · refine List.pairwise_append.mpr ⟨ordered, ordered, fun point member later isLater => ?_⟩
        have below := (of_decide_eq_true (List.mem_filter.mp member).2).2
        have reached := (Bool.and_eq_true_iff.mp (List.mem_filter.mp isLater).2).1
        exact ((WithTop.coe_lt_coe.mp below).trans ends).trans_le (of_decide_eq_true reached)
      · have outside : ∀ {point}, point < upper → ¬Covers ranges point := by
          rintro point before ⟨other, member, inside⟩
          exact absurd (above other member) (not_le.mpr (inside.1.trans_lt before))
        simp only [List.mem_append, List.mem_filter, mem_iff, covers_cons, isUpper, decide_eq_true_eq, WithTop.coe_lt_coe, Bool.and_eq_true,
          Bool.not_eq_true', decide_eq_false_iff_not, not_or, not_and, not_lt]
        rw [← and_or_left]
        refine and_congr_right fun _ => ?_
        constructor
        · rintro (⟨reached, before⟩ | ⟨past, apart⟩)
          · exact ⟨reached, fun started => absurd before (not_lt.mpr started), outside (before.trans ends)⟩
          · exact ⟨first.1.trans (ends.le.trans past), fun _ => past, apart⟩
        · rintro ⟨reached, ended, apart⟩
          by_cases started : range.lower ≤ point
          · exact Or.inr ⟨ended started, apart⟩
          · exact Or.inl ⟨reached, not_le.mp started⟩

end HalfOpen
