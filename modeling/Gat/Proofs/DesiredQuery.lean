import Gat.Model.DesiredQuery
import Gat.Proofs.StateStore

/-! # What a query retrieves

The range of a prefix holds every text that begins with it, so the span of a list of bounds retrieves whatever one
of the bounds admits. Its ranges have gaps between them, and its exact paths lie outside all ranges.
-/

namespace Gat

/-! ## Ranges of prefixes -/

theorem lt_of_nextScalar {char next : Char} (found : nextScalar char = some next) : char < next := by
  unfold nextScalar at found
  split_ifs at found with last valid
  · obtain rfl := Option.some.inj found
    change char.toNat < (Char.ofNat 0xE000).toNat
    rw [last]
    decide
  · obtain rfl := Option.some.inj found
    exact Nat.lt_succ_self char.toNat

/-- Whatever follows the characters stays below their upper bound. -/
theorem append_lt_prefixUpperRev (reversed : List Char) (rest : Str) :
    ((reversed.reverse.flatMap String.utf8EncodeChar ++ rest : Str) : WithTop Str) < prefixUpperRev reversed := by
  induction reversed generalizing rest with
  | nil => exact WithTop.coe_lt_top _
  | cons last front ih =>
    rw [List.reverse_cons, List.flatMap_append, List.append_assoc, List.flatMap_singleton, prefixUpperRev]
    split
    · next next found =>
      rw [WithTop.coe_lt_coe, List.append_lt_append_iff, ← List.append_nil (String.utf8EncodeChar next)]
      exact Utf8.encodeChar_append_lt (lt_of_nextScalar found) rest []
    · exact ih _

/-- The range of a prefix holds everything that begins with it. -/
theorem LexicalRange.mem_forPrefix {pattern path : Str} (utf8 : Utf8.Valid pattern) (begins : pattern <+: path) :
    path ∈ LexicalRange.forPrefix pattern := by
  refine ⟨begins.le_lex, ?_⟩
  obtain ⟨rest, rfl⟩ := begins
  have below := append_lt_prefixUpperRev (Utf8.chars pattern).reverse rest
  rwa [List.reverse_reverse, Utf8.flatMap_chars utf8] at below

/-! ## Coalescing -/

section Coalesce

variable {ranges : List LexicalRange} {path : Str}

private theorem ascending_mergeSort (ranges : List LexicalRange) :
    HalfOpen.Ascending (ranges.mergeSort fun first second => toLex (first.lower, first.upper) ≤ toLex (second.lower, second.upper)) := by
  have sorted := @List.pairwise_mergeSort _ (fun first second : LexicalRange =>
    decide (toLex (first.lower, first.upper) ≤ toLex (second.lower, second.upper)))
    (fun _ _ _ first second => decide_eq_true ((of_decide_eq_true first).trans (of_decide_eq_true second)))
    (fun first second => by simpa using le_total (toLex (first.lower, first.upper)) (toLex (second.lower, second.upper))) ranges
  exact sorted.imp fun below => (Prod.Lex.le_iff'.mp (of_decide_eq_true below)).1

theorem apart_coalesceRanges (ranges : List LexicalRange) : HalfOpen.Apart (coalesceRanges ranges) :=
  HalfOpen.apart_fuse (ascending_mergeSort ranges)

theorem ascending_coalesceRanges (ranges : List LexicalRange) : HalfOpen.Ascending (coalesceRanges ranges) :=
  HalfOpen.ascending_fuse (ascending_mergeSort ranges)

theorem proper_coalesceRanges (proper : ∀ range ∈ ranges, (range.lower : WithTop Str) < range.upper) :
    ∀ range ∈ coalesceRanges ranges, (range.lower : WithTop Str) < range.upper :=
  HalfOpen.proper_fuse fun range member => proper range (List.mem_mergeSort.mp member)

theorem covers_coalesceRanges : HalfOpen.Covers (coalesceRanges ranges) path ↔ HalfOpen.Covers ranges path := by
  rw [coalesceRanges, HalfOpen.covers_fuse (ascending_mergeSort ranges)]
  simp [HalfOpen.Covers]

end Coalesce

/-! ## Spans -/

/-- The text of a scope bound without a separator at its end. -/
def trimScope (scope : Str) : Str := if scope.getLast? = some Byte.slash then scope.dropLast else scope

namespace CandidateBound

/-- The paths that a bound admits. -/
def Admits : CandidateBound → Str → Prop
  | .any, _ => True
  | .scope root, path => path = trimScope root ∨ trimScope root ++ ascii "/" <+: path
  | .prefixOf pattern, path => pattern <+: path
  | .exact only, path => path = only

/-- The text of a bound is text. -/
def Utf8Text : CandidateBound → Prop
  | .any => True
  | .scope root => Utf8.Valid (trimScope root)
  | .prefixOf pattern => Utf8.Valid pattern
  | .exact path => Utf8.Valid path

end CandidateBound

/-- What the bounds collected so far retrieve. -/
def UnionPlan.Retrieves (plan : UnionPlan) (path : Str) : Prop := HalfOpen.Covers plan.ranges path ∨ path ∈ plan.exact

/-- The stored paths that a span retrieves. -/
def DesiredSpan.Retrieves : DesiredSpan → GatPath → Prop
  | .all, _ => True
  | .empty, _ => False
  | .scope root, path => GatPath.Under root path
  | .exact paths, path => path ∈ paths
  | .union plan, path => plan.Retrieves path.text

/-- The form of a plan that its cursor relies on. -/
structure UnionPlan.WellFormed (plan : UnionPlan) : Prop where
  ascending : HalfOpen.Ascending plan.ranges
  apart : HalfOpen.Apart plan.ranges
  sorted : plan.exact.Pairwise (· < ·)
  outside : ∀ path ∈ plan.exact, ¬HalfOpen.Covers plan.ranges path

def DesiredSpan.WellFormed : DesiredSpan → Prop
  | .union plan => plan.WellFormed
  | _ => True

/-- One more bound keeps what was retrieved and adds what it admits. -/
theorem retrieves_pushBound {plan next : UnionPlan} {bound : CandidateBound} (utf8 : bound.Utf8Text)
    (pushed : pushBound plan bound = some next) {path : Str} (found : plan.Retrieves path ∨ bound.Admits path) : next.Retrieves path := by
  have covers_append {ranges more : List LexicalRange} : HalfOpen.Covers (ranges ++ more) path ↔
      HalfOpen.Covers ranges path ∨ HalfOpen.Covers more path := by
    simp [HalfOpen.Covers, or_and_right, exists_or]
  have coversBelow {pattern : Str} (utf8 : Utf8.Valid pattern) (begins : pattern <+: path) :
      HalfOpen.Covers [LexicalRange.forPrefix pattern] path :=
    ⟨_, List.mem_singleton_self _, LexicalRange.mem_forPrefix utf8 begins⟩
  cases bound with
  | any => cases pushed
  | scope scope =>
    obtain rfl := Option.some.inj pushed
    simp only [UnionPlan.Retrieves, covers_append, List.mem_append, List.mem_singleton] at found ⊢
    rcases found with (covered | listed) | same | below
    · exact Or.inl (Or.inl covered)
    · exact Or.inr (Or.inl listed)
    · exact Or.inr (Or.inr same)
    · exact Or.inl (Or.inr (coversBelow (utf8.append (Utf8.Valid.of_ascii (Utf8.forall_mem_of_all (by decide)))) below))
  | prefixOf pattern =>
    dsimp only [pushBound] at pushed
    split_ifs at pushed
    obtain rfl := Option.some.inj pushed
    simp only [UnionPlan.Retrieves, covers_append] at found ⊢
    rcases found with (covered | listed) | begins
    · exact Or.inl (Or.inl covered)
    · exact Or.inr listed
    · exact Or.inl (Or.inr (coversBelow utf8 begins))
  | exact only =>
    obtain rfl := Option.some.inj pushed
    simp only [UnionPlan.Retrieves, List.mem_append, List.mem_singleton] at found ⊢
    rcases found with (covered | listed) | same
    · exact Or.inl covered
    · exact Or.inr (Or.inl listed)
    · exact Or.inr (Or.inr same)

theorem retrieves_foldlM_pushBound {bounds : List CandidateBound} {plan final : UnionPlan} (utf8 : ∀ bound ∈ bounds, bound.Utf8Text)
    (pushed : bounds.foldlM pushBound plan = some final) {path : Str}
    (found : plan.Retrieves path ∨ ∃ bound ∈ bounds, bound.Admits path) : final.Retrieves path := by
  induction bounds generalizing plan with
  | nil =>
    obtain rfl := Option.some.inj pushed
    simpa using found
  | cons bound bounds ih =>
    rw [List.foldlM_cons, Option.bind_eq_bind, Option.bind_eq_some_iff] at pushed
    obtain ⟨next, first, rest⟩ := pushed
    have push (held : plan.Retrieves path ∨ bound.Admits path) := retrieves_pushBound (utf8 bound List.mem_cons_self) first held
    refine ih (fun other member => utf8 other (List.mem_cons_of_mem _ member)) rest ?_
    rcases found with held | ⟨other, member, admits⟩
    · exact Or.inl (push (Or.inl held))
    · rcases List.mem_cons.mp member with rfl | member
      · exact Or.inl (push (Or.inr admits))
      · exact Or.inr ⟨other, member, admits⟩

/-- The span retrieves whatever a bound admits. -/
theorem retrieves_spanFromBounds {bounds : List CandidateBound} (utf8 : ∀ bound ∈ bounds, bound.Utf8Text) {path : GatPath}
    {bound : CandidateBound} (member : bound ∈ bounds) (admits : bound.Admits path.text) : (spanFromBounds bounds).Retrieves path := by
  unfold spanFromBounds
  split
  · trivial
  · next plan pushed =>
    have found := retrieves_foldlM_pushBound utf8 pushed (Or.inr ⟨bound, member, admits⟩)
    split_ifs with nothing
    · rw [UnionPlan.Retrieves, nothing.1, nothing.2] at found
      simp [HalfOpen.Covers] at found
    · have outside := HalfOpen.uncovered_eq (ascending_coalesceRanges plan.ranges)
        ((Finset.sortedLT_sort plan.exact.toFinset).pairwise.imp le_of_lt)
      simp only [DesiredSpan.Retrieves, UnionPlan.Retrieves, covers_coalesceRanges, retainUncoveredExacts, outside, List.mem_filter]
      by_cases covered : HalfOpen.Covers plan.ranges path.text
      · exact Or.inl covered
      · exact Or.inr ⟨by simpa using found.resolve_left covered, by simpa using covered⟩

theorem wellFormed_spanFromBounds (bounds : List CandidateBound) : (spanFromBounds bounds).WellFormed := by
  unfold spanFromBounds
  split
  · trivial
  · next plan pushed =>
    split_ifs
    · trivial
    · have sorted := (Finset.sortedLT_sort plan.exact.toFinset).pairwise
      have outside := HalfOpen.uncovered_eq (ascending_coalesceRanges plan.ranges) (sorted.imp le_of_lt)
      refine ⟨ascending_coalesceRanges _, apart_coalesceRanges _, ?_, fun path member => ?_⟩
      · exact (outside ▸ sorted.filter _ : _)
      · have listed : path ∈ HalfOpen.uncovered (coalesceRanges plan.ranges) (plan.exact.toFinset.sort (· ≤ ·)) := member
        rw [outside] at listed
        simpa using (List.mem_filter.mp listed).2

end Gat
