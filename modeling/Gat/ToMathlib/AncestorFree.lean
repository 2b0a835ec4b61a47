import Mathlib.Data.List.Pairwise
import Gat.ToMathlib.ListLex

/-! # Hierarchical names and their ancestor conflicts

A hierarchical name is a list of letters in which one letter separates components. A name is an
ancestor of another when the other continues it after a separator. A set of names without such a
pair can be laid out as a tree of files. Deciding this over a sorted list in one pass needs only the
earlier names that are prefixes of the current one. Those names are nested, so they form a stack, and
as long as no conflict has occurred only the top of the stack can be an ancestor.
-/

namespace AncestorFree

open List

variable {α : Type*}

/-- The path continues the ancestor after one separator. -/
def IsAncestor (separator : α) (ancestor path : List α) : Prop :=
  ancestor ++ [separator] <+: path

/-- No listed name is an ancestor of a listed name. -/
def Separated (separator : α) (names : List (List α)) : Prop :=
  ∀ ancestor ∈ names, ∀ path ∈ names, ¬IsAncestor separator ancestor path

variable {separator : α}

instance [DecidableEq α] (ancestor path : List α) : Decidable (IsAncestor separator ancestor path) :=
  inferInstanceAs (Decidable (ancestor ++ [separator] <+: path))

instance instDecidableSeparated [DecidableEq α] (names : List (List α)) : Decidable (Separated separator names) :=
  inferInstanceAs (Decidable (∀ ancestor ∈ names, ∀ path ∈ names, ¬IsAncestor separator ancestor path))

theorem IsAncestor.isPrefix {ancestor path : List α} (above : IsAncestor separator ancestor path) :
    ancestor <+: path :=
  (prefix_append ancestor [separator]).trans above

theorem IsAncestor.length_lt {ancestor path : List α} (above : IsAncestor separator ancestor path) :
    ancestor.length < path.length := by
  have bound := IsPrefix.length_le above
  rw [length_append, length_singleton] at bound
  omega

/-- Ancestry is a prefix together with the separator as the next letter. -/
theorem isAncestor_iff {ancestor path : List α} :
    IsAncestor separator ancestor path ↔
      ancestor <+: path ∧ path[ancestor.length]? = some separator := by
  constructor
  · intro above
    refine ⟨above.isPrefix, ?_⟩
    obtain ⟨rest, rfl⟩ := above
    simp
  · rintro ⟨⟨rest, rfl⟩, letter⟩
    rw [getElem?_append_right (le_refl _), Nat.sub_self] at letter
    cases rest with
    | nil => simp at letter
    | cons head rest =>
      obtain rfl : head = separator := by simpa using letter
      exact ⟨rest, by simp⟩

theorem IsAncestor.trans {first second third : List α} (above : IsAncestor separator first second)
    (below : IsAncestor separator second third) : IsAncestor separator first third :=
  IsPrefix.trans above below.isPrefix

/-- Two prefixes of one path continue with the same letter, so an ancestor of the path is an
ancestor of every longer prefix. -/
theorem IsAncestor.of_longer_prefix {ancestor middle path : List α}
    (above : IsAncestor separator ancestor path) (below : middle <+: path)
    (longer : ancestor.length < middle.length) : IsAncestor separator ancestor middle := by
  refine prefix_of_prefix_length_le above below ?_
  rw [length_append, length_singleton]
  omega

theorem IsAncestor.lt [LinearOrder α] {ancestor path : List α}
    (above : IsAncestor separator ancestor path) : ancestor < path :=
  above.isPrefix.lt_lex above.length_lt

theorem Separated.subset {names others : List (List α)} (free : Separated separator others)
    (included : names ⊆ others) : Separated separator names :=
  fun ancestor first path second => free ancestor (included first) path (included second)

@[simp] theorem separated_nil : Separated separator ([] : List (List α)) := by simp [Separated]

theorem separated_singleton (path : List α) : Separated separator [path] := by
  intro ancestor first descendant second above
  rw [mem_singleton.mp first, mem_singleton.mp second] at above
  exact absurd above.length_lt (lt_irrefl _)

/-- Appending a largest name can only create conflicts below earlier names. -/
theorem separated_concat_iff [LinearOrder α] {names : List (List α)} {path : List α}
    (largest : ∀ name ∈ names, name < path) :
    Separated separator (names ++ [path]) ↔
      Separated separator names ∧ ∀ name ∈ names, ¬IsAncestor separator name path := by
  constructor
  · intro free
    refine ⟨free.subset (subset_append_left _ _), fun name member => ?_⟩
    exact free name (by simp [member]) path (by simp)
  · rintro ⟨free, fresh⟩ ancestor first descendant second above
    rw [mem_append, mem_singleton] at first second
    rcases first with first | rfl
    · rcases second with second | rfl
      · exact free ancestor first descendant second above
      · exact fresh ancestor first above
    · rcases second with second | rfl
      · exact lt_asymm above.lt (largest descendant second)
      · exact absurd above.lt (lt_irrefl _)

/-! ## The stack of earlier prefixes -/

/-- The stack lists the earlier names that are prefixes of the path, longest first. -/
structure PrefixStack (earlier : List (List α)) (path : List α) (stack : List (List α)) : Prop where
  mem_iff : ∀ name, name ∈ stack ↔ name ∈ earlier ∧ name <+: path
  nested : stack.Pairwise (fun deeper shallower => shallower.length < deeper.length)

namespace PrefixStack

variable {earlier : List (List α)} {path : List α} {stack : List (List α)}

theorem nil (path : List α) : PrefixStack [] path [] := ⟨by simp, Pairwise.nil⟩

private theorem dropWhile_congr {left right : List α → Bool} (same : ∀ name ∈ stack, left name = right name) :
    stack.dropWhile left = stack.dropWhile right := by
  induction stack with
  | nil => rfl
  | cons name stack ih =>
    rw [forall_mem_cons] at same
    rw [dropWhile_cons, dropWhile_cons, same.1, ih same.2]

/-- On decreasing lengths, popping the long entries is filtering them. -/
private theorem dropWhile_eq_filter (bound : ℕ)
    (nested : stack.Pairwise (fun deeper shallower => shallower.length < deeper.length)) :
    stack.dropWhile (fun name => decide (bound < name.length)) =
      stack.filter (fun name => decide (name.length ≤ bound)) := by
  induction stack with
  | nil => rfl
  | cons name stack ih =>
    rw [pairwise_cons] at nested
    rw [dropWhile_cons, filter_cons]
    by_cases long : bound < name.length
    · rw [if_pos (decide_eq_true long), if_neg (by simpa using long), ih nested.2]
    · rw [if_neg (by simpa using long), if_pos (by simpa using long), cons.injEq]
      refine ⟨rfl, (filter_eq_self.mpr fun other member => ?_).symm⟩
      have shorter := nested.1 other member
      exact decide_eq_true (by omega)

/-- Moving to a larger path pops the entries that end beyond the common part. -/
theorem advance [LinearOrder α] {previous : List α} (chain : PrefixStack earlier previous stack)
    (last : ∀ name ∈ earlier, name ≤ previous) (later : previous < path) :
    PrefixStack earlier path
      (stack.dropWhile (fun name => decide (lcpLength previous path < name.length))) := by
  rw [dropWhile_eq_filter _ chain.nested]
  refine ⟨fun name => ?_, chain.nested.filter _⟩
  rw [mem_filter, chain.mem_iff, decide_eq_true_eq, and_assoc]
  refine and_congr_right fun member => ?_
  rw [prefix_iff_of_le_of_lt (last name member) later]

/-- Moving to a larger path pops the entries that do not begin it. -/
theorem advance_of_isPrefix [LinearOrder α] {previous : List α} (chain : PrefixStack earlier previous stack)
    (last : ∀ name ∈ earlier, name ≤ previous) (later : previous < path) :
    PrefixStack earlier path (stack.dropWhile fun name => !decide (name <+: path)) := by
  have advanced := chain.advance last later
  rwa [dropWhile_congr fun name member => ?_] at advanced
  have begins := prefix_iff_of_le_of_lt (last name ((chain.mem_iff name).mp member).1) later
  have here := ((chain.mem_iff name).mp member).2
  rw [← decide_not, decide_eq_decide, begins]
  simp [here]

/-- The path itself becomes the top entry once it has been accepted. -/
theorem push [LinearOrder α] (chain : PrefixStack earlier path stack)
    (largest : ∀ name ∈ earlier, name < path) : PrefixStack (earlier ++ [path]) path (path :: stack) := by
  constructor
  · intro name
    rw [mem_cons, chain.mem_iff, mem_append, mem_singleton]
    constructor
    · rintro (rfl | ⟨member, below⟩)
      · exact ⟨Or.inr rfl, prefix_rfl⟩
      · exact ⟨Or.inl member, below⟩
    · rintro ⟨member | rfl, below⟩
      · exact Or.inr ⟨member, below⟩
      · exact Or.inl rfl
  · refine pairwise_cons.mpr ⟨fun name member => ?_, chain.nested⟩
    obtain ⟨earlierMember, below⟩ := (chain.mem_iff name).mp member
    refine lt_of_le_of_ne below.length_le fun same => ?_
    exact absurd (largest name earlierMember) (below.eq_of_length same ▸ lt_irrefl _)

/-- Popping the entries that are not proper prefixes of a larger path and pushing the previous path when it
is one. -/
theorem extend [LinearOrder α] {previous : List α} (chain : PrefixStack earlier previous stack)
    (last : ∀ name ∈ earlier, name < previous) (later : previous < path) :
    PrefixStack (earlier ++ [previous]) path
      (if previous.length < path.length ∧ previous <+: path then
        previous :: stack.dropWhile (fun name => decide (path.length ≤ name.length) || !name.isPrefixOf path)
      else stack.dropWhile (fun name => decide (path.length ≤ name.length) || !name.isPrefixOf path)) := by
  have pushed := chain.push last
  have advanced := pushed.advance (fun name member => ?_) later
  · have proper : ∀ name ∈ previous :: stack,
        (decide (path.length ≤ name.length) || !name.isPrefixOf path) = decide (lcpLength previous path < name.length) := by
      intro name member
      obtain ⟨listed, below⟩ := (pushed.mem_iff name).mp member
      have bound : name < path := lt_of_le_of_lt below.le_lex later
      have ends_iff : name <+: path ↔ name.length ≤ lcpLength previous path := below.prefix_iff_length_le
      by_cases isPrefix : name <+: path
      · have short : name.length < path.length := lt_of_le_of_ne isPrefix.length_le fun same =>
          absurd bound (isPrefix.eq_of_length same ▸ lt_irrefl _)
        rw [decide_eq_false (not_le.mpr short), decide_eq_false (not_lt.mpr (ends_iff.mp isPrefix)),
          isPrefixOf_iff_prefix.mpr isPrefix]
        rfl
      · have beyond : lcpLength previous path < name.length := not_le.mp fun ends => isPrefix (ends_iff.mpr ends)
        rw [decide_eq_true beyond, Bool.eq_false_iff.mpr (fun found => isPrefix ( isPrefixOf_iff_prefix.mp found)),
          Bool.not_false, Bool.or_true]
    have dropped : stack.dropWhile (fun name => decide (path.length ≤ name.length) || !name.isPrefixOf path) =
        stack.dropWhile (fun name => decide (lcpLength previous path < name.length)) :=
      dropWhile_congr fun name member => proper name (mem_cons_of_mem _ member)
    rw [dropped]
    rw [dropWhile_cons, ← proper previous mem_cons_self] at advanced
    by_cases isPrefix : previous.length < path.length ∧ previous <+: path
    · rw [if_pos isPrefix]
      rw [decide_eq_false (not_le.mpr isPrefix.1), isPrefixOf_iff_prefix.mpr isPrefix.2] at advanced
      suffices same : stack.dropWhile (fun name => decide (lcpLength previous path < name.length)) = stack by
        rw [same]
        exact advanced
      cases stack with
      | nil => rfl
      | cons top stack =>
        have topPrefix := ((chain.mem_iff top).mp mem_cons_self).2
        have ends := topPrefix.prefix_iff_length_le.mp (topPrefix.trans isPrefix.2)
        rw [dropWhile_cons_of_neg (by simpa using ends)]
    · rw [if_neg isPrefix]
      rwa [if_pos ?_] at advanced
      rw [Bool.or_eq_true, decide_eq_true_eq, Bool.not_eq_true', Bool.eq_false_iff, ne_eq, isPrefixOf_iff_prefix]
      by_contra neither
      rw [not_or, not_le, not_not] at neither
      exact isPrefix neither
  · rcases mem_append.mp member with member | single
    · exact (last name member).le
    · rw [mem_singleton.mp single]

/-- While the earlier names are separated, only the longest prefix can be an ancestor. -/
theorem exists_ancestor_iff (chain : PrefixStack earlier path stack)
    (free : Separated separator earlier) :
    (∃ name ∈ earlier, IsAncestor separator name path) ↔
      ∃ top, stack.head? = some top ∧ path[top.length]? = some separator := by
  constructor
  · rintro ⟨name, member, above⟩
    have listed := (chain.mem_iff name).mpr ⟨member, above.isPrefix⟩
    cases stack with
    | nil => simp at listed
    | cons top stack =>
      obtain ⟨topMember, topPrefix⟩ := (chain.mem_iff top).mp mem_cons_self
      refine ⟨top, rfl, ?_⟩
      rcases mem_cons.mp listed with rfl | deeper
      · exact (isAncestor_iff.mp above).2
      · have shorter := (pairwise_cons.mp chain.nested).1 name deeper
        exact absurd (above.of_longer_prefix topPrefix shorter) (free name member top topMember)
  · rintro ⟨top, head, letter⟩
    obtain ⟨member, below⟩ := (chain.mem_iff top).mp (mem_of_mem_head? head)
    exact ⟨top, member, isAncestor_iff.mpr ⟨below, letter⟩⟩

end PrefixStack

/-! ## Searching for the first descendant -/

section Search

variable [LinearOrder α] {path : List α} {later : List (List α)}

/-- If the immediate successor does not extend a name, no later name does. -/
theorem not_isAncestor_of_head {next : List α} (sorted : (next :: later).Pairwise (· < ·))
    (above : path < next) (apart : ¬path <+: next) :
    ∀ name ∈ next :: later, ¬IsAncestor separator path name := by
  intro name member ancestor
  refine apart (ancestor.isPrefix.of_between above.le ?_)
  rcases mem_cons.mp member with rfl | further
  · exact le_rfl
  · exact ((pairwise_cons.mp sorted).1 name further).le

/-- The first name at or above the separated extension is a descendant if any later name is. -/
theorem exists_head_of_descendant (sorted : later.Pairwise (· < ·)) {name : List α} (member : name ∈ later)
    (above : IsAncestor separator path name) :
    ∃ first, (later.dropWhile (fun candidate => decide (candidate < path ++ [separator]))).head? = some first ∧
      IsAncestor separator path first ∧ first ≤ name := by
  induction later with
  | nil => simp at member
  | cons candidate later ih =>
    rw [pairwise_cons] at sorted
    rw [dropWhile_cons]
    by_cases low : candidate < path ++ [separator]
    · rw [if_pos (decide_eq_true low)]
      rcases mem_cons.mp member with rfl | further
      · exact absurd (IsPrefix.le_lex above) (not_le_of_gt low)
      · exact ih sorted.2 further
    · rw [if_neg (by simpa using low)]
      have bound : candidate ≤ name := by
        rcases mem_cons.mp member with rfl | further
        · exact le_rfl
        · exact (sorted.1 name further).le
      exact ⟨candidate, rfl, IsPrefix.of_between above (not_lt.mp low) bound, bound⟩

end Search

end AncestorFree
