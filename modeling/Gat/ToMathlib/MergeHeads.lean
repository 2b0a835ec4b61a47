import Mathlib

/-! # Merging many sorted queues

A merge of several queues keeps one head per queue and repeatedly takes the least. Its output names the
queue that owned each row. The merge outputs every row exactly once and, when each queue is sorted, in
order.
-/

namespace List

variable {α κ : Type*} [LinearOrder κ] (key : α → κ)

/-- Take the least head, of equal heads the one of the first queue. -/
def popLeast : List (List α × ℕ) → Option ((α × ℕ) × List (List α × ℕ))
  | [] => none
  | ([], owner) :: queues => (popLeast queues).map fun popped => (popped.1, ([], owner) :: popped.2)
  | (row :: rest, owner) :: queues =>
    match popLeast queues with
    | none => some ((row, owner), (rest, owner) :: queues)
    | some (least, others) =>
      if key least.1 < key row then some (least, (row :: rest, owner) :: others)
      else some ((row, owner), (rest, owner) :: queues)

/-- Take heads until none is left or the count is used up. -/
def mergeHeadsFrom : ℕ → List (List α × ℕ) → List (α × ℕ)
  | 0, _ => []
  | count + 1, queues =>
    match popLeast key queues with
    | none => []
    | some (least, others) => least :: mergeHeadsFrom count others

/-- Merge the queues. A queue is named by its index. -/
def mergeHeads (queues : List (List α)) : List (α × ℕ) :=
  mergeHeadsFrom key queues.flatten.length queues.zipIdx

/-- All rows of the queues with their owners. -/
def owned (queues : List (List α × ℕ)) : List (α × ℕ) :=
  queues.flatMap fun queue => queue.1.map fun row => (row, queue.2)

/-- Every queue is sorted by the key. -/
def QueuesSorted (queues : List (List α × ℕ)) : Prop :=
  ∀ queue ∈ queues, queue.1.Pairwise fun left right => key left ≤ key right

variable {key}

/-- What one step takes: a row that is least among all rows, and the queues without it. -/
structure Popped (key : α → κ) (queues : List (List α × ℕ)) (least : α × ℕ) (others : List (List α × ℕ)) : Prop where
  perm : (owned queues).Perm (least :: owned others)
  sorted : QueuesSorted key queues → QueuesSorted key others
  le : QueuesSorted key queues → ∀ row ∈ owned queues, key least.1 ≤ key row.1

omit [LinearOrder κ] in
private theorem owned_cons (queue : List α) (owner : ℕ) (queues : List (List α × ℕ)) :
    owned ((queue, owner) :: queues) = (queue.map fun row => (row, owner)) ++ owned queues := rfl

private theorem popped_head {row : α} {rest : List α} {owner : ℕ} {queues : List (List α × ℕ)}
    (least : QueuesSorted key queues → ∀ other ∈ owned queues, key row ≤ key other.1) :
    Popped key ((row :: rest, owner) :: queues) (row, owner) ((rest, owner) :: queues) where
  perm := by rw [owned_cons, owned_cons, map_cons, cons_append]
  sorted sorted := by
    intro queue member
    rcases mem_cons.mp member with rfl | other
    · exact (pairwise_cons.mp (sorted _ mem_cons_self)).2
    · exact sorted queue (mem_cons_of_mem _ other)
  le sorted := by
    intro other member
    rw [owned_cons, map_cons, cons_append, mem_cons, mem_append] at member
    rcases member with rfl | inRest | inOthers
    · exact le_rfl
    · obtain ⟨later, listed, rfl⟩ := mem_map.mp inRest
      exact (pairwise_cons.mp (sorted _ mem_cons_self)).1 later listed
    · exact least (fun queue listed => sorted queue (mem_cons_of_mem _ listed)) other inOthers

private theorem popped_tail {queue : List α} {owner : ℕ} {queues others : List (List α × ℕ)} {least : α × ℕ}
    (popped : Popped key queues least others)
    (below : queue.Pairwise (fun left right => key left ≤ key right) → ∀ row ∈ queue, key least.1 ≤ key row) :
    Popped key ((queue, owner) :: queues) least ((queue, owner) :: others) where
  perm := by
    rw [owned_cons, owned_cons]
    exact (popped.perm.append_left _).trans perm_middle
  sorted sorted := by
    rw [QueuesSorted, forall_mem_cons] at sorted ⊢
    exact ⟨sorted.1, popped.sorted sorted.2⟩
  le sorted := by
    rw [QueuesSorted, forall_mem_cons] at sorted
    intro row member
    rw [owned_cons, mem_append] at member
    rcases member with inQueue | inQueues
    · obtain ⟨own, listed, rfl⟩ := mem_map.mp inQueue
      exact below sorted.1 own listed
    · exact popped.le sorted.2 row inQueues

/-- A step takes a least row, or there is none left. -/
theorem popLeast_cases (key : α → κ) (queues : List (List α × ℕ)) :
    (popLeast key queues = none ∧ owned queues = []) ∨
      ∃ least others, popLeast key queues = some (least, others) ∧ Popped key queues least others := by
  induction queues with
  | nil => exact Or.inl ⟨rfl, rfl⟩
  | cons queue queues ih =>
    obtain ⟨rows, owner⟩ := queue
    cases rows with
    | nil =>
      rcases ih with ⟨exhausted, empty⟩ | ⟨least, others, found, popped⟩
      · exact Or.inl ⟨by rw [popLeast, exhausted, Option.map_none], empty⟩
      · exact Or.inr ⟨least, _, by rw [popLeast, found, Option.map_some], popped_tail popped (by simp)⟩
    | cons row rest =>
      right
      rcases ih with ⟨exhausted, empty⟩ | ⟨least, others, found, popped⟩
      · exact ⟨_, _, by rw [popLeast, exhausted], popped_head (by simp [empty])⟩
      · by_cases less : key least.1 < key row
        · refine ⟨least, _, by simp only [popLeast, found, if_pos less], popped_tail popped fun sorted other member => ?_⟩
          rcases mem_cons.mp member with rfl | inRest
          · exact less.le
          · exact less.le.trans ((pairwise_cons.mp sorted).1 other inRest)
        · refine ⟨_, _, by simp only [popLeast, found, if_neg less], popped_head fun sorted other member => ?_⟩
          exact (not_lt.mp less).trans (popped.le sorted other member)

/-- With a count that covers all rows, the merge outputs each of them once. -/
theorem mergeHeadsFrom_perm {count : ℕ} {queues : List (List α × ℕ)} (covers : (owned queues).length ≤ count) :
    (mergeHeadsFrom key count queues).Perm (owned queues) := by
  induction count generalizing queues with
  | zero => rw [length_eq_zero_iff.mp (Nat.le_zero.mp covers), mergeHeadsFrom]
  | succ count ih =>
    rw [mergeHeadsFrom]
    rcases popLeast_cases key queues with ⟨exhausted, empty⟩ | ⟨least, others, found, popped⟩
    · rw [exhausted, empty]
    · rw [found]
      have shorter := popped.perm.length_eq
      rw [length_cons] at shorter
      exact ((ih (by omega)).cons least).trans popped.perm.symm

/-- The rows of sorted queues come out in order. -/
theorem mergeHeadsFrom_pairwise {count : ℕ} {queues : List (List α × ℕ)} (covers : (owned queues).length ≤ count)
    (sorted : QueuesSorted key queues) :
    (mergeHeadsFrom key count queues).Pairwise fun left right => key left.1 ≤ key right.1 := by
  induction count generalizing queues with
  | zero => exact Pairwise.nil
  | succ count ih =>
    rw [mergeHeadsFrom]
    rcases popLeast_cases key queues with ⟨exhausted, -⟩ | ⟨least, others, found, popped⟩
    · rw [exhausted]
      exact Pairwise.nil
    · rw [found]
      have shorter := popped.perm.length_eq
      rw [length_cons] at shorter
      refine pairwise_cons.mpr ⟨fun row member => ?_, ih (by omega) (popped.sorted sorted)⟩
      have listed := (mergeHeadsFrom_perm (by omega)).mem_iff.mp member
      exact popped.le sorted row (popped.perm.mem_iff.mpr (mem_cons_of_mem _ listed))

omit [LinearOrder κ] in
private theorem map_fst_owned_zipIdx (queues : List (List α)) (start : ℕ) :
    (owned (queues.zipIdx start)).map Prod.fst = queues.flatten := by
  induction queues generalizing start with
  | nil => rfl
  | cons queue queues ih =>
    rw [zipIdx_cons, owned_cons, map_append, ih, map_map, flatten_cons]
    exact congrArg (· ++ queues.flatten) (map_id queue)

omit [LinearOrder κ] in
private theorem length_owned_zipIdx (queues : List (List α)) : (owned queues.zipIdx).length = queues.flatten.length := by
  rw [← map_fst_owned_zipIdx queues 0, length_map]

/-- A merge outputs every row of every queue once, with the index of its queue. -/
theorem mergeHeads_perm_owned (key : α → κ) (queues : List (List α)) : (mergeHeads key queues).Perm (owned queues.zipIdx) :=
  mergeHeadsFrom_perm (Nat.le_of_eq (length_owned_zipIdx queues))

/-- A merge outputs the rows of all queues. -/
theorem mergeHeads_perm (key : α → κ) (queues : List (List α)) :
    ((mergeHeads key queues).map Prod.fst).Perm queues.flatten := by
  rw [← map_fst_owned_zipIdx queues 0]
  exact (mergeHeads_perm_owned key queues).map Prod.fst

/-- A merge of sorted queues is sorted. -/
theorem mergeHeads_pairwise {queues : List (List α)}
    (sorted : ∀ queue ∈ queues, queue.Pairwise fun left right => key left ≤ key right) :
    (mergeHeads key queues).Pairwise fun left right => key left.1 ≤ key right.1 := by
  refine mergeHeadsFrom_pairwise (Nat.le_of_eq (length_owned_zipIdx queues)) ?_
  rintro ⟨queue, owner⟩ member
  exact sorted queue (fst_mem_of_mem_zipIdx member)

/-- Queues without repetitions repeat an element together exactly when two of them have it. -/
theorem two_le_count_flatten_iff {β : Type*} [DecidableEq β] {queues : List (List β)} (distinct : ∀ queue ∈ queues, queue.Nodup) {element : β} :
    2 ≤ queues.flatten.count element ↔
      ∃ first second : ℕ, first < second ∧ (∃ queue ∈ queues[first]?, element ∈ queue) ∧ ∃ queue ∈ queues[second]?, element ∈ queue := by
  induction queues with
  | nil => simp
  | cons queue queues ih =>
    rw [forall_mem_cons] at distinct
    have once := nodup_iff_count_le_one.mp distinct.1 element
    rw [flatten_cons, count_append]
    constructor
    · intro twice
      by_cases here : element ∈ queue
      · have later : element ∈ queues.flatten := count_pos_iff.mp (by omega)
        obtain ⟨other, member, inside⟩ := mem_flatten.mp later
        obtain ⟨index, isIndex⟩ := getElem?_of_mem member
        exact ⟨0, index + 1, Nat.succ_pos index, ⟨queue, rfl, here⟩, other, isIndex, inside⟩
      · rw [count_eq_zero_of_not_mem here, Nat.zero_add] at twice
        obtain ⟨first, second, before, inFirst, inSecond⟩ := (ih distinct.2).mp twice
        exact ⟨first + 1, second + 1, Nat.succ_lt_succ before, inFirst, inSecond⟩
    · rintro ⟨first, second, before, ⟨left, isLeft, inLeft⟩, right, isRight, inRight⟩
      obtain ⟨later, rfl⟩ := Nat.exists_eq_succ_of_ne_zero (Nat.ne_of_gt (Nat.lt_of_le_of_lt (Nat.zero_le first) before))
      have inTail : queues[later]? = some right := isRight
      cases first with
      | zero =>
        obtain rfl : queue = left := Option.some.inj isLeft
        have here := count_pos_iff.mpr inLeft
        have there := count_pos_iff.mpr (mem_flatten.mpr ⟨right, mem_of_getElem? inTail, inRight⟩)
        omega
      | succ first =>
        have twice := (ih distinct.2).mpr ⟨first, later, Nat.lt_of_succ_lt_succ before, ⟨left, isLeft, inLeft⟩, right, inTail, inRight⟩
        omega

end List
