import Gat.Model.DesiredRows
import Gat.Proofs.DesiredQuery

/-! # Cursors hand out every retrieved row in order

Each stream keeps its remaining rows in path order above its lower bound, so the cheaper of two bounds belongs to
the smaller next row. A cursor is described by the list of rows that it still hands out.
-/

namespace Gat

variable {store : StoredRows}

/-! ## Ordered streams -/

/-- What is read from a range is past its frontier, and later ranges start later. -/
structure RangeStream.Ordered (store : StoredRows) (stream : RangeStream) : Prop where
  ascending : HalfOpen.Ascending stream.ranges
  started : ∀ range ∈ stream.ranges.head?, ∀ after ∈ stream.frontier, range.lower ≤ after.text
  sorted : StrictlySorted (stream.remaining store)

structure ExactStream.Ordered (store : StoredRows) (stream : ExactStream) : Prop where
  ascending : stream.paths.Pairwise (· < ·)
  sorted : StrictlySorted (stream.remaining store)

namespace RangeStream

variable {stream next : RangeStream} {row : Entry}

/-- Rows of a chunk are at or above the lower bound of its range. -/
private theorem lower_le_of_inChunk {range : LexicalRange} {frontier : Option GatPath} (started : ∀ after ∈ frontier, range.lower ≤ after.text)
    (inside : StoredRows.inChunk range frontier row = true) : range.lower ≤ row.path.text := by
  have past := (Bool.and_eq_true_iff.mp inside).1
  cases frontier with
  | none => exact of_decide_eq_true past
  | some after => exact (started after rfl).trans (le_of_lt (of_decide_eq_true past : after < row.path))

theorem lower_le_unread {ranges : List LexicalRange} {frontier : Option GatPath} {range : LexicalRange}
    (ascending : HalfOpen.Ascending (range :: ranges)) (started : ∀ after ∈ frontier, range.lower ≤ after.text)
    (member : row ∈ unread store (range :: ranges) frontier) : range.lower ≤ row.path.text := by
  rcases List.mem_append.mp member with here | later
  · exact lower_le_of_inChunk started (List.mem_filter.mp here).2
  · obtain ⟨other, isOther, inside⟩ := List.mem_flatMap.mp later
    exact ((List.pairwise_cons.mp ascending).1 other isOther).trans
      (lower_le_of_inChunk (by simp) (List.mem_filter.mp inside).2)

/-- The lower bound of a stream is below its remaining rows. -/
theorem Ordered.lowerBound_le (ordered : stream.Ordered store) {bound : Str} (isBound : stream.lowerBound = some bound)
    (member : row ∈ stream.remaining store) : bound ≤ row.path.text := by
  have sorted := ordered.sorted
  have head_le {first : Entry} {rest : List Entry} (whole : stream.remaining store = first :: rest) : first.path.text ≤ row.path.text := by
    rw [whole] at member sorted
    rcases List.mem_cons.mp member with rfl | later
    · exact le_refl _
    · exact le_of_lt ((List.pairwise_cons.mp sorted).1 row later)
  unfold lowerBound at isBound
  split at isBound
  · next first peeked =>
    obtain rfl := Option.some.inj isBound
    exact head_le (remaining_of_peeked store peeked)
  · next first buffer peeked buffered =>
    obtain rfl := Option.some.inj isBound
    refine head_le (?_ : _ = first :: (buffer ++ unread store stream.ranges stream.frontier))
    rw [remaining, peeked, buffered]
    rfl
  · next range ranges peeked buffered isRange =>
    obtain rfl := Option.some.inj isBound
    have started := ordered.started range (by rw [isRange]; rfl)
    rw [remaining, peeked, buffered, isRange, Option.toList_none, List.nil_append, List.nil_append] at member
    exact lower_le_unread (isRange ▸ ordered.ascending) started member
  · cases isBound

variable (store) in
private theorem started_fetch {ranges : List LexicalRange} {frontier : Option GatPath} (ascending : HalfOpen.Ascending ranges)
    (started : ∀ range ∈ ranges.head?, ∀ after ∈ frontier, range.lower ≤ after.text) :
    HalfOpen.Ascending (fetch store ranges frontier).ranges ∧
      ∀ range ∈ (fetch store ranges frontier).ranges.head?, ∀ after ∈ (fetch store ranges frontier).frontier, range.lower ≤ after.text := by
  induction ranges generalizing frontier with
  | nil => exact ⟨ascending, by simp [fetch]⟩
  | cons range ranges ih =>
    rw [fetch]
    split
    · exact ih ascending.of_cons (by simp)
    · next row rows page =>
      refine ⟨ascending, fun first isFirst after isAfter => ?_⟩
      obtain rfl := Option.some.inj isFirst
      obtain rfl := Option.some.inj isAfter
      have isLast : (row :: rows).getLast (List.cons_ne_nil row rows) ∈ store.rangeChunk range frontier := by
        rw [page]
        exact List.getLast_mem _
      exact lower_le_of_inChunk (started range rfl) (List.mem_filter.mp (List.mem_of_mem_take isLast)).2

theorem Ordered.advance (ordered : stream.Ordered store) : (stream.advance store).Ordered store := by
  have sorted : StrictlySorted ((stream.advance store).remaining store) := by
    rw [remaining_advance]
    exact ordered.sorted
  unfold RangeStream.advance at sorted ⊢
  split at sorted
  · exact ⟨ordered.ascending, ordered.started, sorted⟩
  · exact ⟨ordered.ascending, ordered.started, sorted⟩
  · have kept := started_fetch store ordered.ascending ordered.started
    exact ⟨kept.1, kept.2, sorted⟩

theorem Ordered.advances (ordered : stream.Ordered store) (advances : Advances store stream next) : next.Ordered store := by
  induction advances with
  | refl => exact ordered
  | tail _ step ih => exact step ▸ ih.advance

theorem Ordered.takePeeked (ordered : stream.Ordered store) (peeked : stream.peeked = some row) : stream.takePeeked.Ordered store :=
  ⟨ordered.ascending, ordered.started, (remaining_of_peeked store peeked ▸ ordered.sorted).of_cons⟩

end RangeStream

namespace ExactStream

variable {stream next : ExactStream} {row : Entry}

theorem mem_unread {paths : List Str} : row ∈ unread store paths ↔ row ∈ store.rows ∧ row.path.text ∈ paths := by
  fun_induction unread store paths with
  | case1 => simp
  | case2 path paths size ih =>
    rw [List.mem_append, ih, StoredRows.exactChunk, List.mem_filter, decide_eq_true_eq, ← and_or_left, ← List.mem_append,
      List.take_append_drop]

theorem strictlySorted_unread {paths : List Str} (ascending : paths.Pairwise (· < ·)) : StrictlySorted (unread store paths) := by
  fun_induction unread store paths with
  | case1 => exact List.Pairwise.nil
  | case2 path paths size ih =>
    have parts := ascending
    rw [← List.take_append_drop size (path :: paths), List.pairwise_append] at parts
    refine List.pairwise_append.mpr ⟨store.sorted.filter _, ih parts.2.1, fun first isFirst second isSecond => ?_⟩
    exact parts.2.2 first.path.text (of_decide_eq_true (List.mem_filter.mp isFirst).2) second.path.text (mem_unread.mp isSecond).2

theorem Ordered.lowerBound_le (ordered : stream.Ordered store) {bound : Str} (isBound : stream.lowerBound = some bound)
    (member : row ∈ stream.remaining store) : bound ≤ row.path.text := by
  have sorted := ordered.sorted
  have head_le {first : Entry} {rest : List Entry} (whole : stream.remaining store = first :: rest) : first.path.text ≤ row.path.text := by
    rw [whole] at member sorted
    rcases List.mem_cons.mp member with rfl | later
    · exact le_refl _
    · exact le_of_lt ((List.pairwise_cons.mp sorted).1 row later)
  unfold lowerBound at isBound
  split at isBound
  · next first peeked =>
    obtain rfl := Option.some.inj isBound
    exact head_le (remaining_of_peeked store peeked)
  · next first buffer peeked buffered =>
    obtain rfl := Option.some.inj isBound
    refine head_le (?_ : _ = first :: (buffer ++ unread store stream.paths))
    rw [remaining, peeked, buffered]
    rfl
  · next path paths peeked buffered isPath =>
    obtain rfl := Option.some.inj isBound
    rw [remaining, peeked, buffered, isPath, Option.toList_none, List.nil_append, List.nil_append] at member
    have ascending := isPath ▸ ordered.ascending
    rcases List.mem_cons.mp (mem_unread.mp member).2 with same | later
    · exact same.ge
    · exact le_of_lt ((List.pairwise_cons.mp ascending).1 _ later)
  · cases isBound

private theorem ascending_fetch {paths : List Str} (ascending : paths.Pairwise (· < ·)) : (fetch store paths).paths.Pairwise (· < ·) := by
  fun_induction fetch store paths with
  | case1 => exact List.Pairwise.nil
  | case2 path paths size empty ih => exact ih (ascending.sublist (List.drop_sublist _ _))
  | case3 path paths size row rows found => exact ascending.sublist (List.drop_sublist _ _)

theorem Ordered.advance (ordered : stream.Ordered store) : (stream.advance store).Ordered store := by
  have sorted : StrictlySorted ((stream.advance store).remaining store) := by
    rw [remaining_advance]
    exact ordered.sorted
  unfold ExactStream.advance at sorted ⊢
  split at sorted
  · exact ⟨ordered.ascending, sorted⟩
  · exact ⟨ordered.ascending, sorted⟩
  · exact ⟨ascending_fetch ordered.ascending, sorted⟩

theorem Ordered.advances (ordered : stream.Ordered store) (advances : Advances store stream next) : next.Ordered store := by
  induction advances with
  | refl => exact ordered
  | tail _ step ih => exact step ▸ ih.advance

theorem Ordered.takePeeked (ordered : stream.Ordered store) (peeked : stream.peeked = some row) : stream.takePeeked.Ordered store :=
  ⟨ordered.ascending, (remaining_of_peeked store peeked ▸ ordered.sorted).of_cons⟩

variable (store) in
/-- A stream over looked-up paths starts with exactly their rows. -/
theorem ordered_paths {paths : List Str} (ascending : paths.Pairwise (· < ·)) : (ExactStream.mk paths [] none).Ordered store :=
  ⟨ascending, strictlySorted_unread ascending⟩

end ExactStream

/-! ## The rows that a source still hands out -/

/-- The cursor hands out exactly these rows, one after another. -/
structure UnionCursor.Streams (store : StoredRows) (cursor : UnionCursor) (rows : List Entry) : Prop where
  sorted : StrictlySorted rows
  ranges : cursor.ranges.Ordered store
  exact : cursor.exact.Ordered store
  mem_iff : ∀ row, row ∈ rows ↔ row ∈ cursor.ranges.remaining store ∨ row ∈ cursor.exact.remaining store
  apart : ∀ row ∈ cursor.ranges.remaining store, ∀ other ∈ cursor.exact.remaining store, row.path ≠ other.path

/-- Of two lists of rows the one with the least front row gives the first row of their union. -/
private theorem union_eq_cons {rows left right : List Entry} {row : Entry} (sorted : StrictlySorted rows) (leftSorted : StrictlySorted (row :: left))
    (mem_iff : ∀ other, other ∈ rows ↔ other ∈ row :: left ∨ other ∈ right) (least : ∀ other ∈ right, row.path < other.path) :
    ∃ rest, rows = row :: rest ∧ ∀ other, other ∈ rest ↔ other ∈ left ∨ other ∈ right := by
  have first_lt : ∀ other, other ∈ left ∨ other ∈ right → row.path < other.path := by
    rintro other (inLeft | inRight)
    · exact (List.pairwise_cons.mp leftSorted).1 other inLeft
    · exact least other inRight
  cases rows with
  | nil => cases (mem_iff row).mpr (Or.inl List.mem_cons_self)
  | cons first rest =>
    obtain ⟨smallest, restSorted⟩ := List.pairwise_cons.mp sorted
    have inFront : first = row := by
      rcases List.mem_cons.mp ((mem_iff row).mpr (Or.inl List.mem_cons_self)) with same | later
      · exact same.symm
      · have below := smallest row later
        rcases (mem_iff first).mp List.mem_cons_self with inLeft | inRight
        · rcases List.mem_cons.mp inLeft with same | inLeft
          · exact same
          · exact absurd (first_lt first (Or.inl inLeft)) below.asymm
        · exact absurd (first_lt first (Or.inr inRight)) below.asymm
    subst inFront
    refine ⟨rest, rfl, fun other => ⟨fun member => ?_, fun member => ?_⟩⟩
    · rcases (mem_iff other).mp (List.mem_cons_of_mem _ member) with inLeft | inRight
      · rcases List.mem_cons.mp inLeft with rfl | inLeft
        · exact absurd (smallest other member) (lt_irrefl _)
        · exact Or.inl inLeft
      · exact Or.inr inRight
    · have inRows : other ∈ first :: rest := (mem_iff other).mpr (member.imp_left (List.mem_cons_of_mem _))
      rcases List.mem_cons.mp inRows with rfl | later
      · exact absurd (first_lt other member) (lt_irrefl _)
      · exact later

namespace UnionCursor.Streams

variable {cursor : UnionCursor} {rows : List Entry}

/-- The front row of the ranges comes first when it is at most the bound of the exact paths. -/
private theorem fromRanges {row : Entry} {ranges : RangeStream} {exact : ExactStream} (streams : cursor.Streams store rows)
    (peeked : ranges.peeked = some row) (fromHere : RangeStream.Advances store cursor.ranges ranges)
    (other : ExactStream.Advances store cursor.exact exact) (least : ∀ bound ∈ exact.lowerBound, row.path.text ≤ bound) :
    ∃ rest, rows = row :: rest ∧ Streams store ⟨ranges.takePeeked, exact⟩ rest := by
  have whole := RangeStream.remaining_of_peeked store peeked
  have orderedRanges := streams.ranges.advances fromHere
  have orderedExact := streams.exact.advances other
  have mem_iff := streams.mem_iff
  have apart := streams.apart
  rw [← fromHere.remaining, ← other.remaining, whole] at mem_iff apart
  have below : ∀ entry ∈ exact.remaining store, row.path < entry.path := by
    intro entry member
    cases bound : exact.lowerBound with
    | none => simp [ExactStream.remaining_of_lowerBound store bound] at member
    | some text =>
      have atMost : row.path ≤ entry.path := (least text bound).trans (orderedExact.lowerBound_le bound member)
      exact atMost.lt_of_ne (apart row List.mem_cons_self entry member)
  obtain ⟨rest, rfl, rest_iff⟩ := union_eq_cons streams.sorted (whole ▸ orderedRanges.sorted) mem_iff below
  exact ⟨rest, rfl, streams.sorted.of_cons, orderedRanges.takePeeked peeked, orderedExact, rest_iff,
    fun entry member => apart entry (List.mem_cons_of_mem _ member)⟩

private theorem fromExact {row : Entry} {ranges : RangeStream} {exact : ExactStream} (streams : cursor.Streams store rows)
    (peeked : exact.peeked = some row) (other : RangeStream.Advances store cursor.ranges ranges)
    (fromHere : ExactStream.Advances store cursor.exact exact) (least : ∀ bound ∈ ranges.lowerBound, row.path.text ≤ bound) :
    ∃ rest, rows = row :: rest ∧ Streams store ⟨ranges, exact.takePeeked⟩ rest := by
  have whole := ExactStream.remaining_of_peeked store peeked
  have orderedRanges := streams.ranges.advances other
  have orderedExact := streams.exact.advances fromHere
  have mem_iff := streams.mem_iff
  have apart := streams.apart
  rw [← fromHere.remaining, ← other.remaining, whole] at mem_iff apart
  have below : ∀ entry ∈ ranges.remaining store, row.path < entry.path := by
    intro entry member
    cases bound : ranges.lowerBound with
    | none => simp [RangeStream.remaining_of_lowerBound store bound] at member
    | some text =>
      have atMost : row.path ≤ entry.path := (least text bound).trans (orderedRanges.lowerBound_le bound member)
      exact atMost.lt_of_ne (apart entry member row List.mem_cons_self).symm
  obtain ⟨rest, rfl, rest_iff⟩ := union_eq_cons streams.sorted (whole ▸ orderedExact.sorted) (fun entry => (mem_iff entry).trans or_comm) below
  exact ⟨rest, rfl, streams.sorted.of_cons, orderedRanges, orderedExact.takePeeked peeked, fun entry => (rest_iff entry).trans or_comm,
    fun entry member later isLater => apart entry member later (List.mem_cons_of_mem _ isLater)⟩

/-- One call hands out the first row and leaves the others. -/
theorem nextRow (streams : cursor.Streams store rows) :
    (rows = [] ∧ (cursor.nextRow store).1 = none) ∨
      ∃ row rest next, rows = row :: rest ∧ cursor.nextRow store = (some row, next) ∧ next.Streams store rest := by
  have hands := cursor.hands_nextRow store
  generalize cursor.nextRow store = result at hands
  cases hands with
  | finished next noRange noExact =>
    refine Or.inl ⟨List.eq_nil_iff_forall_not_mem.mpr fun row member => ?_, rfl⟩
    simpa [noRange, noExact] using (streams.mem_iff row).mp member
  | fromRanges row ranges exact peeked fromHere other least =>
    obtain ⟨rest, same, streams⟩ := streams.fromRanges peeked fromHere other least
    exact Or.inr ⟨row, rest, _, same, rfl, streams⟩
  | fromExact row ranges exact peeked other fromHere least =>
    obtain ⟨rest, same, streams⟩ := streams.fromExact peeked other fromHere least
    exact Or.inr ⟨row, rest, _, same, rfl, streams⟩

end UnionCursor.Streams

/-- The source hands out exactly these rows. -/
def RowSource.Streams (store : StoredRows) (rows : List Entry) : RowSource → Prop
  | .range left => left = rows
  | .exact cursor => cursor.remaining store = rows
  | .union cursor => cursor.Streams store rows

theorem RowSource.Streams.nextRow {source : RowSource} {rows : List Entry} (streams : source.Streams store rows) :
    (rows = [] ∧ (source.nextRow store).1 = none) ∨
      ∃ row rest next, rows = row :: rest ∧ source.nextRow store = (some row, next) ∧ next.Streams store rest := by
  match source with
  | .range [] => exact Or.inl ⟨streams.symm, rfl⟩
  | .range (row :: rest) => exact Or.inr ⟨row, rest, _, streams.symm, rfl, rfl⟩
  | .exact cursor =>
    have advanced : (cursor.advance store).remaining store = rows := (cursor.remaining_advance store).trans streams
    cases peeked : (cursor.advance store).peeked with
    | none =>
      refine Or.inl ⟨?_, peeked⟩
      rw [← advanced]
      exact ExactStream.remaining_of_lowerBound store (ExactStream.lowerBound_advance store peeked)
    | some row =>
      have whole := ExactStream.remaining_of_peeked store peeked
      refine Or.inr ⟨row, _, .exact (cursor.advance store).takePeeked, advanced.symm.trans whole, ?_, rfl⟩
      rw [RowSource.nextRow, peeked]
  | .union cursor =>
    rcases UnionCursor.Streams.nextRow streams with ⟨empty, finished⟩ | ⟨row, rest, next, whole, handed, streams⟩
    · exact Or.inl ⟨empty, finished⟩
    · exact Or.inr ⟨row, rest, .union next, whole, by rw [RowSource.nextRow, handed], streams⟩

/-! ## Selected rows -/

namespace DesiredRows

variable {cursor rest : DesiredRows} {source : RowSource} {row : Entry}

theorem next_of_finished (finished : (cursor.source.nextRow store).1 = none) : (cursor.next store).1 = none := by
  rw [next]
  split
  · rfl
  · next handed => cases handed ▸ finished

theorem next_of_handed (handed : cursor.source.nextRow store = (some row, source)) :
    cursor.next store = if cursor.selects row then (some row, { cursor with source }) else next store { cursor with source } := by
  rw [next]
  split
  · next nothing => cases nothing.symm.trans handed
  · next same =>
    obtain ⟨rfl, rfl⟩ := Prod.mk.inj (same.symm.trans handed) |>.imp Option.some.inj id
    rfl

theorem collect_of_finished (finished : (cursor.next store).1 = none) : cursor.collect store = [] := by
  rw [collect]
  split
  · rfl
  · next found => cases found ▸ finished

theorem collect_of_next (found : cursor.next store = (some row, rest)) : cursor.collect store = row :: rest.collect store := by
  rw [collect]
  split
  · next nothing => cases nothing.symm.trans found
  · next same =>
    obtain ⟨rfl, rfl⟩ := Prod.mk.inj (same.symm.trans found) |>.imp Option.some.inj id
    rfl

/-- Reading on depends only on the next row and on what follows it. -/
theorem collect_congr {other : DesiredRows} (same : cursor.next store = other.next store) : cursor.collect store = other.collect store := by
  cases found : other.next store with
  | mk first rest =>
    cases first with
    | none => rw [collect_of_finished (by rw [same, found]), collect_of_finished (by rw [found])]
    | some row => rw [collect_of_next (same.trans found), collect_of_next found]

/-- Reading a cursor to its end gives the rows of its source that the selection accepts. -/
theorem collect_eq {rows : List Entry} (streams : cursor.source.Streams store rows) : cursor.collect store = rows.filter cursor.selects := by
  induction rows generalizing cursor with
  | nil =>
    rcases streams.nextRow with ⟨-, finished⟩ | ⟨_, _, _, absurd, -⟩
    · exact collect_of_finished (next_of_finished finished)
    · cases absurd
  | cons row rows ih =>
    rcases streams.nextRow with ⟨absurd, -⟩ | ⟨_, _, source, same, handed, streams⟩
    · cases absurd
    obtain ⟨rfl, rfl⟩ := List.cons.inj same
    have next := next_of_handed handed
    have rest : collect store { cursor with source } = rows.filter cursor.selects := ih streams
    rw [List.filter_cons]
    split_ifs at next ⊢ with selected
    · rw [collect_of_next next, rest]
    · rw [collect_congr next, rest]

end DesiredRows

/-! ## Opening a query -/

variable (store) in
/-- The ranges of a plan with gaps between them are read in path order. -/
theorem RangeStream.ordered_ranges {ranges : List LexicalRange} (ascending : HalfOpen.Ascending ranges) (apart : HalfOpen.Apart ranges) :
    (RangeStream.mk ranges none [] none).Ordered store ∧
      ∀ row, row ∈ (RangeStream.mk ranges none [] none).remaining store ↔ row ∈ store.rows ∧ HalfOpen.Covers ranges row.path.text := by
  have whole : (RangeStream.mk ranges none [] none).remaining store =
      ranges.flatMap fun range => store.rows.filter (StoredRows.inChunk range none) := by
    cases ranges <;> rfl
  have mem_chunk {range : LexicalRange} {row : Entry} :
      row ∈ store.rows.filter (StoredRows.inChunk range none) ↔ row ∈ store.rows ∧ row.path.text ∈ range := by
    simp [StoredRows.inChunk, HalfOpen.mem_iff]
  refine ⟨⟨ascending, by simp, ?_⟩, fun row => ?_⟩
  · rw [whole]
    refine List.pairwise_flatMap.mpr ⟨fun range _ => store.sorted.filter _, apart.imp fun gap row isRow other isOther => ?_⟩
    have below := (mem_chunk.mp isRow).2.2.trans gap
    exact (WithTop.coe_lt_coe.mp below).trans_le (mem_chunk.mp isOther).2.1
  · rw [whole, List.mem_flatMap]
    simp only [mem_chunk, HalfOpen.Covers]
    tauto

/-- The cursor of a well-formed span hands out what the span retrieves. -/
theorem DesiredQuery.streams_openRows {query : DesiredQuery} (wellFormed : query.span.WellFormed) {rows : List Entry}
    (sorted : StrictlySorted rows) (mem_iff : ∀ row, row ∈ rows ↔ row ∈ store.rows ∧ query.span.Retrieves row.path) :
    (query.openRows store).source.Streams store rows := by
  have same {others : List Entry} (othersSorted : StrictlySorted others)
      (others_iff : ∀ row, row ∈ others ↔ row ∈ store.rows ∧ query.span.Retrieves row.path) : others = rows :=
    List.eq_of_key_lt Entry.path othersSorted sorted fun row => (others_iff row).trans (mem_iff row).symm
  obtain ⟨span, shardId, residual⟩ := query
  cases span with
  | all => exact same store.sorted fun row => by simp [DesiredSpan.Retrieves]
  | empty =>
    refine same (ExactStream.ordered_paths store List.Pairwise.nil).sorted fun row => ?_
    simp [ExactStream.remaining, ExactStream.unread, DesiredSpan.Retrieves]
  | scope scope => exact same (store.sorted.filter _) fun row => by simp [DesiredSpan.Retrieves, inScope_iff]
  | exact paths =>
    have ascending := (Finset.sortedLT_sort (paths.map GatPath.text).toFinset).pairwise
    refine same (ExactStream.ordered_paths store ascending).sorted fun row => ?_
    change row ∈ ExactStream.unread store _ ↔ _
    rw [ExactStream.mem_unread]
    simp [DesiredSpan.Retrieves, GatPath.text_injective.eq_iff]
  | union plan =>
    obtain ⟨orderedRanges, inRanges⟩ := RangeStream.ordered_ranges store wellFormed.ascending wellFormed.apart
    have orderedExact := ExactStream.ordered_paths store wellFormed.sorted
    have inExact (row : Entry) : row ∈ (ExactStream.mk plan.exact [] none).remaining store ↔ row ∈ store.rows ∧ row.path.text ∈ plan.exact :=
      ExactStream.mem_unread
    refine ⟨sorted, orderedRanges, orderedExact, fun row => ?_, fun row isRow other isOther meet => ?_⟩
    · rw [mem_iff, inRanges, inExact, ← and_or_left]
      rfl
    · exact wellFormed.outside _ ((inExact other).mp isOther).2 (meet ▸ ((inRanges row).mp isRow).2)

end Gat
