import Gat.Model.DesiredQuery
import Gat.Proofs.StateStore
import Mathlib.Logic.Relation

/-! # Streaming desired rows

Every statement returns a bounded page of the stored rows in path order. A union plan reads its ranges and its exact
paths as two streams of pages, and hands out the smaller row of both. A stream that cannot hold the next row is not
read: each offers a lower bound for its next row without running a statement.
-/

namespace Gat

/-- The stored desired rows in path order. -/
structure StoredRows where
  rows : List Entry
  sorted : StrictlySorted rows

/-- The rows of a table, restricted to one shard if one is given. -/
def StateTable.storedRows (table : StateTable) (shardId : Option LockShardId) : StoredRows :=
  match shardId with
  | none => ⟨table.desiredRows, table.strictlySorted_desiredRows⟩
  | some shard => ⟨table.shardRows shard, table.strictlySorted_shardRows shard⟩

/-- Page size of a range stream. -/
def RANGE_STREAM_PAGE_ROWS : ℕ := 512

namespace StoredRows

variable (store : StoredRows)

/-- The predicate of one fetch from a range: past the frontier, or from the lower bound on. -/
def inChunk (range : LexicalRange) (frontier : Option GatPath) (row : Entry) : Bool :=
  frontier.elim (range.lower ≤ row.path.text) (· < row.path) && (row.path.text : WithTop Str) < range.upper

def rangeChunk (range : LexicalRange) (frontier : Option GatPath) : List Entry :=
  (store.rows.filter (inChunk range frontier)).take RANGE_STREAM_PAGE_ROWS

def exactChunk (chunk : List Str) : List Entry := store.rows.filter fun row => row.path.text ∈ chunk

end StoredRows

/-! ## The two streams -/

/-- The ranges from the current one on, and the last row read from it. -/
structure RangeStream where
  ranges : List LexicalRange
  frontier : Option GatPath := none
  buffer : List Entry := []
  peeked : Option Entry := none

/-- The paths that have not been looked up. -/
structure ExactStream where
  paths : List Str
  buffer : List Entry := []
  peeked : Option Entry := none

namespace RangeStream

variable (store : StoredRows)

/-- Read a page of the current range; an empty page moves on to the next range. -/
def fetch : List LexicalRange → Option GatPath → RangeStream
  | [], frontier => { ranges := [], frontier }
  | range :: ranges, frontier =>
    match store.rangeChunk range frontier with
    | [] => fetch ranges none
    | row :: rows =>
      { ranges := range :: ranges
        frontier := some ((row :: rows).getLast (List.cons_ne_nil row rows)).path
        buffer := rows
        peeked := some row }

/-- Make sure that the next row is peeked. -/
def advance (stream : RangeStream) : RangeStream :=
  match stream.peeked, stream.buffer with
  | some _, _ => stream
  | none, row :: buffer => { stream with buffer, peeked := some row }
  | none, [] => fetch store stream.ranges stream.frontier

/-- A lower bound for the next row that needs no statement. -/
def lowerBound (stream : RangeStream) : Option Str :=
  match stream.peeked, stream.buffer, stream.ranges with
  | some row, _, _ => some row.path.text
  | none, row :: _, _ => some row.path.text
  | none, [], range :: _ => some range.lower
  | none, [], [] => none

def takePeeked (stream : RangeStream) : RangeStream := { stream with peeked := none }

end RangeStream

namespace ExactStream

variable (store : StoredRows)

/-- Look up chunks of paths until one finds a row. -/
def fetch : List Str → ExactStream
  | [] => { paths := [] }
  | path :: paths =>
    let size := sqlChunkSize 1 (by decide)
    match store.exactChunk ((path :: paths).take size) with
    | [] => fetch ((path :: paths).drop size)
    | row :: rows => { paths := (path :: paths).drop size, buffer := rows, peeked := some row }
termination_by paths => paths.length
decreasing_by simp only [List.length_drop, List.length_cons]; have := (sqlChunkSize 1 (by decide)).pos; omega

def advance (stream : ExactStream) : ExactStream :=
  match stream.peeked, stream.buffer with
  | some _, _ => stream
  | none, row :: buffer => { stream with buffer, peeked := some row }
  | none, [] => fetch store stream.paths

def lowerBound (stream : ExactStream) : Option Str :=
  match stream.peeked, stream.buffer, stream.paths with
  | some row, _, _ => some row.path.text
  | none, row :: _, _ => some row.path.text
  | none, [], path :: _ => some path
  | none, [], [] => none

def takePeeked (stream : ExactStream) : ExactStream := { stream with peeked := none }

end ExactStream

/-! ## What is still to come -/

namespace RangeStream

variable (store : StoredRows) {stream : RangeStream}

/-- The rows of the current range past the frontier and of the later ranges. -/
def unread (ranges : List LexicalRange) (frontier : Option GatPath) : List Entry :=
  match ranges with
  | [] => []
  | range :: ranges =>
    store.rows.filter (StoredRows.inChunk range frontier) ++ ranges.flatMap fun range => store.rows.filter (StoredRows.inChunk range none)

def remaining (stream : RangeStream) : List Entry :=
  stream.peeked.toList ++ stream.buffer ++ unread store stream.ranges stream.frontier

/-- Past its last row, a chunk continues with the rows that the page has left out. -/
theorem filter_inChunk_last {range : LexicalRange} {frontier : Option GatPath} {row : Entry} {rows : List Entry}
    (page : store.rangeChunk range frontier = row :: rows) :
    row :: rows ++ store.rows.filter (StoredRows.inChunk range (some ((row :: rows).getLast (List.cons_ne_nil row rows)).path)) =
      store.rows.filter (StoredRows.inChunk range frontier) := by
  set last := (row :: rows).getLast (List.cons_ne_nil row rows)
  have inside : last ∈ store.rows.filter (StoredRows.inChunk range frontier) := by
    have isLast : last ∈ store.rangeChunk range frontier := page ▸ List.getLast_mem _
    exact List.mem_of_mem_take isLast
  have lastHolds := (List.mem_filter.mp inside).2
  have whole := List.page_append_filter_last Entry.path (store.sorted.filter _) page (List.cons_ne_nil row rows)
  rw [List.filter_filter] at whole
  rw [← whole]
  refine congrArg _ (List.filter_congr fun other _ => ?_)
  -- the frontier is past the bound that the chunk started from
  simp only [StoredRows.inChunk, Option.elim_some, Bool.and_eq_true, decide_eq_true_eq] at lastHolds ⊢
  rw [Bool.eq_iff_iff]
  simp only [Bool.and_eq_true, decide_eq_true_eq]
  refine ⟨fun both => ⟨both.1, ?_, both.2⟩, fun both => ⟨both.1, both.2.2⟩⟩
  cases frontier with
  | none => exact decide_eq_true ((of_decide_eq_true lastHolds.1).trans (show last.path.text ≤ other.path.text from both.1.le))
  | some after => exact decide_eq_true ((of_decide_eq_true lastHolds.1).trans both.1)

theorem remaining_fetch (ranges : List LexicalRange) (frontier : Option GatPath) :
    (fetch store ranges frontier).remaining store = unread store ranges frontier := by
  induction ranges generalizing frontier with
  | nil => rfl
  | cons range ranges ih =>
    rw [fetch]
    split
    · next page =>
      have empty : store.rows.filter (StoredRows.inChunk range frontier) = [] := by
        rcases List.take_eq_nil_iff.mp page with zero | empty
        · cases zero
        · exact empty
      rw [ih, unread, empty, List.nil_append]
      cases ranges <;> rfl
    · next row rows page =>
      rw [unread, ← filter_inChunk_last store page]
      simp [remaining, unread]

theorem remaining_advance (stream : RangeStream) : (stream.advance store).remaining store = stream.remaining store := by
  unfold advance
  split
  · rfl
  · next peeked buffer => simp [remaining, peeked, buffer]
  · next peeked buffer => rw [remaining_fetch]; simp [remaining, peeked, buffer]

/-- Advancing a stream any number of times. -/
def Advances (store : StoredRows) : RangeStream → RangeStream → Prop := Relation.ReflTransGen fun stream next => next = stream.advance store

theorem Advances.remaining {stream next : RangeStream} (advances : Advances store stream next) :
    next.remaining store = stream.remaining store := by
  induction advances with
  | refl => rfl
  | tail _ step ih => rw [step, remaining_advance, ih]

/-- An advanced stream has peeked its next row or has none. -/
theorem lowerBound_fetch {ranges : List LexicalRange} {frontier : Option GatPath} (drained : (fetch store ranges frontier).peeked = none) :
    (fetch store ranges frontier).lowerBound = none := by
  induction ranges generalizing frontier with
  | nil => rfl
  | cons range ranges ih =>
    rw [fetch] at drained ⊢
    split at drained
    · next page => simpa only [page] using ih drained
    · cases drained

theorem lowerBound_advance {stream : RangeStream} (drained : (stream.advance store).peeked = none) :
    (stream.advance store).lowerBound = none := by
  unfold advance at drained ⊢
  split at drained
  · next peeked => cases peeked.symm.trans drained
  · cases drained
  · next peeked buffer => simpa only [peeked, buffer] using lowerBound_fetch store drained

theorem remaining_of_lowerBound {stream : RangeStream} (drained : stream.lowerBound = none) : stream.remaining store = [] := by
  unfold lowerBound at drained
  split at drained
  · cases drained
  · cases drained
  · cases drained
  · next peeked buffer ranges => simp [remaining, peeked, buffer, ranges, unread]

theorem remaining_of_peeked {stream : RangeStream} {row : Entry} (peeked : stream.peeked = some row) :
    stream.remaining store = row :: stream.takePeeked.remaining store := by
  simp [remaining, takePeeked, peeked]

end RangeStream

namespace ExactStream

variable (store : StoredRows)

/-- The rows of the paths that have not been looked up. -/
def unread : List Str → List Entry
  | [] => []
  | path :: paths =>
    let size := sqlChunkSize 1 (by decide)
    store.exactChunk ((path :: paths).take size) ++ unread ((path :: paths).drop size)
termination_by paths => paths.length
decreasing_by simp only [List.length_drop, List.length_cons]; have := (sqlChunkSize 1 (by decide)).pos; omega

def remaining (stream : ExactStream) : List Entry := stream.peeked.toList ++ stream.buffer ++ unread store stream.paths

theorem remaining_fetch (paths : List Str) : (fetch store paths).remaining store = unread store paths := by
  fun_induction fetch store paths with
  | case1 => simp [remaining]
  | case2 path paths size empty ih => rw [ih, unread, empty, List.nil_append]
  | case3 path paths size row rows found => rw [unread, found]; simp [remaining, size]

theorem remaining_advance (stream : ExactStream) : (stream.advance store).remaining store = stream.remaining store := by
  unfold advance
  split
  · rfl
  · next peeked buffer => simp [remaining, peeked, buffer]
  · next peeked buffer => rw [remaining_fetch]; simp [remaining, peeked, buffer]

/-- Advancing a stream any number of times. -/
def Advances (store : StoredRows) : ExactStream → ExactStream → Prop := Relation.ReflTransGen fun stream next => next = stream.advance store

theorem Advances.remaining {stream next : ExactStream} (advances : Advances store stream next) :
    next.remaining store = stream.remaining store := by
  induction advances with
  | refl => rfl
  | tail _ step ih => rw [step, remaining_advance, ih]

theorem lowerBound_fetch {paths : List Str} (drained : (fetch store paths).peeked = none) : (fetch store paths).lowerBound = none := by
  fun_induction fetch store paths with
  | case1 => rfl
  | case2 path paths size empty ih => exact ih drained
  | case3 => cases drained

theorem lowerBound_advance {stream : ExactStream} (drained : (stream.advance store).peeked = none) :
    (stream.advance store).lowerBound = none := by
  unfold advance at drained ⊢
  split at drained
  · next peeked => cases peeked.symm.trans drained
  · cases drained
  · next peeked buffer => simpa only [peeked, buffer] using lowerBound_fetch store drained

theorem remaining_of_lowerBound {stream : ExactStream} (drained : stream.lowerBound = none) : stream.remaining store = [] := by
  unfold lowerBound at drained
  split at drained
  · cases drained
  · cases drained
  · cases drained
  · next peeked buffer paths => simp [remaining, peeked, buffer, paths, unread]

theorem remaining_of_peeked {stream : ExactStream} {row : Entry} (peeked : stream.peeked = some row) :
    stream.remaining store = row :: stream.takePeeked.remaining store := by
  simp [remaining, takePeeked, peeked]

end ExactStream

/-! ## The union cursor -/

structure UnionCursor where
  ranges : RangeStream
  exact : ExactStream

/-- A stream whose next row is only estimated. -/
def RangeStream.estimated (stream : RangeStream) : ℕ := if stream.peeked.isNone ∧ stream.lowerBound.isSome then 1 else 0

def ExactStream.estimated (stream : ExactStream) : ℕ := if stream.peeked.isNone ∧ stream.lowerBound.isSome then 1 else 0

theorem RangeStream.estimated_advance (store : StoredRows) (stream : RangeStream) : (stream.advance store).estimated = 0 := by
  unfold RangeStream.estimated
  rw [if_neg]
  rintro ⟨drained, bound⟩
  rw [lowerBound_advance store (Option.isNone_iff_eq_none.mp drained)] at bound
  cases bound

theorem ExactStream.estimated_advance (store : StoredRows) (stream : ExactStream) : (stream.advance store).estimated = 0 := by
  unfold ExactStream.estimated
  rw [if_neg]
  rintro ⟨drained, bound⟩
  rw [lowerBound_advance store (Option.isNone_iff_eq_none.mp drained)] at bound
  cases bound

namespace UnionCursor

variable (store : StoredRows)

set_option linter.unusedVariables false in
/-- Hand out the next row in path order, advancing only a stream that could hold it. -/
def nextRow (cursor : UnionCursor) : Option Entry × UnionCursor :=
  match rangesBound : cursor.ranges.lowerBound, exactBound : cursor.exact.lowerBound with
  | none, none => (none, cursor)
  | some _, none =>
    let ranges := cursor.ranges.advance store
    (ranges.peeked, { cursor with ranges := ranges.takePeeked })
  | none, some _ =>
    let exact := cursor.exact.advance store
    (exact.peeked, { cursor with exact := exact.takePeeked })
  | some rangesLeast, some exactLeast =>
    if rangesPeeked : cursor.ranges.peeked.isSome ∧ rangesLeast ≤ exactLeast then
      (cursor.ranges.peeked, { cursor with ranges := cursor.ranges.takePeeked })
    else if exactPeeked : cursor.exact.peeked.isSome ∧ exactLeast ≤ rangesLeast then
      (cursor.exact.peeked, { cursor with exact := cursor.exact.takePeeked })
    else if rangesFirst : rangesLeast ≤ exactLeast then nextRow { cursor with ranges := cursor.ranges.advance store }
    else nextRow { cursor with exact := cursor.exact.advance store }
termination_by cursor.ranges.estimated + cursor.exact.estimated
decreasing_by
  · have estimated : cursor.ranges.estimated = 1 := by
      rw [RangeStream.estimated, if_pos]
      exact ⟨by simpa [rangesFirst] using rangesPeeked, by rw [rangesBound]; rfl⟩
    simp only [RangeStream.estimated_advance, estimated]
    omega
  · have estimated : cursor.exact.estimated = 1 := by
      rw [ExactStream.estimated, if_pos]
      exact ⟨by simpa [(not_le.mp rangesFirst).le] using exactPeeked, by rw [exactBound]; rfl⟩
    simp only [ExactStream.estimated_advance, estimated]
    omega

/-- The next row comes from the front of one stream and leaves the other stream's rows alone. -/
inductive Hands (cursor : UnionCursor) : Option Entry × UnionCursor → Prop
  | finished (next : UnionCursor) (noRange : cursor.ranges.remaining store = []) (noExact : cursor.exact.remaining store = []) :
    Hands cursor (none, next)
  | fromRanges (row : Entry) (ranges : RangeStream) (exact : ExactStream) (peeked : ranges.peeked = some row)
    (fromHere : RangeStream.Advances store cursor.ranges ranges) (other : ExactStream.Advances store cursor.exact exact)
    (least : ∀ bound ∈ exact.lowerBound, row.path.text ≤ bound) : Hands cursor (some row, ⟨ranges.takePeeked, exact⟩)
  | fromExact (row : Entry) (ranges : RangeStream) (exact : ExactStream) (peeked : exact.peeked = some row)
    (fromHere : RangeStream.Advances store cursor.ranges ranges) (other : ExactStream.Advances store cursor.exact exact)
    (least : ∀ bound ∈ ranges.lowerBound, row.path.text ≤ bound) : Hands cursor (some row, ⟨ranges, exact.takePeeked⟩)

theorem hands_nextRow (cursor : UnionCursor) : Hands store cursor (cursor.nextRow store) := by
  fun_induction nextRow store cursor with
  | case1 cursor noRanges noExact =>
    exact .finished cursor (RangeStream.remaining_of_lowerBound store noRanges) (ExactStream.remaining_of_lowerBound store noExact)
  | case2 cursor bound rangesBound noExact ranges =>
    cases peeked : ranges.peeked with
    | none =>
      refine .finished _ ?_ (ExactStream.remaining_of_lowerBound store noExact)
      rw [← RangeStream.remaining_advance]
      exact RangeStream.remaining_of_lowerBound store (RangeStream.lowerBound_advance store peeked)
    | some row =>
      exact .fromRanges row ranges cursor.exact peeked (.single rfl) .refl (by simp [noExact])
  | case3 cursor bound noRanges exactBound exact =>
    cases peeked : exact.peeked with
    | none =>
      refine .finished _ (RangeStream.remaining_of_lowerBound store noRanges) ?_
      rw [← ExactStream.remaining_advance]
      exact ExactStream.remaining_of_lowerBound store (ExactStream.lowerBound_advance store peeked)
    | some row =>
      exact .fromExact row cursor.ranges exact peeked .refl (.single rfl) (by simp [noRanges])
  | case4 cursor rangesLeast exactLeast rangesBound exactBound held =>
    obtain ⟨row, peeked⟩ := Option.isSome_iff_exists.mp held.1
    rw [peeked]
    refine .fromRanges row cursor.ranges cursor.exact peeked .refl .refl fun bound isBound => ?_
    have least : row.path.text = rangesLeast := by simpa [RangeStream.lowerBound, peeked] using rangesBound
    obtain rfl := Option.some.inj (exactBound.symm.trans isBound)
    exact least ▸ held.2
  | case5 cursor rangesLeast exactLeast rangesBound exactBound notHeld held =>
    obtain ⟨row, peeked⟩ := Option.isSome_iff_exists.mp held.1
    rw [peeked]
    refine .fromExact row cursor.ranges cursor.exact peeked .refl .refl fun bound isBound => ?_
    have least : row.path.text = exactLeast := by simpa [ExactStream.lowerBound, peeked] using exactBound
    obtain rfl := Option.some.inj (rangesBound.symm.trans isBound)
    exact least ▸ held.2
  | case6 cursor rangesLeast exactLeast rangesBound exactBound notHeld notHeld' rangesFirst ih =>
    have advanced := RangeStream.remaining_advance store cursor.ranges
    generalize nextRow store { cursor with ranges := cursor.ranges.advance store } = result at ih
    cases ih with
    | finished next noRange noExact => exact .finished next (advanced ▸ noRange) noExact
    | fromRanges row ranges exact peeked fromHere other least =>
      exact .fromRanges row ranges exact peeked (.head rfl fromHere) other least
    | fromExact row ranges exact peeked fromHere other least =>
      exact .fromExact row ranges exact peeked (.head rfl fromHere) other least
  | case7 cursor rangesLeast exactLeast rangesBound exactBound notHeld notHeld' exactFirst ih =>
    have advanced := ExactStream.remaining_advance store cursor.exact
    generalize nextRow store { cursor with exact := cursor.exact.advance store } = result at ih
    cases ih with
    | finished next noRange noExact => exact .finished next noRange (advanced ▸ noExact)
    | fromRanges row ranges exact peeked fromHere other least =>
      exact .fromRanges row ranges exact peeked fromHere (.head rfl other) least
    | fromExact row ranges exact peeked fromHere other least =>
      exact .fromExact row ranges exact peeked fromHere (.head rfl other) least

end UnionCursor

/-! ## Selected rows -/

/-- Where rows come from: one live statement, looked-up paths, or a union. -/
inductive RowSource where
  | range (rows : List Entry)
  | exact (cursor : ExactStream)
  | union (cursor : UnionCursor)

namespace RowSource

variable (store : StoredRows)

def nextRow : RowSource → Option Entry × RowSource
  | .range [] => (none, .range [])
  | .range (row :: rows) => (some row, .range rows)
  | .exact cursor =>
    let advanced := cursor.advance store
    (advanced.peeked, .exact advanced.takePeeked)
  | .union cursor =>
    let (row, cursor) := cursor.nextRow store
    (row, .union cursor)

/-- How many rows are still to come. -/
def left : RowSource → ℕ
  | .range rows => rows.length
  | .exact cursor => (cursor.remaining store).length
  | .union cursor => (cursor.ranges.remaining store).length + (cursor.exact.remaining store).length

theorem left_nextRow {source next : RowSource} {row : Entry} (handed : source.nextRow store = (some row, next)) :
    next.left store < source.left store := by
  match source with
  | .range [] => cases handed
  | .range (_ :: rows) =>
    obtain ⟨-, rfl⟩ := Prod.mk.inj handed
    exact Nat.lt_succ_self _
  | .exact cursor =>
    obtain ⟨peeked, rfl⟩ := Prod.mk.inj handed
    simp only [left, ← ExactStream.remaining_advance store cursor, ExactStream.remaining_of_peeked store peeked, List.length_cons]
    omega
  | .union cursor =>
    have hands := cursor.hands_nextRow store
    rw [nextRow] at handed
    generalize cursor.nextRow store = result at hands handed
    cases hands with
    | finished => cases handed
    | fromRanges row ranges exact peeked fromHere other least =>
      obtain ⟨-, rfl⟩ := Prod.mk.inj handed
      simp only [left, ← fromHere.remaining, ← other.remaining, RangeStream.remaining_of_peeked store peeked, List.length_cons]
      omega
    | fromExact row ranges exact peeked fromHere other least =>
      obtain ⟨-, rfl⟩ := Prod.mk.inj handed
      simp only [left, ← fromHere.remaining, ← other.remaining, ExactStream.remaining_of_peeked store peeked, List.length_cons]
      omega

end RowSource

/-- A cursor whose rows have passed the residual selection. -/
structure DesiredRows where
  source : RowSource
  residual : Option ScopedSelection

namespace DesiredRows

variable (store : StoredRows)

def selects (rows : DesiredRows) (row : Entry) : Bool := rows.residual.all fun selection => selection.matchesStr row.path.text

set_option linter.unusedVariables false in
/-- Return the next selected row, skipping those that the selection rejects. -/
def next (rows : DesiredRows) : Option Entry × DesiredRows :=
  match handed : rows.source.nextRow store with
  | (none, source) => (none, { rows with source })
  | (some row, source) => if rows.selects row then (some row, { rows with source }) else next { rows with source }
termination_by rows.source.left store
decreasing_by exact RowSource.left_nextRow store handed

theorem left_next {rows rest : DesiredRows} {row : Entry} (found : rows.next store = (some row, rest)) :
    rest.source.left store < rows.source.left store := by
  fun_induction next store rows with
  | case1 => cases found
  | case2 rows other source handed selected =>
    obtain ⟨-, rfl⟩ := Prod.mk.inj found
    exact RowSource.left_nextRow store handed
  | case3 rows other source handed rejected ih => exact (ih found).trans (RowSource.left_nextRow store handed)

set_option linter.unusedVariables false in
/-- Read a cursor to its end. -/
def collect (rows : DesiredRows) : List Entry :=
  match found : rows.next store with
  | (none, _) => []
  | (some row, rest) => row :: collect rest
termination_by rows.source.left store
decreasing_by exact left_next store found

end DesiredRows

/-- Open the cursor of a query; nothing is fetched yet. -/
def DesiredQuery.openRows (query : DesiredQuery) (store : StoredRows) : DesiredRows where
  source :=
    match query.span with
    | .all => .range store.rows
    | .empty => .exact { paths := [] }
    | .scope scope => .range (store.rows.filter fun row => Gat.inScope scope row.path)
    | .exact paths => .exact { paths := (paths.map GatPath.text).toFinset.sort (· ≤ ·) }
    | .union plan => .union ⟨{ ranges := plan.ranges }, { paths := plan.exact }⟩
  residual := query.residual

/-- The entries that a query describes. -/
def StateTable.desiredRowsOn (table : StateTable) (query : DesiredQuery) : List Entry :=
  let store := table.storedRows query.shardId
  (query.openRows store).collect store

end Gat
