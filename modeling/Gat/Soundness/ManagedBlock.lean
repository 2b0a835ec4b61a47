import Gat.Proofs.ManagedBlock

/-! # Editing touches only its block

An edit of text with a complete pair replaces the lines of the first pair, and every other edit appends. What is
installed is found again by the next edit unless the terminator that was added in front of it changed the text before it:
a bare carriage return in front of an added line feed becomes part of a terminator. That line then counts as a marker
line, or as the first line of a file in the other style.
-/

open List

namespace Gat

/-- A pair of marker lines. -/
structure Markers (beginMarker endMarker : Str) : Prop where
  openingValid : Utf8.Valid beginMarker
  closingValid : Utf8.Valid endMarker
  opening : SingleLine beginMarker
  closing : SingleLine endMarker
  someOpening : beginMarker ≠ []
  someClosing : endMarker ≠ []
  distinct : beginMarker ≠ endMarker

/-- A body with terminated lines of which none is a marker. -/
structure BlockBody (beginMarker endMarker body : Str) : Prop where
  closed : Closed Byte.lineFeed body
  plain : ManagedBlock.Plain beginMarker endMarker (body.splitInclusive Byte.lineFeed)

namespace ManagedBlock

variable {beginMarker endMarker : Str} {ε : Type}

/-- The block with a body in a style. -/
def block (beginMarker endMarker body : Str) (eol : Eol) : Str :=
  beginMarker ++ (eol.asStr ++ (eol.convert body ++ (endMarker ++ eol.asStr)))

/-- The marker lines of a pair with their terminators; the closing one can end the text. -/
theorem FirstPair.framed {existing opening closing : Str} {before inner after : List Str}
    (pair : FirstPair beginMarker endMarker (existing.splitInclusive Byte.lineFeed) before opening inner closing after) :
    (∀ line ∈ before, Terminated Byte.lineFeed line) ∧ (∃ eol : Eol, opening = beginMarker ++ eol.asStr) ∧
      (closing = endMarker ∧ after = [] ∨ ∃ eol : Eol, closing = endMarker ++ eol.asStr) := by
  have cut := pieces_splitInclusive Byte.lineFeed existing
  rw [pair.whole] at cut
  obtain ⟨beforeTerminated, cut⟩ := cut.of_append (cons_ne_nil _ _)
  have split : opening :: (inner ++ closing :: after) = (opening :: inner) ++ closing :: after := rfl
  rw [split] at cut
  obtain ⟨terminated, cut⟩ := cut.of_append (cons_ne_nil _ _)
  obtain ⟨opened, openingSame⟩ := Terminated.exists_eol (terminated opening mem_cons_self)
  rw [pair.opens] at openingSame
  refine ⟨beforeTerminated, ⟨opened, openingSame⟩, ?_⟩
  have ends := pair.ends
  cases cut with
  | last some free =>
    rw [stripTerminator_of_free free] at ends
    exact Or.inl ⟨ends, rfl⟩
  | cons terminated =>
    obtain ⟨eol, closingSame⟩ := Terminated.exists_eol terminated
    rw [ends] at closingSame
    exact Or.inr ⟨eol, closingSame⟩

theorem isBoundary_asStr (before : Str) (eol : Eol) (after : Str) :
    Utf8.IsBoundary (before ++ (eol.asStr ++ after)) before.length := by
  cases eol with
  | lf => exact Utf8.isBoundary_before_ascii (by decide)
  | crlf => exact Utf8.isBoundary_before_ascii (by decide)

/-- The text that the scan takes apart around its first pair. -/
structure Framed (beginMarker endMarker existing before : Str) (opened : Eol) (inner tail : Str) : Prop where
  whole : existing = before ++ (beginMarker ++ (opened.asStr ++ (inner ++ (endMarker ++ tail))))
  tailed : tail = [] ∨ ∃ (eol : Eol) (rest : Str), tail = eol.asStr ++ rest
  offsets : markerOffsets beginMarker endMarker existing =
    some (before.length, (before ++ (beginMarker ++ (opened.asStr ++ inner))).length)

theorem FirstPair.exists_framed (markers : Markers beginMarker endMarker) {existing opening closing : Str} {before inner after : List Str}
    (pair : FirstPair beginMarker endMarker (existing.splitInclusive Byte.lineFeed) before opening inner closing after) :
    ∃ opened tail, Framed beginMarker endMarker existing before.flatten opened inner.flatten tail ∧
      stripLeadingTerminator tail = after.flatten := by
  obtain ⟨-, ⟨opened, rfl⟩, closingSame⟩ := pair.framed
  have whole := flatten_splitInclusive Byte.lineFeed existing
  rw [pair.whole, flatten_append, flatten_cons, flatten_append, flatten_cons] at whole
  have unmarked : ¬(beginMarker = [] ∨ endMarker = [] ∨ beginMarker = endMarker) := by
    simp [markers.someOpening, markers.someClosing, markers.distinct]
  have offsets : markerOffsets beginMarker endMarker existing =
      some (before.flatten.length, (before.flatten ++ (beginMarker ++ (opened.asStr ++ inner.flatten))).length) := by
    rw [markerOffsets, if_neg unmarked, pair.scanMarkers_eq markers.distinct]
    simp only [length_append, Nat.add_assoc]
  rcases closingSame with ⟨rfl, rfl⟩ | ⟨eol, rfl⟩
  · refine ⟨opened, [], ⟨?_, Or.inl rfl, offsets⟩, rfl⟩
    rw [← whole, flatten_nil, append_assoc beginMarker]
  · refine ⟨opened, eol.asStr ++ after.flatten, ⟨?_, Or.inr ⟨eol, _, rfl⟩, offsets⟩, stripLeadingTerminator_asStr eol _⟩
    rw [← whole, append_assoc beginMarker, append_assoc endMarker]

section Slices

variable {existing before inner tail : Str} {opened : Eol} (framed : Framed beginMarker endMarker existing before opened inner tail)
  (markers : Markers beginMarker endMarker)
include framed

theorem Framed.whole_closing : existing = (before ++ (beginMarker ++ (opened.asStr ++ inner))) ++ (endMarker ++ tail) := by
  rw [framed.whole]
  simp only [append_assoc]

include markers

theorem Framed.slice_before : (Str.slice existing 0 before.length : Outcome ε Str) = .ok before := by
  have boundary : Utf8.IsBoundary existing (0 + before.length) := by
    rw [framed.whole, Nat.zero_add]
    exact Utf8.isBoundary_before markers.openingValid markers.someOpening _
  have spans : Str.Spans existing 0 before := ⟨[], _, framed.whole, rfl, Utf8.isBoundary_zero _, boundary⟩
  have sliced := spans.slice_eq (ε := ε)
  rwa [Nat.zero_add] at sliced

theorem Framed.slice_body :
    (Str.slice existing (before.length + beginMarker.length) (before ++ (beginMarker ++ (opened.asStr ++ inner))).length : Outcome ε Str) =
      .ok (opened.asStr ++ inner) := by
  have whole : existing = (before ++ beginMarker) ++ ((opened.asStr ++ inner) ++ (endMarker ++ tail)) := by
    rw [framed.whole]
    simp only [append_assoc]
  have position : (before ++ (beginMarker ++ (opened.asStr ++ inner))).length = before.length + beginMarker.length + (opened.asStr ++ inner).length := by
    simp only [length_append, Nat.add_assoc]
  have first : Utf8.IsBoundary existing (before.length + beginMarker.length) := by
    rw [whole, append_assoc opened.asStr, ← length_append]
    exact isBoundary_asStr _ opened _
  have last : Utf8.IsBoundary existing (before.length + beginMarker.length + (opened.asStr ++ inner).length) := by
    rw [← position, framed.whole_closing]
    exact Utf8.isBoundary_before markers.closingValid markers.someClosing _
  have spans : Str.Spans existing (before.length + beginMarker.length) (opened.asStr ++ inner) :=
    ⟨_, _, whole, length_append, first, last⟩
  rw [position]
  exact spans.slice_eq

omit markers in
theorem Framed.slice_after :
    (Str.sliceFrom existing ((before ++ (beginMarker ++ (opened.asStr ++ inner))).length + endMarker.length) : Outcome ε Str) = .ok tail := by
  have whole := framed.whole_closing
  rw [← append_assoc] at whole
  rw [← length_append]
  generalize before ++ (beginMarker ++ (opened.asStr ++ inner)) ++ endMarker = front at whole
  have length : existing.length = front.length + tail.length := by rw [whole, length_append]
  have boundary : Utf8.IsBoundary existing front.length := by
    rw [whole]
    rcases framed.tailed with rfl | ⟨eol, rest, rfl⟩
    · rw [append_nil]
      exact Utf8.isBoundary_length _
    · exact isBoundary_asStr _ eol _
  have spans : Str.Spans existing front.length tail :=
    ⟨front, [], by rw [whole, append_nil], rfl, boundary, length ▸ Utf8.isBoundary_length _⟩
  rw [Str.sliceFrom, length]
  exact spans.slice_eq

end Slices

section Edit

variable (markers : Markers beginMarker endMarker) {existing opening closing : Str} {before inner after : List Str}
  (pair : FirstPair beginMarker endMarker (existing.splitInclusive Byte.lineFeed) before opening inner closing after)
include markers pair

theorem FirstPair.upsert_eq (body : Str) : (upsert beginMarker endMarker existing body : Outcome ε Str) =
    .ok (before.flatten ++ (block beginMarker endMarker body (Eol.detect existing) ++ after.flatten)) := by
  obtain ⟨opened, tail, framed, stripped⟩ := pair.exists_framed markers
  rw [upsert, framed.offsets]
  simp only [framed.slice_before markers, framed.slice_after, Outcome.ok_bind, pure_bind, stripped, pushBodyWithEol, block, append_assoc]
  rfl

theorem FirstPair.remove_eq : (remove beginMarker endMarker existing : Outcome ε (Option Str)) =
    .ok (some (before.flatten ++ after.flatten)) := by
  obtain ⟨opened, tail, framed, stripped⟩ := pair.exists_framed markers
  rw [remove, framed.offsets]
  simp only [framed.slice_before markers, framed.slice_after, Outcome.ok_bind, stripped]
  rfl

theorem FirstPair.extractBody_eq : (extractBody beginMarker endMarker existing : Outcome ε (Option Str)) = .ok (some inner.flatten) := by
  obtain ⟨opened, tail, framed, stripped⟩ := pair.exists_framed markers
  rw [extractBody, framed.offsets]
  simp only [framed.slice_body markers, Outcome.ok_bind, stripLeadingTerminator_asStr]
  rfl

end Edit

/-! ## Installed blocks -/

section Installed

variable (markers : Markers beginMarker endMarker) {front body : Str} (contained : BlockBody beginMarker endMarker body)
  (closed : Closed Byte.lineFeed front)

theorem plain_convert (markers : Markers beginMarker endMarker) (contained : BlockBody beginMarker endMarker body) (eol : Eol) :
    Plain beginMarker endMarker ((eol.convert body).splitInclusive Byte.lineFeed) := by
  rw [Eol.splitInclusive_convert eol contained.closed]
  intro converted member
  obtain ⟨line, original, rfl⟩ := mem_map.mp member
  have terminated := contained.closed.terminated line original
  obtain ⟨notBegin, notEnd⟩ := contained.plain line original
  exact ⟨fun same => notBegin (Eol.stripTerminator_convert eol terminated markers.opening same),
    fun same => notEnd (Eol.stripTerminator_convert eol terminated markers.closing same)⟩

include markers contained closed

/-- A block behind closed text without a pair is the first pair. -/
theorem firstPair_block (unpaired : ¬CompletePair beginMarker endMarker (front.splitInclusive Byte.lineFeed)) (eol : Eol) (after : Str) :
    FirstPair beginMarker endMarker ((front ++ (block beginMarker endMarker body eol ++ after)).splitInclusive Byte.lineFeed)
      (front.splitInclusive Byte.lineFeed) (beginMarker ++ eol.asStr) ((eol.convert body).splitInclusive Byte.lineFeed)
      (endMarker ++ eol.asStr) (after.splitInclusive Byte.lineFeed) where
  whole := by
    have lines : block beginMarker endMarker body eol ++ after =
        (beginMarker ++ eol.asStr) ++ (eol.convert body ++ ((endMarker ++ eol.asStr) ++ after)) := by
      simp only [block, append_assoc]
    rw [splitInclusive_append closed, lines, splitInclusive_cons_terminated (markers.opening.terminated eol),
      splitInclusive_append (Eol.closed_convert eol contained.closed), splitInclusive_cons_terminated (markers.closing.terminated eol)]
  earlier := unpaired
  opens := markers.opening.stripTerminator eol
  plain := plain_convert markers contained eol
  ends := markers.closing.stripTerminator eol

omit contained in
/-- The style of text with a block is the one that the block was written in. -/
theorem detect_block {eol : Eol} (style : Byte.lineFeed ∈ front → Eol.detect front = eol) (after : Str) :
    Eol.detect (front ++ (block beginMarker endMarker body eol ++ after)) = eol := by
  by_cases ends : Byte.lineFeed ∈ front
  · exact (Eol.detect_append ends _).trans (style ends)
  · have none : front = [] := by
      rcases eq_nil_or_concat' front with none | ⟨texts, letter, rfl⟩
      · exact none
      · have same := closed letter (getLast?_concat ..)
        exact absurd (same ▸ mem_append_right _ (mem_singleton_self _)) ends
    rw [none, nil_append, block, append_assoc, append_assoc]
    exact Eol.detect_asStr markers.opening eol _

end Installed

/-- A text with a pair of marker lines. -/
def HasPair (beginMarker endMarker text : Str) : Prop := CompletePair beginMarker endMarker (text.splitInclusive Byte.lineFeed)

/-- What an edit leaves alone, and that it can be repeated, read back and undone. -/
structure Stable (ε : Type) (beginMarker endMarker existing body installed : Str) : Prop where
  idempotent : (upsert beginMarker endMarker installed body : Outcome ε Str) = .ok installed
  extracted : (extractBody beginMarker endMarker installed : Outcome ε (Option Str)) = .ok (some ((Eol.detect existing).convert body))
  replaced : ∀ before opening inner closing after,
    FirstPair beginMarker endMarker (existing.splitInclusive Byte.lineFeed) before opening inner closing after →
      installed = before.flatten ++ (block beginMarker endMarker body (Eol.detect existing) ++ after.flatten)
  appended : ¬HasPair beginMarker endMarker existing →
    ∃ added, (added = [] ∨ ¬Closed Byte.lineFeed existing ∧ ∃ eol : Eol, added = eol.asStr) ∧
      installed = existing ++ (added ++ block beginMarker endMarker body (Eol.detect existing)) ∧
      (remove beginMarker endMarker installed : Outcome ε (Option Str)) = .ok (some (existing ++ added))

/-- The terminator that an edit adds in front of a block changes nothing before it. -/
def Undisturbed (beginMarker endMarker existing : Str) : Prop :=
  HasPair beginMarker endMarker existing ∨ existing.getLast? ≠ some Byte.carriageReturn ∨ Eol.detect existing = .crlf ∨
    Byte.lineFeed ∈ existing ∧ ¬HasPair beginMarker endMarker (existing ++ [Byte.lineFeed])

/-- The terminator in front of an appended block. -/
def separator (existing : Str) : Str := if Closed Byte.lineFeed existing then [] else (Eol.detect existing).asStr

theorem completePair_iff_map {lines : List Str} : CompletePair beginMarker endMarker lines ↔
    ∃ before inner after, lines.map stripTerminator = before ++ beginMarker :: (inner ++ endMarker :: after) := by
  constructor
  · rintro ⟨before, opening, inner, closing, after, rfl, rfl, rfl⟩
    exact ⟨before.map stripTerminator, inner.map stripTerminator, after.map stripTerminator, by simp⟩
  · rintro ⟨before, inner, after, same⟩
    obtain ⟨before, rest, rfl, -, same⟩ := map_eq_append_iff.mp same
    obtain ⟨opening, rest, rfl, opens, same⟩ := map_eq_cons_iff.mp same
    obtain ⟨inner, rest, rfl, -, same⟩ := map_eq_append_iff.mp same
    obtain ⟨closing, after, rfl, ends, -⟩ := map_eq_cons_iff.mp same
    exact ⟨before, opening, inner, closing, after, rfl, opens, ends⟩

theorem CompletePair.append {lines : List Str} (pair : CompletePair beginMarker endMarker lines) (others : List Str) :
    CompletePair beginMarker endMarker (lines ++ others) := by
  obtain ⟨before, opening, inner, closing, after, rfl, opens, ends⟩ := pair
  exact ⟨before, opening, inner, closing, after ++ others, by simp, opens, ends⟩

theorem closed_append_separator (existing : Str) : Closed Byte.lineFeed (existing ++ separator existing) := by
  rw [separator]
  split_ifs with closed
  · rwa [append_nil]
  · intro letter isLast
    rw [show (Eol.detect existing).asStr = (Eol.detect existing).asStr.dropLast ++ [Byte.lineFeed] by cases Eol.detect existing <;> rfl,
      ← append_assoc, getLast?_concat] at isLast
    exact (Option.mem_some_iff.mp isLast).symm

theorem upsert_of_unpaired (distinct : beginMarker ≠ endMarker) {existing : Str} (unpaired : ¬HasPair beginMarker endMarker existing) (body : Str) :
    (upsert beginMarker endMarker existing body : Outcome ε Str) =
      .ok (existing ++ (separator existing ++ block beginMarker endMarker body (Eol.detect existing))) := by
  have offsets : markerOffsets beginMarker endMarker existing = none := by
    rw [markerOffsets, (not_completePair_iff distinct).mp unpaired, ite_self]
  have added : (if True ∧ existing ≠ [] ∧ existing.getLast? ≠ some Byte.lineFeed then existing ++ (Eol.detect existing).asStr else existing) =
      existing ++ separator existing := by
    rw [separator]
    rcases eq_nil_or_concat' existing with rfl | ⟨texts, letter, rfl⟩
    · rfl
    · by_cases ends : letter = Byte.lineFeed
      · simp [Closed, ends]
      · simp [Closed, ends]
  rw [upsert, offsets]
  simp only [pure_bind, pushBodyWithEol, block]
  rw [added]
  simp only [append_assoc, append_nil]
  rfl

/-! ## Repeated edits -/

section Repeated

variable (markers : Markers beginMarker endMarker) {body : Str} (contained : BlockBody beginMarker endMarker body)
include markers contained

/-- A block in its own style behind text without a pair is found, read back and removed. -/
theorem installed_eq {front : Str} (closed : Closed Byte.lineFeed front) (unpaired : ¬HasPair beginMarker endMarker front) {eol : Eol}
    (style : Byte.lineFeed ∈ front → Eol.detect front = eol) (after : Str) :
    (upsert beginMarker endMarker (front ++ (block beginMarker endMarker body eol ++ after)) body : Outcome ε Str) =
        .ok (front ++ (block beginMarker endMarker body eol ++ after)) ∧
      (extractBody beginMarker endMarker (front ++ (block beginMarker endMarker body eol ++ after)) : Outcome ε (Option Str)) =
        .ok (some (eol.convert body)) ∧
      (remove beginMarker endMarker (front ++ (block beginMarker endMarker body eol ++ after)) : Outcome ε (Option Str)) =
        .ok (some (front ++ after)) := by
  have pair := firstPair_block markers contained closed unpaired eol after
  have again := pair.upsert_eq (ε := ε) markers body
  have read := pair.extractBody_eq (ε := ε) markers
  have removed := pair.remove_eq (ε := ε) markers
  rw [detect_block markers closed style, flatten_splitInclusive, flatten_splitInclusive] at again
  rw [flatten_splitInclusive] at read
  rw [flatten_splitInclusive, flatten_splitInclusive] at removed
  exact ⟨again, read, removed⟩

/-- An edit of a pair is stable. -/
theorem stable_of_firstPair {existing opening closing : Str} {before inner after : List Str}
    (pair : FirstPair beginMarker endMarker (existing.splitInclusive Byte.lineFeed) before opening inner closing after) :
    Stable ε beginMarker endMarker existing body
      (before.flatten ++ (block beginMarker endMarker body (Eol.detect existing) ++ after.flatten)) := by
  obtain ⟨terminated, -, -⟩ := pair.framed
  have closed := closed_of_terminated terminated
  have lines : before.flatten.splitInclusive Byte.lineFeed = before := by
    have cut := (Pieces.append terminated .nil).splitInclusive_flatten
    rwa [append_nil] at cut
  have unpaired : ¬HasPair beginMarker endMarker before.flatten := by
    rw [HasPair, lines]
    exact pair.earlier
  have style : Byte.lineFeed ∈ before.flatten → Eol.detect before.flatten = Eol.detect existing := by
    intro ends
    have whole := flatten_splitInclusive Byte.lineFeed existing
    rw [pair.whole, flatten_append] at whole
    rw [← whole, Eol.detect_append ends]
  obtain ⟨again, read, -⟩ := installed_eq (ε := ε) markers contained closed unpaired style after.flatten
  refine ⟨again, read, ?_, fun unpaired => absurd pair.completePair unpaired⟩
  intro otherBefore otherOpening otherInner otherClosing otherAfter other
  have first := pair.upsert_eq (ε := ε) markers body
  rw [other.upsert_eq markers body] at first
  exact (Except.ok.inj first).symm

/-- An appended block is stable when the text in front of it has its style and no pair. -/
theorem stable_of_unpaired {existing : Str} (unpaired : ¬HasPair beginMarker endMarker existing)
    (alone : ¬HasPair beginMarker endMarker (existing ++ separator existing))
    (style : Byte.lineFeed ∈ existing ++ separator existing → Eol.detect (existing ++ separator existing) = Eol.detect existing) :
    Stable ε beginMarker endMarker existing body
      (existing ++ (separator existing ++ block beginMarker endMarker body (Eol.detect existing))) := by
  obtain ⟨again, read, removed⟩ := installed_eq (ε := ε) markers contained (closed_append_separator existing) alone style []
  rw [append_nil, append_assoc] at again read removed
  rw [append_nil] at removed
  refine ⟨again, read, fun _ _ _ _ _ pair => absurd pair.completePair unpaired, fun _ => ⟨separator existing, ?_, rfl, removed⟩⟩
  rw [separator]
  split_ifs with closed
  · exact Or.inl rfl
  · exact Or.inr ⟨closed, _, rfl⟩

end Repeated

/-! ## Added terminators -/

/-- Terminating the last line leaves the lines as they are unless a carriage return becomes part of the terminator. -/
theorem map_stripTerminator_separator {existing : Str} (kept : existing.getLast? ≠ some Byte.carriageReturn ∨ Eol.detect existing = .crlf) :
    ((existing ++ separator existing).splitInclusive Byte.lineFeed).map stripTerminator =
      (existing.splitInclusive Byte.lineFeed).map stripTerminator := by
  rw [separator]
  split_ifs with closed
  · rw [append_nil]
  · obtain ⟨front, line, whole, frontClosed, some, free⟩ := exists_of_not_closed closed
    have last : existing.getLast? = line.getLast? := by rw [whole, getLast?_append_of_ne_nil _ some]
    have kept : stripTerminator (line ++ (Eol.detect existing).asStr) = line := by
      cases style : Eol.detect existing with
      | lf =>
        rw [style, last] at kept
        exact SingleLine.stripTerminator ⟨free, kept.resolve_right nofun⟩ .lf
      | crlf => rw [Eol.asStr, append_cons, stripTerminator_lineFeed, Str.trimCarriageReturn_append]
    have terminated : Terminated Byte.lineFeed (line ++ (Eol.detect existing).asStr) := by
      cases Eol.detect existing with
      | lf => exact ⟨line, free, rfl⟩
      | crlf =>
        refine ⟨line ++ [Byte.carriageReturn], ?_, by simp [Eol.asStr]⟩
        rw [mem_append, not_or, mem_singleton]
        exact ⟨free, by decide⟩
    have cut := splitInclusive_cons_terminated terminated []
    rw [append_nil] at cut
    generalize (Eol.detect existing).asStr = nl at *
    rw [whole, append_assoc, splitInclusive_append frontClosed, splitInclusive_append frontClosed, cut,
      splitInclusive_of_notMem some free, map_append, map_append, map_singleton, stripTerminator_of_free free]
    rw [splitInclusive, map_singleton, kept]

theorem separator_of_undisturbed {existing : Str} (undisturbed : Undisturbed beginMarker endMarker existing)
    (unpaired : ¬HasPair beginMarker endMarker existing) :
    ¬HasPair beginMarker endMarker (existing ++ separator existing) ∧
      (Byte.lineFeed ∈ existing ++ separator existing → Eol.detect (existing ++ separator existing) = Eol.detect existing) := by
  by_cases kept : existing.getLast? ≠ some Byte.carriageReturn ∨ Eol.detect existing = .crlf
  · constructor
    · rw [HasPair, completePair_iff_map, map_stripTerminator_separator kept, ← completePair_iff_map]
      exact unpaired
    · intro _
      by_cases ends : Byte.lineFeed ∈ existing
      · exact Eol.detect_append ends _
      · have style := Eol.detect_of_free ends
        rw [separator]
        split_ifs with closed
        · rw [append_nil]
        · rw [style] at kept ⊢
          rw [Eol.asStr, Eol.detect_first ends]
          exact if_neg (kept.resolve_right (by rintro ⟨⟩))
  · obtain ⟨bare, style⟩ := not_or.mp kept
    obtain ⟨ends, alone⟩ := ((undisturbed.resolve_left unpaired).resolve_left bare).resolve_left style
    have unclosed : ¬Closed Byte.lineFeed existing := by
      intro closed
      rw [not_not] at bare
      exact absurd (closed _ bare) (by decide)
    have added : separator existing = [Byte.lineFeed] := by
      rw [separator, if_neg unclosed]
      cases same : Eol.detect existing with
      | lf => rfl
      | crlf => exact absurd same style
    exact ⟨added ▸ alone, fun _ => Eol.detect_append ends _⟩

theorem not_hasPair_terminated {line : Str} (terminated : Terminated Byte.lineFeed line) : ¬HasPair beginMarker endMarker line := by
  have cut := splitInclusive_cons_terminated terminated []
  rw [append_nil, splitInclusive] at cut
  rw [HasPair, cut]
  rintro ⟨before, opening, inner, closing, after, same, -⟩
  have length := congrArg List.length same
  simp at length
  omega

section Disturbed

variable (markers : Markers beginMarker endMarker) {body : Str} (contained : BlockBody beginMarker endMarker body) {existing : Str}
  (bare : existing.getLast? = some Byte.carriageReturn)
include markers contained bare

/-- A first line that ended with a carriage return has become one of the other style. -/
theorem upsert_ne_of_first (free : Byte.lineFeed ∉ existing) :
    (upsert beginMarker endMarker (existing ++ ([Byte.lineFeed] ++ block beginMarker endMarker body .lf)) body : Outcome ε Str) ≠
      .ok (existing ++ ([Byte.lineFeed] ++ block beginMarker endMarker body .lf)) := by
  have closed : Closed Byte.lineFeed (existing ++ [Byte.lineFeed]) := by
    intro letter isLast
    rw [getLast?_concat] at isLast
    exact (Option.mem_some_iff.mp isLast).symm
  have pair := firstPair_block markers contained closed (not_hasPair_terminated ⟨existing, free, rfl⟩) .lf []
  have again := pair.upsert_eq (ε := ε) markers body
  have style : Eol.detect (existing ++ [Byte.lineFeed] ++ (block beginMarker endMarker body .lf ++ [])) = .crlf := by
    rw [append_assoc, singleton_append, Eol.detect_first free, if_pos bare]
  rw [style, flatten_splitInclusive, splitInclusive, flatten_nil, append_nil, append_nil, append_assoc] at again
  rw [again, append_assoc]
  intro same
  have blocks := append_cancel_left (append_cancel_left (Except.ok.inj same))
  have tails := append_cancel_left blocks
  rw [Eol.asStr, Eol.asStr, cons_append, cons_append] at tails
  exact absurd (cons.inj tails).1 (by decide)

omit contained in
/-- A last line that ended with a carriage return has become a closing marker. -/
theorem upsert_ne_of_pair (ends : Byte.lineFeed ∈ existing) (style : Eol.detect existing = .lf)
    (unpaired : ¬HasPair beginMarker endMarker existing) (paired : HasPair beginMarker endMarker (existing ++ [Byte.lineFeed])) :
    (upsert beginMarker endMarker (existing ++ ([Byte.lineFeed] ++ block beginMarker endMarker body .lf)) body : Outcome ε Str) ≠
      .ok (existing ++ ([Byte.lineFeed] ++ block beginMarker endMarker body .lf)) := by
  obtain ⟨before, opening, inner, closing, after, pair⟩ := paired.exists_firstPair markers.distinct
  have unclosed : ¬Closed Byte.lineFeed existing := fun closed => absurd (closed _ bare) (by decide)
  have closed : Closed Byte.lineFeed (existing ++ [Byte.lineFeed]) := by
    intro letter isLast
    rw [getLast?_concat] at isLast
    exact (Option.mem_some_iff.mp isLast).symm
  -- only the line with the added terminator can complete the pair
  have last : after = [] := by
    obtain ⟨front, line, rfl, frontClosed, some, free⟩ := exists_of_not_closed unclosed
    have cut := splitInclusive_cons_terminated ⟨line, free, rfl⟩ []
    rw [append_nil, splitInclusive] at cut
    have lines := pair.whole
    rw [append_assoc, splitInclusive_append frontClosed, cut] at lines
    rcases eq_nil_or_concat' after with none | ⟨others, piece, rfl⟩
    · exact none
    · have split : before ++ opening :: (inner ++ closing :: (others ++ [piece])) = (before ++ opening :: (inner ++ closing :: others)) ++ [piece] := by simp
      rw [split] at lines
      have early : CompletePair beginMarker endMarker (front.splitInclusive Byte.lineFeed) :=
        ⟨before, opening, inner, closing, others, (append_inj' lines rfl).1, pair.opens, pair.ends⟩
      have whole := early.append [line]
      rw [← splitInclusive_of_notMem some free, ← splitInclusive_append frontClosed] at whole
      exact absurd whole unpaired
  subst last
  have appended : FirstPair beginMarker endMarker
      ((existing ++ ([Byte.lineFeed] ++ block beginMarker endMarker body .lf)).splitInclusive Byte.lineFeed) before opening inner closing
      ((block beginMarker endMarker body .lf).splitInclusive Byte.lineFeed) := by
    refine ⟨?_, pair.earlier, pair.opens, pair.plain, pair.ends⟩
    rw [← append_assoc, splitInclusive_append closed, pair.whole]
    simp
  rw [appended.upsert_eq markers body, Eol.detect_append ends, style, flatten_splitInclusive, ← append_assoc, ← append_assoc]
  intro same
  have fronts := append_cancel_right (Except.ok.inj same)
  have split : block beginMarker endMarker body .lf = (beginMarker ++ (Eol.lf.asStr ++ body ++ endMarker)) ++ [Byte.lineFeed] := by
    simp [block, Eol.asStr, Eol.convert]
  rw [split, ← append_assoc] at fronts
  have texts := append_cancel_right fronts
  rw [← texts, ← append_assoc, ← append_assoc, getLast?_append_of_ne_nil _ markers.someClosing] at bare
  exact markers.closing.bare bare

end Disturbed

end ManagedBlock

open ManagedBlock in
/-- An edit touches only its block and is stable exactly when an added terminator changes nothing before it. -/
theorem upsert_stable_iff {ε : Type} {beginMarker endMarker body : Str} (markers : Markers beginMarker endMarker)
    (contained : BlockBody beginMarker endMarker body) (existing : Str) :
    (∃ installed, (upsert beginMarker endMarker existing body : Outcome ε Str) = .ok installed ∧
      Stable ε beginMarker endMarker existing body installed) ↔ Undisturbed beginMarker endMarker existing := by
  by_cases paired : HasPair beginMarker endMarker existing
  · refine iff_of_true ?_ (Or.inl paired)
    obtain ⟨before, opening, inner, closing, after, pair⟩ := paired.exists_firstPair markers.distinct
    exact ⟨_, pair.upsert_eq markers body, stable_of_firstPair markers contained pair⟩
  · constructor
    · rintro ⟨installed, done, stable⟩
      have again := stable.idempotent
      rw [upsert_of_unpaired markers.distinct paired] at done
      rw [← Except.ok.inj done] at again
      by_contra disturbed
      simp only [Undisturbed, not_or, not_not, not_and] at disturbed
      obtain ⟨-, bare, style, pairs⟩ := disturbed
      have unclosed : ¬Closed Byte.lineFeed existing := fun closed => absurd (closed _ bare) (by decide)
      have style' : Eol.detect existing = .lf := by
        cases same : Eol.detect existing with
        | lf => rfl
        | crlf => exact absurd same style
      rw [separator, if_neg unclosed, style'] at again
      by_cases ends : Byte.lineFeed ∈ existing
      · exact upsert_ne_of_pair markers bare ends style' paired (pairs ends) again
      · exact upsert_ne_of_first markers contained bare ends again
    · intro undisturbed
      obtain ⟨alone, style⟩ := separator_of_undisturbed undisturbed paired
      exact ⟨_, upsert_of_unpaired markers.distinct paired body, stable_of_unpaired markers contained paired alone style⟩

theorem markers_letters : Markers [0x42] [0x45] :=
  ⟨Utf8.Valid.of_ascii (Utf8.forall_mem_of_all (by decide)), Utf8.Valid.of_ascii (Utf8.forall_mem_of_all (by decide)),
    ⟨by decide, by decide⟩, ⟨by decide, by decide⟩, by decide, by decide, by decide⟩

theorem blockBody_letter : BlockBody [0x42] [0x45] [0x78, 0x0A] :=
  ⟨by decide, by simp [ManagedBlock.Plain, splitInclusive]; decide⟩

/-- The markers `B` and `E` around the line `x`. -/
theorem upsert_stable_iff_sample : Markers [0x42] [0x45] ∧ BlockBody [0x42] [0x45] [0x78, 0x0A] ∧
    ∃ installed, (ManagedBlock.upsert [0x42] [0x45] [0x61, 0x0D, 0x0A, 0x62] [0x78, 0x0A] : Outcome Empty Str) = .ok installed ∧
      ManagedBlock.Stable Empty [0x42] [0x45] [0x61, 0x0D, 0x0A, 0x62] [0x78, 0x0A] installed := by
  exact ⟨markers_letters, blockBody_letter, (upsert_stable_iff markers_letters blockBody_letter _).mpr (Or.inr (Or.inl (by decide)))⟩

/-- After `a` and a carriage return the block is in LF style, and the next edit writes it in CRLF style. -/
theorem upsert_not_idempotent : ¬∀ (beginMarker endMarker body existing : Str), Markers beginMarker endMarker →
    BlockBody beginMarker endMarker body →
      ∃ installed, (ManagedBlock.upsert beginMarker endMarker existing body : Outcome Empty Str) = .ok installed ∧
        ManagedBlock.Stable Empty beginMarker endMarker existing body installed := by
  intro stable
  obtain ⟨installed, done, stable⟩ := stable [0x42] [0x45] [0x78, 0x0A] [0x61, 0x0D] markers_letters blockBody_letter
  have first : (ManagedBlock.upsert [0x42] [0x45] [0x61, 0x0D] [0x78, 0x0A] : Outcome Empty Str) =
      .ok [0x61, 0x0D, 0x0A, 0x42, 0x0A, 0x78, 0x0A, 0x45, 0x0A] := by decide
  have second : (ManagedBlock.upsert [0x42] [0x45] [0x61, 0x0D, 0x0A, 0x42, 0x0A, 0x78, 0x0A, 0x45, 0x0A] [0x78, 0x0A] : Outcome Empty Str) =
      .ok [0x61, 0x0D, 0x0A, 0x42, 0x0D, 0x0A, 0x78, 0x0D, 0x0A, 0x45, 0x0D, 0x0A] := by decide
  have again := stable.idempotent
  rw [← Except.ok.inj (first.symm.trans done), second] at again
  exact absurd again (by decide)

end Gat
