import Gat.Model.ManagedBlock
import Gat.Proofs.Text

/-! # The scan for marker lines

What the scan finds is the first pair of marker lines with nothing between them that is a marker line itself, and
the lines before it hold no pair.
-/

open List

namespace Gat

/-- Text of one line, whatever terminator follows. -/
structure SingleLine (text : Str) : Prop where
  free : Byte.lineFeed ∉ text
  bare : text.getLast? ≠ some Byte.carriageReturn

/-! ## Terminators -/

theorem stripTerminator_of_free {line : Str} (free : Byte.lineFeed ∉ line) : stripTerminator line = line := by
  have none : line.stripSuffix [Byte.lineFeed] = none := by
    cases found : line.stripSuffix [Byte.lineFeed] with
    | none => rfl
    | some rest =>
      rw [Str.stripSuffix_eq_some_iff.mp found] at free
      exact absurd (by simp) free
  rw [stripTerminator, none]

theorem stripTerminator_lineFeed (text : Str) : stripTerminator (text ++ [Byte.lineFeed]) = text.trimCarriageReturn := by
  have found : (text ++ [Byte.lineFeed]).stripSuffix [Byte.lineFeed] = some text := Str.stripSuffix_eq_some_iff.mpr rfl
  rw [stripTerminator, found]
  dsimp only
  rcases Str.trimCarriageReturn_cases text with framed | ⟨bare, ends⟩
  · rw [Str.stripSuffix_eq_some_iff.mpr framed, Option.getD_some]
  · have none : text.stripSuffix [Byte.carriageReturn] = none := by
      cases found : text.stripSuffix [Byte.carriageReturn] with
      | none => rfl
      | some rest =>
        rw [Str.stripSuffix_eq_some_iff.mp found, getLast?_concat] at ends
        exact absurd rfl ends
    rw [none, Option.getD_none, bare]

theorem SingleLine.stripTerminator {text : Str} (single : SingleLine text) (eol : Eol) : stripTerminator (text ++ eol.asStr) = text := by
  cases eol with
  | lf =>
    rw [Eol.asStr, stripTerminator_lineFeed]
    exact if_neg single.bare
  | crlf =>
    rw [Eol.asStr, append_cons, stripTerminator_lineFeed, Str.trimCarriageReturn_append]

/-- A terminated line is its text with one of the terminators. -/
theorem Terminated.exists_eol {line : Str} (terminated : Terminated Byte.lineFeed line) : ∃ eol : Eol, line = Gat.stripTerminator line ++ eol.asStr := by
  obtain ⟨text, -, rfl⟩ := terminated
  rw [stripTerminator_lineFeed]
  rcases Str.trimCarriageReturn_cases text with framed | ⟨bare, -⟩
  · refine ⟨.crlf, ?_⟩
    conv_lhs => rw [framed]
    simp [Eol.asStr]
  · exact ⟨.lf, by rw [bare]; rfl⟩

theorem SingleLine.terminated {text : Str} (single : SingleLine text) (eol : Eol) : Terminated Byte.lineFeed (text ++ eol.asStr) := by
  cases eol with
  | lf => exact ⟨text, single.free, rfl⟩
  | crlf =>
    refine ⟨text ++ [Byte.carriageReturn], ?_, by simp [Eol.asStr]⟩
    rw [mem_append, not_or, mem_singleton]
    exact ⟨single.free, by decide⟩

theorem stripLeadingTerminator_asStr (eol : Eol) (text : Str) : ManagedBlock.stripLeadingTerminator (eol.asStr ++ text) = text := by
  cases eol with
  | lf =>
    have none : (Eol.lf.asStr ++ text).stripPrefix [Byte.carriageReturn, Byte.lineFeed] = none := by
      rw [Str.stripPrefix_eq_none_iff]
      intro rest same
      have first := congrArg head? same
      exact absurd first (by simp [Eol.asStr, Byte.lineFeed, Byte.carriageReturn])
    have found : (Eol.lf.asStr ++ text).stripPrefix [Byte.lineFeed] = some text := Str.stripPrefix_eq_some_iff.mpr rfl
    rw [ManagedBlock.stripLeadingTerminator, none, found]
    rfl
  | crlf =>
    have found : (Eol.crlf.asStr ++ text).stripPrefix [Byte.carriageReturn, Byte.lineFeed] = some text := Str.stripPrefix_eq_some_iff.mpr rfl
    rw [ManagedBlock.stripLeadingTerminator, found]
    rfl

/-! ## The style -/

namespace Eol

theorem detect_of_free {text : Str} (free : Byte.lineFeed ∉ text) : detect text = .lf := by
  have none : text.findIdx? (· = Byte.lineFeed) = none := by
    rw [findIdx?_eq_none_iff]
    intro byte member
    exact decide_eq_false fun same => free (same ▸ member)
  rw [detect, none]

/-- The first line decides. -/
theorem detect_first {line : Str} (free : Byte.lineFeed ∉ line) (rest : Str) :
    detect (line ++ Byte.lineFeed :: rest) = if line.getLast? = some Byte.carriageReturn then .crlf else .lf := by
  have none : line.findIdx? (· = Byte.lineFeed) = none := by
    rw [findIdx?_eq_none_iff]
    intro byte member
    exact decide_eq_false fun same => free (same ▸ member)
  have found : (line ++ Byte.lineFeed :: rest).findIdx? (· = Byte.lineFeed) = some line.length := by
    rw [findIdx?_append, none, findIdx?_cons, if_pos (decide_eq_true rfl)]
    simp
  rw [detect, found]
  dsimp only
  rw [take_left]

theorem detect_append {text : Str} (ends : Byte.lineFeed ∈ text) (rest : Str) : detect (text ++ rest) = detect text := by
  obtain ⟨line, others, rfl, free⟩ := eq_append_cons_of_mem ends
  rw [append_assoc, cons_append, detect_first free, detect_first free]

/-- A single line takes the style of its terminator. -/
theorem detect_asStr {text : Str} (single : SingleLine text) (eol : Eol) (rest : Str) : detect (text ++ (eol.asStr ++ rest)) = eol := by
  cases eol with
  | lf => exact (detect_first single.free rest).trans (if_neg single.bare)
  | crlf =>
    have free : Byte.lineFeed ∉ text ++ [Byte.carriageReturn] := by
      rw [mem_append, not_or, mem_singleton]
      exact ⟨single.free, by decide⟩
    have whole : text ++ (crlf.asStr ++ rest) = (text ++ [Byte.carriageReturn]) ++ Byte.lineFeed :: rest := by simp [asStr]
    rw [whole, detect_first free, if_pos getLast?_concat]

end Eol

namespace ManagedBlock

variable {beginMarker endMarker : Str}

/-! ## The scan -/

/-- The opening marker that is unmatched after some lines. -/
def openAfter (beginMarker : Str) : List Str → Option ℕ → ℕ → Option ℕ
  | [], start, _ => start
  | line :: lines, start, offset =>
    openAfter beginMarker lines (if stripTerminator line = beginMarker then some offset else start) (offset + line.length)

/-- No line is a marker. -/
def Plain (beginMarker endMarker : Str) (lines : List Str) : Prop :=
  ∀ line ∈ lines, stripTerminator line ≠ beginMarker ∧ stripTerminator line ≠ endMarker

theorem scanMarkers_cons_begin {line : Str} (begins : stripTerminator line = beginMarker) (lines : List Str) (start : Option ℕ) (offset : ℕ) :
    scanMarkers beginMarker endMarker (line :: lines) start offset =
      scanMarkers beginMarker endMarker lines (some offset) (offset + line.length) := by
  conv_lhs => unfold scanMarkers
  exact if_pos begins

theorem scanMarkers_cons_end {line : Str} (other : stripTerminator line ≠ beginMarker) (ends : stripTerminator line = endMarker)
    (lines : List Str) (start offset : ℕ) : scanMarkers beginMarker endMarker (line :: lines) (some start) offset = some (start, offset) := by
  unfold scanMarkers
  exact (if_neg other).trans (if_pos ends)

theorem scanMarkers_cons_other {line : Str} {start : Option ℕ} (other : stripTerminator line ≠ beginMarker)
    (unfinished : start = none ∨ stripTerminator line ≠ endMarker) (lines : List Str) (offset : ℕ) :
    scanMarkers beginMarker endMarker (line :: lines) start offset = scanMarkers beginMarker endMarker lines start (offset + line.length) := by
  conv_lhs => unfold scanMarkers
  refine (if_neg other).trans ?_
  cases start with
  | none => rfl
  | some start => exact if_neg (unfinished.resolve_left nofun)

theorem scanMarkers_append_of_some {before : List Str} {start : Option ℕ} {offset : ℕ} {found : ℕ × ℕ}
    (scanned : scanMarkers beginMarker endMarker before start offset = some found) (after : List Str) :
    scanMarkers beginMarker endMarker (before ++ after) start offset = some found := by
  induction before generalizing start offset with
  | nil => cases scanned
  | cons line before ih =>
    rw [cons_append]
    by_cases begins : stripTerminator line = beginMarker
    · rw [scanMarkers_cons_begin begins] at scanned ⊢
      exact ih scanned
    · by_cases unfinished : start = none ∨ stripTerminator line ≠ endMarker
      · rw [scanMarkers_cons_other begins unfinished] at scanned ⊢
        exact ih scanned
      · rw [not_or, not_not, ← ne_eq, Option.ne_none_iff_exists'] at unfinished
        obtain ⟨⟨position, rfl⟩, ends⟩ := unfinished
        rw [scanMarkers_cons_end begins ends] at scanned ⊢
        exact scanned

theorem scanMarkers_append_of_none {before : List Str} {start : Option ℕ} {offset : ℕ}
    (scanned : scanMarkers beginMarker endMarker before start offset = none) (after : List Str) :
    scanMarkers beginMarker endMarker (before ++ after) start offset =
      scanMarkers beginMarker endMarker after (openAfter beginMarker before start offset) (offset + before.flatten.length) := by
  induction before generalizing start offset with
  | nil => rfl
  | cons line before ih =>
    rw [cons_append, openAfter, flatten_cons, length_append, ← Nat.add_assoc]
    by_cases begins : stripTerminator line = beginMarker
    · rw [if_pos begins]
      rw [scanMarkers_cons_begin begins] at scanned ⊢
      exact ih scanned
    · rw [if_neg begins]
      by_cases unfinished : start = none ∨ stripTerminator line ≠ endMarker
      · rw [scanMarkers_cons_other begins unfinished] at scanned ⊢
        exact ih scanned
      · rw [not_or, not_not, ← ne_eq, Option.ne_none_iff_exists'] at unfinished
        obtain ⟨⟨position, rfl⟩, ends⟩ := unfinished
        rw [scanMarkers_cons_end begins ends] at scanned
        cases scanned

/-- A marker stays open when a line of it is there. -/
theorem isSome_openAfter_iff {lines : List Str} {start : Option ℕ} {offset : ℕ} :
    (openAfter beginMarker lines start offset).isSome ↔ start.isSome ∨ ∃ line ∈ lines, stripTerminator line = beginMarker := by
  induction lines generalizing start offset with
  | nil => simp [openAfter]
  | cons line lines ih =>
    rw [openAfter, ih]
    simp only [mem_cons, exists_eq_or_imp]
    by_cases begins : stripTerminator line = beginMarker
    · simp [begins]
    · simp [begins]

/-- Behind an opening marker, plain lines and a closing marker are a pair. -/
theorem scanMarkers_of_plain (distinct : beginMarker ≠ endMarker) {inner : List Str} (plain : Plain beginMarker endMarker inner) {closing : Str}
    (ends : stripTerminator closing = endMarker) (after : List Str) (start offset : ℕ) :
    scanMarkers beginMarker endMarker (inner ++ closing :: after) (some start) offset = some (start, offset + inner.flatten.length) := by
  induction inner generalizing offset with
  | nil => exact scanMarkers_cons_end (ends ▸ Ne.symm distinct) ends after start offset
  | cons line inner ih =>
    rw [Plain, forall_mem_cons] at plain
    rw [cons_append, scanMarkers_cons_other plain.1.1 (Or.inr plain.1.2), ih plain.2, flatten_cons, length_append, Nat.add_assoc]

/-- A pair that the scan finds starts in the scanned lines or before them. -/
theorem exists_of_scanMarkers {lines : List Str} {start : Option ℕ} {offset first last : ℕ}
    (scanned : scanMarkers beginMarker endMarker lines start offset = some (first, last)) :
    (∃ before opening inner closing after, lines = before ++ opening :: (inner ++ closing :: after) ∧
      scanMarkers beginMarker endMarker before start offset = none ∧ stripTerminator opening = beginMarker ∧
      Plain beginMarker endMarker inner ∧ stripTerminator closing = endMarker ∧ first = offset + before.flatten.length ∧
      last = first + opening.length + inner.flatten.length) ∨
    start = some first ∧ ∃ inner closing after, lines = inner ++ closing :: after ∧ Plain beginMarker endMarker inner ∧
      stripTerminator closing = endMarker ∧ last = offset + inner.flatten.length := by
  induction lines generalizing start offset with
  | nil => cases scanned
  | cons line lines ih =>
    by_cases begins : stripTerminator line = beginMarker
    · rw [scanMarkers_cons_begin begins] at scanned
      rcases ih scanned with ⟨before, opening, inner, closing, after, rfl, earlier, opens, plain, ends, rfl, rfl⟩ | ⟨same, inner, closing, after, rfl, plain, ends, rfl⟩
      · refine Or.inl ⟨line :: before, opening, inner, closing, after, rfl, ?_, opens, plain, ends, ?_, ?_⟩
        · rw [scanMarkers_cons_begin begins]
          exact earlier
        · rw [flatten_cons, length_append, Nat.add_assoc]
        · rfl
      · cases same
        exact Or.inl ⟨[], line, inner, closing, after, rfl, rfl, begins, plain, ends, rfl, rfl⟩
    · by_cases unfinished : start = none ∨ stripTerminator line ≠ endMarker
      · rw [scanMarkers_cons_other begins unfinished] at scanned
        rcases ih scanned with ⟨before, opening, inner, closing, after, rfl, earlier, opens, plain, ends, rfl, rfl⟩ | ⟨rfl, inner, closing, after, rfl, plain, ends, rfl⟩
        · refine Or.inl ⟨line :: before, opening, inner, closing, after, rfl, ?_, opens, plain, ends, ?_, ?_⟩
          · rw [scanMarkers_cons_other begins unfinished]
            exact earlier
          · rw [flatten_cons, length_append, Nat.add_assoc]
          · rfl
        · refine Or.inr ⟨rfl, line :: inner, closing, after, rfl, ?_, ends, ?_⟩
          · exact forall_mem_cons.mpr ⟨⟨begins, unfinished.resolve_left nofun⟩, plain⟩
          · rw [flatten_cons, length_append, Nat.add_assoc]
      · rw [not_or, not_not, ← ne_eq, Option.ne_none_iff_exists'] at unfinished
        obtain ⟨⟨position, rfl⟩, ends⟩ := unfinished
        rw [scanMarkers_cons_end begins ends] at scanned
        cases scanned
        exact Or.inr ⟨rfl, [], line, lines, rfl, nofun, ends, rfl⟩

/-- Lines with an opening marker and a closing marker behind it. -/
def CompletePair (beginMarker endMarker : Str) (lines : List Str) : Prop :=
  ∃ before opening inner closing after, lines = before ++ opening :: (inner ++ closing :: after) ∧
    stripTerminator opening = beginMarker ∧ stripTerminator closing = endMarker

/-- The lines `inside` are the first complete pair with what it encloses. -/
structure FirstPair (beginMarker endMarker : Str) (lines before : List Str) (opening : Str) (inner : List Str) (closing : Str) (after : List Str) : Prop where
  whole : lines = before ++ opening :: (inner ++ closing :: after)
  earlier : ¬CompletePair beginMarker endMarker before
  opens : stripTerminator opening = beginMarker
  plain : Plain beginMarker endMarker inner
  ends : stripTerminator closing = endMarker

theorem not_completePair_iff (distinct : beginMarker ≠ endMarker) {lines : List Str} {offset : ℕ} :
    ¬CompletePair beginMarker endMarker lines ↔ scanMarkers beginMarker endMarker lines none offset = none := by
  constructor
  · intro unpaired
    rw [Option.eq_none_iff_forall_ne_some]
    rintro ⟨first, last⟩ scanned
    rcases exists_of_scanMarkers scanned with ⟨before, opening, inner, closing, after, whole, -, opens, -, ends, -, -⟩ | ⟨start, -⟩
    · exact unpaired ⟨before, opening, inner, closing, after, whole, opens, ends⟩
    · cases start
  · rintro scanned ⟨before, opening, inner, closing, after, rfl, opens, ends⟩
    have split : before ++ opening :: (inner ++ closing :: after) = (before ++ opening :: inner) ++ closing :: after := by simp
    rw [split] at scanned
    cases front : scanMarkers beginMarker endMarker (before ++ opening :: inner) none offset with
    | some found =>
      rw [scanMarkers_append_of_some front] at scanned
      cases scanned
    | none =>
      have opened : (openAfter beginMarker (before ++ opening :: inner) none offset).isSome :=
        isSome_openAfter_iff.mpr (Or.inr ⟨opening, by simp, opens⟩)
      obtain ⟨start, found⟩ := Option.isSome_iff_exists.mp opened
      rw [scanMarkers_append_of_none front, found, scanMarkers_cons_end (ends ▸ Ne.symm distinct) ends] at scanned
      cases scanned

theorem CompletePair.exists_firstPair (distinct : beginMarker ≠ endMarker) {lines : List Str} (pair : CompletePair beginMarker endMarker lines) :
    ∃ before opening inner closing after, FirstPair beginMarker endMarker lines before opening inner closing after := by
  have found : scanMarkers beginMarker endMarker lines none 0 ≠ none := fun none => (not_completePair_iff distinct).mpr none pair
  obtain ⟨⟨first, last⟩, scanned⟩ := Option.ne_none_iff_exists'.mp found
  rcases exists_of_scanMarkers scanned with ⟨before, opening, inner, closing, after, whole, earlier, opens, plain, ends, -, -⟩ | ⟨start, -⟩
  · exact ⟨before, opening, inner, closing, after, whole, (not_completePair_iff distinct).mpr earlier, opens, plain, ends⟩
  · cases start

theorem FirstPair.completePair {lines before inner after : List Str} {opening closing : Str}
    (pair : FirstPair beginMarker endMarker lines before opening inner closing after) : CompletePair beginMarker endMarker lines :=
  ⟨before, opening, inner, closing, after, pair.whole, pair.opens, pair.ends⟩

theorem FirstPair.scanMarkers_eq (distinct : beginMarker ≠ endMarker) {lines before inner after : List Str} {opening closing : Str}
    (pair : FirstPair beginMarker endMarker lines before opening inner closing after) :
    scanMarkers beginMarker endMarker lines none 0 =
      some (before.flatten.length, before.flatten.length + opening.length + inner.flatten.length) := by
  have earlier : scanMarkers beginMarker endMarker before none 0 = none := (not_completePair_iff distinct).mp pair.earlier
  rw [pair.whole, scanMarkers_append_of_none earlier, scanMarkers_cons_begin pair.opens, scanMarkers_of_plain distinct pair.plain pair.ends,
    Nat.zero_add]

end ManagedBlock

/-! ## Converted bodies -/

namespace Eol

theorem convert_append (eol : Eol) (first second : Str) : eol.convert (first ++ second) = eol.convert first ++ eol.convert second := by
  cases eol with
  | lf => rfl
  | crlf => exact flatMap_append

theorem convert_of_free (eol : Eol) {text : Str} (free : Byte.lineFeed ∉ text) : eol.convert text = text := by
  cases eol with
  | lf => rfl
  | crlf =>
    induction text with
    | nil => rfl
    | cons byte text ih =>
      rw [mem_cons, not_or] at free
      have rest := ih free.2
      rw [convert] at rest ⊢
      rw [flatMap_cons, if_neg (Ne.symm free.1), rest, singleton_append]

theorem convert_terminated (eol : Eol) {text : Str} (free : Byte.lineFeed ∉ text) :
    eol.convert (text ++ [Byte.lineFeed]) = text ++ eol.asStr := by
  rw [convert_append, convert_of_free eol free]
  cases eol <;> rfl

theorem convert_flatten (eol : Eol) (lines : List Str) : eol.convert lines.flatten = (lines.map eol.convert).flatten := by
  induction lines with
  | nil => cases eol <;> rfl
  | cons line lines ih => rw [flatten_cons, convert_append, ih, map_cons, flatten_cons]

/-- Conversion keeps the lines of a terminated text apart. -/
theorem terminated_convert (eol : Eol) {line : Str} (terminated : Terminated Byte.lineFeed line) : Terminated Byte.lineFeed (eol.convert line) := by
  obtain ⟨text, free, rfl⟩ := terminated
  rw [convert_terminated eol free]
  cases eol with
  | lf => exact ⟨text, free, rfl⟩
  | crlf =>
    refine ⟨text ++ [Byte.carriageReturn], ?_, by simp [asStr]⟩
    rw [mem_append, not_or, mem_singleton]
    exact ⟨free, by decide⟩

theorem splitInclusive_convert (eol : Eol) {body : Str} (closed : Closed Byte.lineFeed body) :
    (eol.convert body).splitInclusive Byte.lineFeed = (body.splitInclusive Byte.lineFeed).map eol.convert := by
  have cut : Pieces Byte.lineFeed ((body.splitInclusive Byte.lineFeed).map eol.convert ++ []) := by
    refine Pieces.append (forall_mem_map.mpr fun line member => ?_) .nil
    exact terminated_convert eol (closed.terminated line member)
  have whole := cut.splitInclusive_flatten
  rwa [append_nil, ← convert_flatten, flatten_splitInclusive] at whole

theorem closed_convert (eol : Eol) {body : Str} (closed : Closed Byte.lineFeed body) : Closed Byte.lineFeed (eol.convert body) := by
  rw [← flatten_splitInclusive Byte.lineFeed (eol.convert body), splitInclusive_convert eol closed]
  refine closed_of_terminated (forall_mem_map.mpr fun line member => ?_)
  exact terminated_convert eol (closed.terminated line member)

/-- A converted line is a single line only when the line is the same one. -/
theorem stripTerminator_convert (eol : Eol) {line marker : Str} (terminated : Terminated Byte.lineFeed line) (single : SingleLine marker)
    (same : stripTerminator (eol.convert line) = marker) : stripTerminator line = marker := by
  cases eol with
  | lf => exact same
  | crlf =>
    obtain ⟨text, free, rfl⟩ := terminated
    rw [convert_terminated _ free, asStr, append_cons, stripTerminator_lineFeed, Str.trimCarriageReturn_append] at same
    rw [stripTerminator_lineFeed, same]
    exact if_neg single.bare

end Eol

end Gat
