import Gat.Proofs.EscapedPath
import Gat.Proofs.LexicalPath

/-! # Records and their fields

A record is determined by the text it starts: its digest ends at the TAB in column 64, its path field
at the first LF, and one CR before that LF belongs to the terminator. The row kernel finds exactly
these fields.
-/

namespace Gat

open LockFormat

/-- The first match splits a list around it. -/
theorem findIdx?_eq_some_iff_split {α : Type} {matches_ : α → Bool} {items : List α} {index : ℕ} :
    items.findIdx? matches_ = some index ↔ ∃ before item after, items = before ++ item :: after ∧
      before.length = index ∧ matches_ item ∧ ∀ other ∈ before, matches_ other = false := by
  induction items generalizing index with
  | nil => simp
  | cons first items ih =>
    rw [List.findIdx?_cons]
    by_cases here : matches_ first
    · rw [if_pos here, Option.some.injEq]
      constructor
      · rintro rfl
        exact ⟨[], first, items, rfl, rfl, here, by simp⟩
      · rintro ⟨before, item, after, split, rfl, -, none_⟩
        cases before with
        | nil => rfl
        | cons head before =>
          obtain ⟨rfl, -⟩ := List.cons.inj split
          exact absurd here (by simp [none_ first List.mem_cons_self])
    · rw [if_neg here, Option.map_eq_some_iff]
      constructor
      · rintro ⟨rest, found, rfl⟩
        obtain ⟨before, item, after, rfl, rfl, here', none_⟩ := ih.mp found
        exact ⟨first :: before, item, after, rfl, rfl, here',
          List.forall_mem_cons.mpr ⟨by simpa using here, none_⟩⟩
      · rintro ⟨before, item, after, split, rfl, here', none_⟩
        cases before with
        | nil =>
          obtain ⟨rfl, -⟩ := List.cons.inj split
          exact absurd here' here
        | cons head before =>
          obtain ⟨rfl, rfl⟩ := List.cons.inj split
          exact ⟨before.length, ih.mpr ⟨before, item, after, rfl, rfl, here', (List.forall_mem_cons.mp none_).2⟩, rfl⟩

/-- A kernel returns the digest, the field before the first LF and whether it has special bytes. -/
theorem scalar_eq_some_iff {hash : HashField} {path : Str} {oid : Oid} {len : ℕ} {special : Bool} :
    scalar hash path = some (oid, len, special) ↔
      hash.val = oid.encodeHex ∧ ∃ raw after, path = raw ++ Byte.lineFeed :: after ∧ raw.length = len ∧
        Byte.lineFeed ∉ raw ∧ special = (Str.trimCarriageReturn raw).any isSpecial := by
  unfold scalar
  simp only [Option.bind_eq_bind, Option.bind_eq_some_iff, decodeHash_eq_some_iff, Option.some.injEq, Prod.mk.injEq,
    findIdx?_eq_some_iff_split, decide_eq_true_eq, decide_eq_false_iff_not]
  constructor
  · rintro ⟨found, spelled, stop, ⟨raw, item, after, rfl, rfl, rfl, absent⟩, rfl, rfl, rfl⟩
    refine ⟨spelled, raw, after, rfl, rfl, fun member => absent _ member rfl, ?_⟩
    rw [List.take_left]
  · rintro ⟨spelled, raw, after, rfl, rfl, absent, rfl⟩
    refine ⟨oid, spelled, raw.length, ⟨raw, _, after, rfl, rfl, rfl, fun other member same => absent (same ▸ member)⟩, rfl, rfl, ?_⟩
    rw [List.take_left]

theorem scalar_eq_none_iff {hash : HashField} {path : Str} :
    scalar hash path = none ↔ decodeHash hash = none ∨ Byte.lineFeed ∉ path := by
  unfold scalar
  cases decodeHash hash with
  | none => simp
  | some oid =>
    have absent : path.findIdx? (fun byte => decide (byte = Byte.lineFeed)) = none ↔ Byte.lineFeed ∉ path := by
      rw [List.findIdx?_eq_none_iff]
      exact ⟨fun none_ member => absurd (none_ _ member) (by simp),
        fun missing byte member => decide_eq_false fun same => missing (same ▸ member)⟩
    rw [← absent]
    cases path.findIdx? fun byte => decide (byte = Byte.lineFeed) <;> simp

private theorem escapes_no_lineFeed {escaped path : Str} (spelled : Escapes escaped path) :
    Byte.lineFeed ∉ escaped :=
  fun member => absurd (spelled.printable _ member) (by decide)

private theorem escapes_no_trailing_carriageReturn {escaped path : Str} (spelled : Escapes escaped path) :
    escaped.getLast? ≠ some Byte.carriageReturn :=
  fun ends => absurd (spelled.printable _ (List.mem_of_getLast? ends)) (by decide)

private theorem trimCarriageReturn_escaped {escaped path : Str} (spelled : Escapes escaped path) :
    Str.trimCarriageReturn escaped = escaped := by
  unfold Str.trimCarriageReturn
  rw [if_neg (escapes_no_trailing_carriageReturn spelled)]

/-- The parts before the first occurrence of a letter are equal. -/
private theorem append_cons_inj_of_notMem {letter : UInt8} {left right after after' : Str}
    (same : left ++ letter :: after = right ++ letter :: after') (leftFree : letter ∉ left)
    (rightFree : letter ∉ right) : left = right ∧ after = after' := by
  induction left generalizing right with
  | nil =>
    cases right with
    | nil => simpa using same
    | cons head right =>
      obtain ⟨rfl, -⟩ := List.cons.inj same
      exact absurd List.mem_cons_self rightFree
  | cons first left ih =>
    cases right with
    | nil =>
      obtain ⟨rfl, -⟩ := List.cons.inj same
      exact absurd List.mem_cons_self leftFree
    | cons head right =>
      obtain ⟨rfl, tails⟩ := List.cons.inj same
      obtain ⟨rfl, rfl⟩ := ih tails (fun member => leftFree (List.mem_cons_of_mem _ member))
        (fun member => rightFree (List.mem_cons_of_mem _ member))
      exact ⟨rfl, rfl⟩

/-- The raw field of a record is its escaped path, up to a framing CR. -/
private theorem record_raw {record path : Str} {oid : Oid} (spelled : Record record path oid) :
    ∃ raw, record = oid.encodeHex ++ Byte.tab :: (raw ++ [Byte.lineFeed]) ∧ Byte.lineFeed ∉ raw ∧
      Escapes (Str.trimCarriageReturn raw) path := by
  obtain ⟨digits, escaped, terminator, rfl, hex, escapes, rfl | rfl⟩ := spelled
  · rw [hexSpells_iff.mp hex]
    exact ⟨escaped, rfl, escapes_no_lineFeed escapes, by rwa [trimCarriageReturn_escaped escapes]⟩
  · rw [hexSpells_iff.mp hex]
    refine ⟨escaped ++ [Byte.carriageReturn], by simp, ?_, by rwa [Str.trimCarriageReturn_append]⟩
    rw [List.mem_append, List.mem_singleton]
    rintro (member | same)
    · exact escapes_no_lineFeed escapes member
    · exact absurd same (by decide)

theorem record_of_fields {raw path : Str} {oid : Oid} (escapes : Escapes (Str.trimCarriageReturn raw) path) :
    Record (oid.encodeHex ++ Byte.tab :: (raw ++ [Byte.lineFeed])) path oid := by
  rcases Str.trimCarriageReturn_cases raw with framed | ⟨bare, -⟩
  · refine ⟨oid.encodeHex, Str.trimCarriageReturn raw, [Byte.carriageReturn, Byte.lineFeed], ?_,
      hexSpells_encodeHex oid, escapes, Or.inr rfl⟩
    conv_lhs => rw [framed]
    simp
  · exact ⟨oid.encodeHex, raw, [Byte.lineFeed], rfl, hexSpells_encodeHex oid, bare ▸ escapes, Or.inl rfl⟩

/-- A text starts with a record exactly when its fields spell it. -/
theorem record_append_iff {hash raw after : Str} (rest path : Str) (oid : Oid) (width : hash.length = 64)
    (absent : Byte.lineFeed ∉ raw) :
    (∃ record, hash ++ Byte.tab :: (raw ++ Byte.lineFeed :: after) = record ++ rest ∧ Record record path oid) ↔
      hash = oid.encodeHex ∧ Escapes (Str.trimCarriageReturn raw) path ∧ rest = after := by
  constructor
  · rintro ⟨record, same, spelled⟩
    obtain ⟨raw', rfl, absent', escapes⟩ := record_raw spelled
    rw [List.append_assoc] at same
    obtain ⟨rfl, remaining⟩ := List.append_inj same (by rw [width, Oid.encodeHex_length])
    have tails := List.cons.inj remaining
    have fields : raw ++ Byte.lineFeed :: after = raw' ++ Byte.lineFeed :: rest := by simpa using tails.2
    obtain ⟨rfl, rfl⟩ := append_cons_inj_of_notMem fields absent absent'
    exact ⟨rfl, escapes, rfl⟩
  · rintro ⟨rfl, escapes, rfl⟩
    exact ⟨_, by simp, record_of_fields escapes⟩

/-- A record has a TAB in column 64 and an LF after it. -/
theorem record_shape {text record rest path : Str} {oid : Oid} (same : text = record ++ rest)
    (spelled : Record record path oid) : ∃ raw, text = oid.encodeHex ++ Byte.tab :: (raw ++ Byte.lineFeed :: rest) ∧
      Byte.lineFeed ∉ raw := by
  obtain ⟨raw, rfl, absent, -⟩ := record_raw spelled
  exact ⟨raw, by rw [same]; simp, absent⟩

theorem records_nil {text : Str} (records : Records text []) : text = [] := by
  generalize same : ([] : List (Str × Oid)) = rows at records
  cases records with
  | nil => rfl
  | cons => simp at same

theorem records_head {text : Str} {row : Str × Oid} {rows : List (Str × Oid)} (records : Records text (row :: rows)) :
    ∃ record after, text = record ++ after ∧ Record record row.1 row.2 := by
  cases records with
  | cons head _ => exact ⟨_, _, rfl, head⟩

/-- The first record of a text determines its first row and what remains. -/
theorem records_cons {record after path : Str} {oid : Oid} {rows : List (Str × Oid)}
    (head : Record record path oid) (records : Records (record ++ after) rows) :
    ∃ tail, rows = (path, oid) :: tail ∧ Records after tail := by
  obtain ⟨raw, shape, absent⟩ := record_shape rfl head
  have fields := (record_append_iff after path oid oid.encodeHex_length absent).mp
    ⟨record, shape.symm, head⟩
  generalize same : record ++ after = text at records
  cases records with
  | nil =>
    rw [shape] at same
    simp at same
  | @cons record' after' path' oid' rows' head' tail' =>
    rw [shape] at same
    obtain ⟨hex, escapes, rfl⟩ := (record_append_iff _ _ _ oid.encodeHex_length absent).mp ⟨record', same, head'⟩
    obtain rfl := Oid.encodeHex_injective hex
    have samePath := (unescape_eq_some_iff.mpr fields.2.1).symm.trans (unescape_eq_some_iff.mpr escapes)
    rw [Option.some.injEq] at samePath
    exact ⟨rows', by rw [samePath], tail'⟩

/-- A text denotes at most one sequence of rows. -/
theorem records_unique {text : Str} {rows rows' : List (Str × Oid)} (first : Records text rows)
    (second : Records text rows') : rows = rows' := by
  induction first generalizing rows' with
  | nil =>
    generalize same : ([] : Str) = text at second
    cases second with
    | nil => rfl
    | cons head tail =>
      obtain ⟨raw, shape, -⟩ := record_shape same head
      simp at shape
  | cons head _ ih =>
    obtain ⟨tail, rfl, records⟩ := records_cons head second
    rw [ih records]

end Gat
