import Gat.Proofs.Oid
import Gat.Proofs.Text

/-! # Escaped paths

The decoder's cursor over an escaped field computes a plain structural function, which in turn decides
the grammar's escape relation. Decoding a valid text never slices inside a character.
-/

namespace Gat

open LockFormat

/-- Decode an escaped path from its first byte on. -/
def unescape : Str → Option Str
  | [] => some []
  | byte :: rest =>
    if byte < 32 then none
    else if byte ≠ Byte.backslash then (unescape rest).map (byte :: ·)
    else
      match rest with
      | 0x78 :: high :: low :: rest => do
        let highValue ← nibble high
        let lowValue ← nibble low
        if 32 ≤ highValue * 16 + lowValue then none
        else (unescape rest).map ((highValue * 16 + lowValue) :: ·)
      | _ => none

theorem unescape_cons_literal {byte : UInt8} {rest : Str} (printable : ¬byte < 32)
    (plain : byte ≠ Byte.backslash) : unescape (byte :: rest) = (unescape rest).map (byte :: ·) := by
  conv_lhs => unfold unescape
  rw [if_neg printable, if_pos plain]

theorem unescape_cons_control {byte : UInt8} {rest : Str} (control : byte < 32) :
    unescape (byte :: rest) = none := by
  unfold unescape
  rw [if_pos control]

/-- The structural decoder accepts exactly the spellings of the grammar. -/
theorem unescape_eq_some_iff {escaped path : Str} : unescape escaped = some path ↔ Escapes escaped path := by
  constructor
  · intro decoded
    fun_induction unescape escaped generalizing path with
    | case1 =>
      cases decoded
      exact Escapes.nil
    | case2 => simp at decoded
    | case3 byte rest printable plain ih =>
      obtain ⟨tail, tailDecoded, rfl⟩ := Option.map_eq_some_iff.mp decoded
      exact Escapes.literal (not_lt.mp printable) plain (ih tailDecoded)
    | case4 byte printable plain high low rest ih =>
      obtain rfl : byte = Byte.backslash := not_not.mp plain
      simp only [Option.bind_eq_bind, Option.bind_eq_some_iff, nibble_eq_some_iff] at decoded
      obtain ⟨highValue, ⟨highBound, rfl⟩, lowValue, ⟨lowBound, rfl⟩, decoded⟩ := decoded
      split at decoded
      · simp at decoded
      · next isControl =>
          obtain ⟨tail, tailDecoded, rfl⟩ := Option.map_eq_some_iff.mp decoded
          exact Escapes.control lowBound (not_le.mp isControl) highBound (ih tailDecoded)
    | case5 => simp at decoded
  · intro spelled
    induction spelled with
    | nil => rfl
    | literal printable plain _ ih => rw [unescape_cons_literal (not_lt.mpr printable) plain, ih]; rfl
    | @control high low escaped path lowBound isControl highBound _ ih =>
      rw [unescape, if_neg (by decide), if_neg (by simp)]
      simp [nibble_hexDigit, lowBound, highBound, not_le.mpr isControl, ih]

private theorem Escapes.valid_after_digits {high low : UInt8} {rest : Str} (highBound : high < 16)
    (lowBound : low < 16) (valid : Utf8.Valid (0x78 :: hexDigit high :: hexDigit low :: rest)) :
    Utf8.Valid rest := by
  refine Utf8.Valid.of_ascii_append [0x78, hexDigit high, hexDigit low] ?_ valid
  simp only [List.forall_mem_cons, List.not_mem_nil, false_imp_iff, implies_true, and_true]
  exact ⟨by decide, hexDigit_ascii highBound, hexDigit_ascii lowBound⟩

/-- Decoding keeps the text valid, also behind any text that precedes it. -/
theorem LockFormat.Escapes.valid_append {escaped path : Str} (spelled : Escapes escaped path) (before : Str)
    (valid : Utf8.Valid (before ++ escaped)) : Utf8.Valid (before ++ path) := by
  induction spelled generalizing before with
  | nil => exact valid
  | @literal byte escaped path _ _ _ ih =>
    have grown := ih (before ++ [byte]) (by simpa using valid)
    simpa using grown
  | @control high low escaped path lowBound isControl highBound _ ih =>
    obtain ⟨beforeValid, rest⟩ := Utf8.Valid.split_ascii (by decide) valid
    have tail := Escapes.valid_after_digits highBound lowBound rest
    refine beforeValid.append (Utf8.Valid.cons_ascii ?_ (ih [] tail))
    exact lt_trans isControl (by decide)

theorem LockFormat.Escapes.valid {escaped path : Str} (spelled : Escapes escaped path)
    (valid : Utf8.Valid escaped) : Utf8.Valid path :=
  spelled.valid_append [] valid

/-- An escaped path contains no control byte. -/
theorem LockFormat.Escapes.printable {escaped path : Str} (spelled : Escapes escaped path) :
    ∀ byte ∈ escaped, 32 ≤ byte := by
  induction spelled with
  | nil => simp
  | literal printable _ _ ih => exact List.forall_mem_cons.mpr ⟨printable, ih⟩
  | @control high low escaped path lowBound isControl highBound _ ih =>
    have table : ∀ byte ∈ HEX_DIGITS, 32 ≤ byte := Utf8.forall_mem_of_all (by decide)
    simp only [List.forall_mem_cons]
    exact ⟨by decide, by decide, table _ (hexDigit_mem high highBound), table _ (hexDigit_mem low lowBound), ih⟩

/-- A field without special bytes spells itself. -/
theorem unescape_of_plain {field : Str} (plain : field.any isSpecial = false) : unescape field = some field := by
  induction field with
  | nil => rfl
  | cons byte rest ih =>
    rw [List.any_cons, Bool.or_eq_false_iff, isSpecial, Bool.or_eq_false_iff] at plain
    rw [unescape_cons_literal (by simpa using plain.1.1) (by simpa using plain.1.2), ih plain.2]
    rfl

/-- A special field without an escape has a raw control byte. -/
theorem unescape_of_control {field : Str} (special : field.any isSpecial = true)
    (plain : Byte.backslash ∉ field) : unescape field = none := by
  induction field with
  | nil => simp at special
  | cons byte rest ih =>
    simp only [List.mem_cons, not_or] at plain
    by_cases control : byte < 32
    · exact unescape_cons_control control
    · rw [List.any_cons, isSpecial] at special
      rw [unescape_cons_literal control (Ne.symm plain.1), ih _ plain.2]
      · rfl
      · simpa [control, Ne.symm plain.1] using special

/-- At a backslash the pending literal run is a span of the field, and the four bytes from the
backslash on decide the step. -/
private theorem decodeEscapedFrom_backslash (arena before literal rest : Str)
    (valid : Utf8.Valid (literal ++ Byte.backslash :: rest)) :
    decodeEscapedFrom (before ++ (literal ++ Byte.backslash :: rest)) arena before.length
        (before.length + literal.length) =
      if rest[0]? ≠ some 0x78 then .ok none
      else
        match rest[1]?.bind nibble, rest[2]?.bind nibble with
        | some high, some low =>
          if 32 ≤ high * 16 + low then .ok none
          else decodeEscapedFrom (before ++ (literal ++ Byte.backslash :: rest))
            (arena ++ literal ++ [high * 16 + low]) (before.length + literal.length + 4)
            (before.length + literal.length + 4)
        | _, _ => .ok none := by
  have spans : Str.Spans (before ++ (literal ++ Byte.backslash :: rest)) before.length literal := by
    refine ⟨before, _, rfl, rfl, Utf8.isBoundary_append valid, ?_⟩
    rw [← List.append_assoc, ← List.length_append]
    exact Utf8.isBoundary_before_ascii (by decide)
  have at_ (offset : ℕ) : (before ++ (literal ++ Byte.backslash :: rest))[before.length + literal.length + (offset + 1)]? =
      rest[offset]? := by
    rw [← List.append_assoc, ← List.length_append, List.getElem?_append_right (by omega), Nat.add_sub_cancel_left]
    rfl
  rw [decodeEscapedFrom, dif_pos (by simp), if_neg (by simp; decide), if_neg (by simp), spans.slice_eq,
    Outcome.ok_bind, at_ 0, at_ 1, at_ 2]
  rfl

/-- The cursor after the literal run `literal` decodes the remaining bytes. -/
private theorem decodeEscapedFrom_eq (arena before literal rest : Str)
    (valid : Utf8.Valid (literal ++ rest)) :
    decodeEscapedFrom (before ++ (literal ++ rest)) arena before.length (before.length + literal.length) =
      .ok ((unescape rest).map (arena ++ literal ++ ·)) := by
  fun_induction unescape rest generalizing arena before literal with
  | case1 =>
    rw [decodeEscapedFrom, dif_neg (by simp)]
    rw [List.append_nil] at valid ⊢
    rw [Str.Spans.sliceFrom_eq valid]
    simp
  | case2 byte rest control =>
    rw [decodeEscapedFrom, dif_pos (by simp), if_pos (by simpa using control)]
    rfl
  | case3 byte rest printable plain ih =>
    rw [decodeEscapedFrom, dif_pos (by simp), if_neg (by simpa using printable), if_pos (by simpa using plain)]
    have next := ih arena before (literal ++ [byte]) (by simpa using valid)
    simp only [List.append_assoc, List.cons_append, List.nil_append, List.length_append,
      List.length_singleton, ← Nat.add_assoc] at next
    rw [next]
    simp [Option.map_map, Function.comp_def]
  | case4 byte printable plain high low rest ih =>
    obtain rfl : byte = Byte.backslash := not_not.mp plain
    obtain ⟨literalValid, restValid⟩ := Utf8.Valid.split_ascii (by decide) valid
    rw [decodeEscapedFrom_backslash arena before literal _ valid, if_neg (by simp)]
    simp only [List.getElem?_cons_succ, List.getElem?_cons_zero, Option.bind_some]
    cases highDigit : nibble high with
    | none => simp
    | some highValue =>
      cases lowDigit : nibble low with
      | none => simp
      | some lowValue =>
        simp only [Option.bind_eq_bind, Option.bind_some]
        split
        · rfl
        · obtain ⟨highBound, rfl⟩ := nibble_eq_some_iff.mp highDigit
          obtain ⟨lowBound, rfl⟩ := nibble_eq_some_iff.mp lowDigit
          have next := ih (arena ++ literal ++ [highValue * 16 + lowValue])
            (before ++ literal ++ [Byte.backslash, 0x78, hexDigit highValue, hexDigit lowValue]) []
            (Escapes.valid_after_digits highBound lowBound restValid)
          simp only [List.append_assoc, List.cons_append, List.nil_append, List.length_append,
            List.length_cons, List.length_nil, Nat.add_zero, ← Nat.add_assoc] at next ⊢
          rw [next]
          simp [Option.map_map, Function.comp_def]
  | case5 byte rest printable plain malformed =>
    obtain rfl : byte = Byte.backslash := not_not.mp plain
    rw [decodeEscapedFrom_backslash arena before literal rest valid]
    rcases rest with _ | ⟨letter, _ | ⟨high, _ | ⟨low, rest⟩⟩⟩
    · simp
    · simp
    · simp
    · rw [if_pos (by simpa using fun same => malformed high low rest (by rw [same]))]
      rfl

/-- Decoding an escaped field of valid text appends exactly what the field spells. -/
theorem decodeEscaped_eq (arena : Str) {field : Str} (valid : Utf8.Valid field) :
    decodeEscaped field arena = .ok ((unescape field).map (arena ++ ·)) := by
  have whole := decodeEscapedFrom_eq arena [] [] field valid
  rw [decodeEscaped]
  simpa only [List.nil_append, List.length_nil, Nat.add_zero, List.append_nil] using whole

end Gat
