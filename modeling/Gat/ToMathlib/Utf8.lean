import Mathlib.Tactic.Common

/-! # Cutting UTF-8 byte sequences

Core encodes characters but its strings are opaque to byte-level slicing proofs. Here a UTF-8 text is
the list of its bytes. A text may be cut wherever the next byte does not continue a character, and
cutting at an ASCII byte always leaves two texts.
-/

namespace Utf8

open List

/-- The bytes encode some sequence of characters. -/
def Valid (bytes : List UInt8) : Prop :=
  ∃ chars : List Char, bytes = chars.flatMap String.utf8EncodeChar

/-- The byte continues a character begun earlier. -/
def IsContinuation (byte : UInt8) : Prop := 0x80 ≤ byte ∧ byte < 0xC0

/-- The byte is a character of its own. -/
def IsAscii (byte : UInt8) : Prop := byte < 0x80

instance (byte : UInt8) : Decidable (IsContinuation byte) := inferInstanceAs (Decidable (_ ∧ _))

instance (byte : UInt8) : Decidable (IsAscii byte) := inferInstanceAs (Decidable (_ < _))

instance (bytes : List UInt8) : Decidable (Valid bytes) :=
  decidable_of_iff (bytes.toByteArray.validateUTF8 = true) <| by
    rw [ByteArray.validateUTF8_eq_true_iff]
    constructor
    · rintro ⟨chars, encoded⟩
      refine ⟨chars, ?_⟩
      have same := congrArg (fun array : ByteArray => array.data.toList) encoded
      simpa only [List.utf8Encode, List.toList_data_toByteArray] using same
    · rintro ⟨chars, rfl⟩
      exact ⟨chars, rfl⟩

/-- The text may be cut at the index: it is an end of the text or a character starts there. -/
def IsBoundary (bytes : List UInt8) (index : ℕ) : Prop :=
  index = 0 ∨ index = bytes.length ∨ ∃ byte ∈ bytes[index]?, ¬IsContinuation byte

instance (bytes : List UInt8) (index : ℕ) : Decidable (IsBoundary bytes index) :=
  inferInstanceAs (Decidable (_ ∨ _ ∨ _))

/-- A table of bytes is checked entry by entry. -/
theorem forall_mem_of_all {property : UInt8 → Prop} [DecidablePred property] {bytes : List UInt8}
    (every : bytes.all (fun byte => decide (property byte)) = true) : ∀ byte ∈ bytes, property byte :=
  fun byte member => of_decide_eq_true (all_eq_true.mp every byte member)

/-! ## Encoded characters -/

private theorem continuation_ofNat (value : ℕ) : IsContinuation (UInt8.ofNat (value % 64 + 128)) := by
  have bound := Nat.mod_lt value (show 0 < 64 by decide)
  simp only [IsContinuation, UInt8.le_iff_toNat_le, UInt8.lt_iff_toNat_lt, UInt8.toNat_ofNat']
  rw [Nat.mod_eq_of_lt (by omega)]
  change 128 ≤ _ ∧ _ < 192
  omega

private theorem lead_ofNat (value : ℕ) (lower : 192 ≤ value) (upper : value < 256) :
    ¬IsContinuation (UInt8.ofNat value) ∧ ¬IsAscii (UInt8.ofNat value) := by
  simp only [IsContinuation, IsAscii, UInt8.le_iff_toNat_le, UInt8.lt_iff_toNat_lt, UInt8.toNat_ofNat']
  rw [Nat.mod_eq_of_lt (by omega)]
  change ¬(128 ≤ _ ∧ _ < 192) ∧ ¬_ < 128
  omega

/-- A character is one byte that starts it and bytes that continue it, none of them when the first
byte is ASCII. -/
theorem encodeChar_shape (char : Char) :
    ∃ lead rest, String.utf8EncodeChar char = lead :: rest ∧ ¬IsContinuation lead ∧
      (∀ byte ∈ rest, IsContinuation byte) ∧ (IsAscii lead → rest = []) := by
  unfold String.utf8EncodeChar
  dsimp only
  split
  · next ascii =>
      refine ⟨_, [], rfl, ?_, by simp, fun _ => rfl⟩
      simp only [IsContinuation, UInt8.le_iff_toNat_le, UInt8.toNat_ofNat']
      rw [Nat.mod_eq_of_lt (by omega)]
      change ¬(128 ≤ _ ∧ _)
      omega
  · split
    · have lead := lead_ofNat (char.val.toNat / 64 % 32 + 192) (by omega) (by omega)
      exact ⟨_, _, rfl, lead.1, by simp only [forall_mem_cons, continuation_ofNat, not_mem_nil, false_imp_iff, implies_true, and_self], fun ascii => absurd ascii lead.2⟩
    · split
      · have lead := lead_ofNat (char.val.toNat / 4096 % 16 + 224) (by omega) (by omega)
        exact ⟨_, _, rfl, lead.1, by simp only [forall_mem_cons, continuation_ofNat, not_mem_nil, false_imp_iff, implies_true, and_self], fun ascii => absurd ascii lead.2⟩
      · have lead := lead_ofNat (char.val.toNat / 262144 % 8 + 240) (by omega) (by omega)
        exact ⟨_, _, rfl, lead.1, by simp only [forall_mem_cons, continuation_ofNat, not_mem_nil, false_imp_iff, implies_true, and_self], fun ascii => absurd ascii lead.2⟩

private theorem not_continuation_of_ascii {byte : UInt8} (ascii : IsAscii byte) :
    ¬IsContinuation byte := by
  rintro ⟨lower, -⟩
  exact absurd ascii (UInt8.not_lt.mpr lower)

theorem encodeChar_of_ascii {byte : UInt8} (ascii : IsAscii byte) :
    String.utf8EncodeChar (Char.ofNat byte.toNat) = [byte] := by
  have bound : byte.toNat < 128 := UInt8.lt_iff_toNat_lt.mp ascii
  have value : (Char.ofNat byte.toNat).val.toNat = byte.toNat := by
    have valid : byte.toNat.isValidChar := Or.inl (by omega)
    rw [Char.ofNat, dif_pos valid]
    rfl
  unfold String.utf8EncodeChar
  dsimp only
  rw [value, if_pos (by omega), UInt8.ofNat_toNat]

/-- A character is one ASCII byte, or no byte of it is ASCII. -/
theorem encodeChar_cases (char : Char) :
    (∃ byte, IsAscii byte ∧ char = Char.ofNat byte.toNat ∧ String.utf8EncodeChar char = [byte]) ∨
      ∀ byte ∈ String.utf8EncodeChar char, ¬IsAscii byte := by
  obtain ⟨lead, rest, encoded, -, continues, single⟩ := encodeChar_shape char
  by_cases ascii : IsAscii lead
  · obtain rfl := single ascii
    refine .inl ⟨lead, ascii, ?_, encoded⟩
    have same : String.utf8EncodeChar char = String.utf8EncodeChar (Char.ofNat lead.toNat) := encoded.trans (encodeChar_of_ascii ascii).symm
    have decoded : some #[char] = some #[Char.ofNat lead.toNat] := by
      rw [← List.utf8Decode?_utf8Encode, ← List.utf8Decode?_utf8Encode]
      simp only [List.utf8Encode, List.flatMap_singleton, same]
    simpa using decoded
  · refine .inr fun byte member => ?_
    rw [encoded] at member
    rcases List.mem_cons.mp member with rfl | member
    · exact ascii
    · exact fun low => not_continuation_of_ascii low (continues byte member)

/-! ## Building and cutting texts -/

@[simp] theorem Valid.nil : Valid [] := ⟨[], rfl⟩

theorem Valid.append {left right : List UInt8} (first : Valid left) (second : Valid right) :
    Valid (left ++ right) := by
  obtain ⟨leftChars, rfl⟩ := first
  obtain ⟨rightChars, rfl⟩ := second
  exact ⟨leftChars ++ rightChars, by rw [flatMap_append]⟩

theorem Valid.cons_ascii {byte : UInt8} {bytes : List UInt8} (ascii : IsAscii byte)
    (valid : Valid bytes) : Valid (byte :: bytes) := by
  obtain ⟨chars, rfl⟩ := valid
  exact ⟨Char.ofNat byte.toNat :: chars, by rw [flatMap_cons, encodeChar_of_ascii ascii]; rfl⟩

/-- A sequence of ASCII bytes is a text. -/
theorem Valid.of_ascii {bytes : List UInt8} (ascii : ∀ byte ∈ bytes, IsAscii byte) : Valid bytes := by
  induction bytes with
  | nil => exact Valid.nil
  | cons byte bytes ih =>
    exact Valid.cons_ascii (ascii byte mem_cons_self) (ih fun other member => ascii other (mem_cons_of_mem _ member))

/-- A text starts with a byte that starts a character. -/
theorem Valid.head_not_continuation {byte : UInt8} {bytes : List UInt8}
    (valid : Valid (byte :: bytes)) : ¬IsContinuation byte := by
  obtain ⟨chars, encoded⟩ := valid
  cases chars with
  | nil => simp at encoded
  | cons char chars =>
    obtain ⟨lead, rest, shape, starts, -⟩ := encodeChar_shape char
    rw [flatMap_cons, shape, cons_append, cons.injEq] at encoded
    exact encoded.1 ▸ starts

@[simp] theorem isBoundary_zero (bytes : List UInt8) : IsBoundary bytes 0 := Or.inl rfl

@[simp] theorem isBoundary_length (bytes : List UInt8) : IsBoundary bytes bytes.length :=
  Or.inr (Or.inl rfl)

/-- The end of a text inside a longer one is a place to cut. -/
theorem isBoundary_append {left right : List UInt8} (valid : Valid right) :
    IsBoundary (left ++ right) left.length := by
  cases right with
  | nil => exact Or.inr (Or.inl (by simp))
  | cons head rest => exact Or.inr (Or.inr ⟨head, by simp, valid.head_not_continuation⟩)

theorem isBoundary_before {left right : List UInt8} (valid : Valid right) (some : right ≠ []) (more : List UInt8) :
    IsBoundary (left ++ (right ++ more)) left.length := by
  cases right with
  | nil => exact absurd rfl some
  | cons head rest => exact Or.inr (Or.inr ⟨head, by simp, valid.head_not_continuation⟩)

theorem isBoundary_before_ascii {left right : List UInt8} {byte : UInt8} (ascii : IsAscii byte) :
    IsBoundary (left ++ byte :: right) left.length :=
  Or.inr (Or.inr ⟨byte, by simp, not_continuation_of_ascii ascii⟩)

/-- An ASCII byte is a whole character, so a text splits around each of its occurrences. -/
theorem Valid.split_ascii {left right : List UInt8} {byte : UInt8} (ascii : IsAscii byte)
    (valid : Valid (left ++ byte :: right)) : Valid left ∧ Valid right := by
  obtain ⟨chars, encoded⟩ := valid
  induction chars generalizing left with
  | nil => simp at encoded
  | cons char chars ih =>
    obtain ⟨lead, rest, shape, -, continues, single⟩ := encodeChar_shape char
    have lengths := congrArg length encoded
    rw [flatMap_cons] at encoded
    rcases append_eq_append_iff.mp encoded with ⟨middle, whole, tail⟩ | ⟨middle, whole, tail⟩
    · -- the byte lies inside the encoding of the first character
      cases middle with
      | nil =>
        rw [append_nil] at whole
        obtain ⟨-, after⟩ := ih (show [] ++ byte :: right = _ by simpa using tail)
        exact ⟨⟨[char], by simp [whole]⟩, after⟩
      | cons inner middle =>
        rw [cons_append, cons.injEq] at tail
        obtain ⟨rfl, tail⟩ := tail
        cases left with
        | nil =>
          rw [nil_append, shape, cons.injEq] at whole
          obtain ⟨rfl, rfl⟩ := whole
          obtain rfl := single ascii
          exact ⟨Valid.nil, chars, tail⟩
        | cons first left =>
          rw [shape, cons_append, cons.injEq] at whole
          have inside : byte ∈ rest := by rw [whole.2]; simp
          exact absurd (continues byte inside) (not_continuation_of_ascii ascii)
    · obtain ⟨before, after⟩ := ih tail.symm
      exact ⟨whole ▸ Valid.append ⟨[char], by simp⟩ before, after⟩

/-- Removing a leading run of ASCII bytes leaves a text. -/
theorem Valid.of_ascii_append (left : List UInt8) {right : List UInt8} (ascii : ∀ byte ∈ left, IsAscii byte)
    (valid : Valid (left ++ right)) : Valid right := by
  induction left with
  | nil => exact valid
  | cons byte left ih =>
    refine ih (fun other member => ascii other (mem_cons_of_mem _ member)) ?_
    exact (Valid.split_ascii (ascii byte mem_cons_self) (show Valid ([] ++ byte :: (left ++ right)) from valid)).2

/-! ## Characters in order -/

private theorem ofNat_lt_ofNat {first second : ℕ} (firstBound : first < 256) (secondBound : second < 256) :
    UInt8.ofNat first < UInt8.ofNat second ↔ first < second := by
  rw [UInt8.lt_iff_toNat_lt, UInt8.toNat_ofNat', UInt8.toNat_ofNat', Nat.mod_eq_of_lt firstBound, Nat.mod_eq_of_lt secondBound]

private theorem ofNat_eq_ofNat {first second : ℕ} (firstBound : first < 256) (secondBound : second < 256) :
    UInt8.ofNat first = UInt8.ofNat second ↔ first = second := by
  rw [← UInt8.toNat_inj, UInt8.toNat_ofNat', UInt8.toNat_ofNat', Nat.mod_eq_of_lt firstBound, Nat.mod_eq_of_lt secondBound]

/-- Bytes order texts by the first character in which they differ. -/
theorem encodeChar_append_lt {first second : Char} (below : first < second) (rest rest' : List UInt8) :
    String.utf8EncodeChar first ++ rest < String.utf8EncodeChar second ++ rest' := by
  have values : first.val.toNat < second.val.toNat := below
  have firstBound : first.val.toNat < 0x110000 := by rcases first.valid with small | ⟨-, large⟩ <;> omega
  have secondBound : second.val.toNat < 0x110000 := by rcases second.valid with small | ⟨-, large⟩ <;> omega
  unfold String.utf8EncodeChar
  dsimp only
  generalize first.val.toNat = low at *
  generalize second.val.toNat = high at *
  -- the leading digits that agree decide which byte differs first
  have sixth := Nat.lt_or_ge (low / 64) (high / 64)
  have twelfth := Nat.lt_or_ge (low / 4096) (high / 4096)
  have eighteenth := Nat.lt_or_ge (low / 262144) (high / 262144)
  have lowLead : low / 262144 % 8 = low / 262144 := by omega
  have highLead : high / 262144 % 8 = high / 262144 := by omega
  split_ifs <;> simp (disch := omega) only [cons_append, nil_append, cons_lt_cons_iff, ofNat_lt_ofNat, ofNat_eq_ofNat] <;> omega

/-- The characters of a text. -/
def chars (bytes : List UInt8) : List Char := (bytes.toByteArray.utf8Decode?.getD #[]).toList

theorem flatMap_chars {bytes : List UInt8} (valid : Valid bytes) : (chars bytes).flatMap String.utf8EncodeChar = bytes := by
  obtain ⟨encoded, rfl⟩ := valid
  have decoded : (encoded.flatMap String.utf8EncodeChar).toByteArray.utf8Decode? = some encoded.toArray :=
    List.utf8Decode?_utf8Encode
  rw [chars, decoded]
  rfl

theorem chars_flatMap (letters : List Char) : chars (letters.flatMap String.utf8EncodeChar) = letters := by
  have decoded : (letters.flatMap String.utf8EncodeChar).toByteArray.utf8Decode? = some letters.toArray :=
    List.utf8Decode?_utf8Encode
  rw [chars, decoded]
  rfl

theorem chars_append {left right : List UInt8} (first : Valid left) (second : Valid right) : chars (left ++ right) = chars left ++ chars right := by
  obtain ⟨before, rfl⟩ := first
  obtain ⟨after, rfl⟩ := second
  rw [← List.flatMap_append, chars_flatMap, chars_flatMap, chars_flatMap]

/-- An ASCII byte of a text is a character of it. -/
theorem mem_chars_of_ascii {bytes : List UInt8} (valid : Valid bytes) {byte : UInt8} (ascii : IsAscii byte) (member : byte ∈ bytes) :
    Char.ofNat byte.toNat ∈ chars bytes := by
  rw [← flatMap_chars valid, mem_flatMap] at member
  obtain ⟨char, listed, encoded⟩ := member
  rcases encodeChar_cases char with ⟨single, -, rfl, same⟩ | none'
  · rw [same, mem_singleton] at encoded
    exact encoded ▸ listed
  · exact absurd ascii (none' byte encoded)

/-- A character of a text is encoded in it. -/
theorem encodeChar_subset {bytes : List UInt8} (valid : Valid bytes) {letter : Char} (member : letter ∈ chars bytes) :
    String.utf8EncodeChar letter ⊆ bytes := by
  intro byte encoded
  rw [← flatMap_chars valid]
  exact mem_flatMap.mpr ⟨letter, member, encoded⟩

end Utf8
