import Mathlib.Data.Fintype.Basic
import Gat.Model.LockFormat

/-! # Hexadecimal digests

The reader's pair decoder and the encoder agree with the grammar: decoding inverts encoding, and every
run of 64 lowercase digits spells one identifier.
-/

namespace Gat

open LockFormat

private theorem forall_half (property : UInt8 → Prop) (each : ∀ value : Fin 16, property (UInt8.ofNat value))
    (value : UInt8) (bound : value < 16) : property value := by
  have small : value.toNat < 16 := UInt8.lt_iff_toNat_lt.mp bound
  simpa using each ⟨value.toNat, small⟩

theorem nibble_hexDigit (value : UInt8) (bound : value < 16) : nibble (hexDigit value) = some value := by
  revert bound
  exact forall_half (fun value => nibble (hexDigit value) = some value) (by decide) value

theorem hexDigit_mem (value : UInt8) (bound : value < 16) : hexDigit value ∈ HEX_DIGITS := by
  revert bound
  exact forall_half (fun value => hexDigit value ∈ HEX_DIGITS) (by decide) value

private theorem nibble_table : ∀ byte ∈ HEX_DIGITS, ∃ value < 16, nibble byte = some value ∧ byte = hexDigit value := by
  have table : HEX_DIGITS = (List.range 16).map fun value => hexDigit (UInt8.ofNat value) := by decide
  intro byte member
  rw [table, List.mem_map] at member
  obtain ⟨value, listed, rfl⟩ := member
  have bound : UInt8.ofNat value < 16 := by
    have small := List.mem_range.mp listed
    rw [UInt8.lt_iff_toNat_lt, UInt8.toNat_ofNat']
    change value % 256 < 16
    omega
  exact ⟨_, bound, nibble_hexDigit _ bound, rfl⟩

/-- A byte has a digit value exactly when it is one of the sixteen lowercase digits. -/
theorem nibble_isSome_iff {byte : UInt8} : (nibble byte).isSome ↔ byte ∈ HEX_DIGITS := by
  constructor
  · intro some_
    have value : HEX_DIGITS = (List.range 10).map (fun value => UInt8.ofNat (0x30 + value)) ++
        (List.range 6).map (fun value => UInt8.ofNat (0x61 + value)) := by decide
    rw [value, List.mem_append, List.mem_map, List.mem_map]
    simp only [List.mem_range]
    unfold nibble at some_
    split at some_
    · next digit =>
        have lower := UInt8.le_iff_toNat_le.mp digit.1
        have upper := UInt8.le_iff_toNat_le.mp digit.2
        change 48 ≤ byte.toNat at lower
        change byte.toNat ≤ 57 at upper
        refine Or.inl ⟨byte.toNat - 0x30, by omega, ?_⟩
        rw [show 0x30 + (byte.toNat - 0x30) = byte.toNat by omega, UInt8.ofNat_toNat]
    · split at some_
      · next digit =>
          have lower := UInt8.le_iff_toNat_le.mp digit.1
          have upper := UInt8.le_iff_toNat_le.mp digit.2
          change 97 ≤ byte.toNat at lower
          change byte.toNat ≤ 102 at upper
          refine Or.inr ⟨byte.toNat - 0x61, by omega, ?_⟩
          rw [show 0x61 + (byte.toNat - 0x61) = byte.toNat by omega, UInt8.ofNat_toNat]
      · simp at some_
  · intro member
    obtain ⟨value, -, digit, -⟩ := nibble_table byte member
    rw [digit]
    rfl

theorem nibble_eq_some_iff {byte value : UInt8} :
    nibble byte = some value ↔ value < 16 ∧ byte = hexDigit value := by
  constructor
  · intro digit
    obtain ⟨other, bound, same, spelled⟩ :=
      nibble_table byte (nibble_isSome_iff.mp (by rw [digit]; rfl))
    rw [digit, Option.some.injEq] at same
    exact same ▸ ⟨bound, spelled⟩
  · rintro ⟨bound, rfl⟩
    exact nibble_hexDigit value bound

theorem shift_or (high : UInt8) (bound : high < 16) :
    ∀ low < 16, high <<< 4 ||| low = high * 16 + low :=
  forall_half (fun high => ∀ low < 16, high <<< 4 ||| low = high * 16 + low)
    (fun high => forall_half _ (by revert high; decide)) high bound

/-- A byte consists of its two halves. -/
theorem byte_halves (byte : UInt8) :
    byte >>> 4 < 16 ∧ byte &&& 0x0F < 16 ∧ (byte >>> 4) * 16 + (byte &&& 0x0F) = byte := by
  have every : ∀ value : Fin 256, (UInt8.ofNat value) >>> 4 < 16 ∧ (UInt8.ofNat value) &&& 0x0F < 16 ∧
      ((UInt8.ofNat value) >>> 4) * 16 + ((UInt8.ofNat value) &&& 0x0F) = UInt8.ofNat value := by
    decide +kernel
  simpa using every ⟨byte.toNat, byte.toNat_lt⟩

/-- The halves of a byte composed from two digit values are these values. -/
theorem halves_of_digits {high low : UInt8} (highBound : high < 16) (lowBound : low < 16) :
    (high * 16 + low) >>> 4 = high ∧ (high * 16 + low) &&& 0x0F = low := by
  refine forall_half (fun high => ∀ low < 16, (high * 16 + low) >>> 4 = high ∧ (high * 16 + low) &&& 0x0F = low)
    (fun high => forall_half _ (by revert high; decide)) high highBound low lowBound

theorem hexDigit_ascii {value : UInt8} (bound : value < 16) : Utf8.IsAscii (hexDigit value) := by
  have table : ∀ byte ∈ HEX_DIGITS, Utf8.IsAscii byte := Utf8.forall_mem_of_all (by decide)
  exact table _ (hexDigit_mem value bound)

/-- On complete pairs, decoding succeeds exactly on spelled digests. -/
theorem decodePairs_eq_some_iff {field : Str} {bytes : List UInt8} (even : 2 ∣ field.length) :
    decodePairs field = some bytes ↔ HexSpells field bytes := by
  fun_induction decodePairs field generalizing bytes with
  | case1 high low rest ih =>
    have evenRest : 2 ∣ rest.length := by
      simp only [List.length_cons] at even
      omega
    simp only [Option.bind_eq_bind, Option.bind_eq_some_iff, Option.some.injEq, nibble_eq_some_iff, ih evenRest]
    constructor
    · rintro ⟨highValue, ⟨highBound, rfl⟩, lowValue, ⟨lowBound, rfl⟩, tail, spelled, rfl⟩
      rw [shift_or highValue highBound lowValue lowBound]
      exact HexSpells.cons highBound lowBound spelled
    · rintro (_ | ⟨highBound, lowBound, spelled⟩)
      next highValue lowValue tail =>
        exact ⟨highValue, ⟨highBound, rfl⟩, lowValue, ⟨lowBound, rfl⟩, tail, spelled,
          by rw [shift_or highValue highBound lowValue lowBound]⟩
  | case2 field short =>
    have empty : field = [] := by
      rcases field with _ | ⟨high, _ | ⟨low, rest⟩⟩
      · rfl
      · exact absurd even (by simp)
      · exact absurd rfl (short high low rest)
    subst empty
    constructor
    · rintro ⟨⟩
      exact HexSpells.nil
    · rintro ⟨⟩
      rfl

theorem LockFormat.HexSpells.length_eq {digits bytes : List UInt8} (spelled : HexSpells digits bytes) :
    digits.length = 2 * bytes.length := by
  induction spelled with
  | nil => rfl
  | cons _ _ _ ih =>
    simp only [List.length_cons, ih]
    omega

theorem LockFormat.HexSpells.mem_hexDigits {digits bytes : List UInt8} (spelled : HexSpells digits bytes) :
    ∀ byte ∈ digits, byte ∈ HEX_DIGITS := by
  induction spelled with
  | nil => simp
  | cons highBound lowBound _ ih =>
    simp only [List.forall_mem_cons]
    exact ⟨hexDigit_mem _ highBound, hexDigit_mem _ lowBound, ih⟩

/-- A digest has only one spelling and spells only one digest. -/
theorem LockFormat.HexSpells.eq_iff {digits bytes digits' bytes' : List UInt8} (spelled : HexSpells digits bytes)
    (other : HexSpells digits' bytes') : digits = digits' ↔ bytes = bytes' := by
  induction spelled generalizing digits' bytes' with
  | nil => cases other <;> simp
  | @cons high low digits bytes highBound lowBound _ ih =>
    cases other with
    | nil => simp
    | @cons high' low' digits' bytes' highBound' lowBound' rest =>
      simp only [List.cons.injEq, ← and_assoc, ih rest]
      refine and_congr_left fun _ => ⟨?_, fun same => ?_⟩
      · rintro ⟨sameHigh, sameLow⟩
        have first := congrArg nibble sameHigh
        have second := congrArg nibble sameLow
        rw [nibble_hexDigit _ highBound, nibble_hexDigit _ highBound', Option.some.injEq] at first
        rw [nibble_hexDigit _ lowBound, nibble_hexDigit _ lowBound', Option.some.injEq] at second
        rw [first, second]
      · have value := congrArg UInt8.toNat same
        simp only [UInt8.toNat_add, UInt8.toNat_mul, UInt8.lt_iff_toNat_lt] at *
        change high.toNat < 16 at highBound
        change low.toNat < 16 at lowBound
        change high'.toNat < 16 at highBound'
        change low'.toNat < 16 at lowBound'
        change (high.toNat * 16 % 256 + low.toNat) % 256 = (high'.toNat * 16 % 256 + low'.toNat) % 256 at value
        have sameHigh : high = high' := UInt8.toNat_inj.mp (by omega)
        have sameLow : low = low' := UInt8.toNat_inj.mp (by omega)
        rw [sameHigh, sameLow]
        exact ⟨rfl, rfl⟩

/-- One byte, spelled. -/
def spellByte (byte : UInt8) : Str := [hexDigit (byte >>> 4), hexDigit (byte &&& 0xF)]

theorem hexSpells_spellByte (byte : UInt8) : HexSpells (spellByte byte) [byte] := by
  obtain ⟨highBound, lowBound, whole⟩ := byte_halves byte
  have spelled := HexSpells.cons highBound lowBound .nil
  rw [whole] at spelled
  exact spelled

theorem valid_of_hexSpells {digits : Str} {bytes : List UInt8} (spelled : HexSpells digits bytes) : Utf8.Valid digits := by
  refine Utf8.Valid.of_ascii fun byte member => ?_
  induction spelled with
  | nil => simp at member
  | cons highBound lowBound rest ih =>
    rcases List.mem_cons.mp member with rfl | member
    · exact hexDigit_ascii highBound
    rcases List.mem_cons.mp member with rfl | member
    · exact hexDigit_ascii lowBound
    · exact ih member

/-- Two digits decode to the byte that they spell. -/
theorem nibbles_eq_some_iff {high low byte : UInt8} :
    ((nibble high).bind fun highValue => (nibble low).bind fun lowValue => some (highValue * 16 + lowValue)) = some byte ↔
      [high, low] = spellByte byte := by
  simp only [Option.bind_eq_some_iff, Option.some.injEq, nibble_eq_some_iff]
  constructor
  · rintro ⟨highValue, ⟨highBound, rfl⟩, lowValue, ⟨lowBound, rfl⟩, rfl⟩
    exact ((HexSpells.cons highBound lowBound .nil).eq_iff (hexSpells_spellByte _)).mpr rfl
  · intro spelled
    obtain ⟨highBound, lowBound, whole⟩ := byte_halves byte
    simp only [spellByte, List.cons.injEq, and_true] at spelled
    exact ⟨_, ⟨highBound, spelled.1⟩, _, ⟨lowBound, spelled.2⟩, whole⟩

private theorem hexSpells_flatMap (bytes : List UInt8) :
    HexSpells (bytes.flatMap fun byte : UInt8 => [hexDigit (byte >>> 4), hexDigit (byte &&& 0x0F)]) bytes := by
  induction bytes with
  | nil => exact HexSpells.nil
  | cons byte bytes ih =>
    obtain ⟨highBound, lowBound, whole⟩ := byte_halves byte
    have spelled := HexSpells.cons highBound lowBound ih
    rw [whole] at spelled
    exact spelled

theorem hexSpells_encodeHex (oid : Oid) : HexSpells oid.encodeHex oid.bytes :=
  hexSpells_flatMap oid.bytes

theorem hexSpells_iff {digits : Str} {oid : Oid} : HexSpells digits oid.bytes ↔ digits = oid.encodeHex :=
  ⟨fun spelled => (spelled.eq_iff (hexSpells_encodeHex oid)).mpr rfl, fun same => same ▸ hexSpells_encodeHex oid⟩

@[simp] theorem Oid.encodeHex_length (oid : Oid) : oid.encodeHex.length = 64 := by
  rw [(hexSpells_encodeHex oid).length_eq, oid.width]

theorem Oid.encodeHex_injective : Function.Injective Oid.encodeHex := by
  intro left right same
  exact Oid.ext (((hexSpells_encodeHex left).eq_iff (hexSpells_encodeHex right)).mp same)

theorem decodeHash_eq_some_iff {hash : HashField} {oid : Oid} :
    decodeHash hash = some oid ↔ hash.val = oid.encodeHex := by
  have even : 2 ∣ hash.val.length := by rw [hash.property]; decide
  rw [← hexSpells_iff, ← decodePairs_eq_some_iff even]
  unfold decodeHash
  split
  · next missing => simp [missing]
  · next bytes decoded => simp [decoded, Oid.ext_iff]

private theorem decodePairs_isSome {field : Str} (digits : ∀ byte ∈ field, byte ∈ HEX_DIGITS) :
    (decodePairs field).isSome := by
  fun_induction decodePairs field with
  | case1 high low rest ih =>
    simp only [List.forall_mem_cons, ← nibble_isSome_iff, Option.isSome_iff_exists] at digits
    obtain ⟨⟨highValue, highDigit⟩, ⟨lowValue, lowDigit⟩, others⟩ := digits
    obtain ⟨bytes, decoded⟩ := Option.isSome_iff_exists.mp
      (ih fun byte member => nibble_isSome_iff.mp (Option.isSome_iff_exists.mpr (others byte member)))
    simp [highDigit, lowDigit, decoded]
  | case2 => rfl

/-- The digest fields of the grammar are exactly the runs of 64 lowercase hexadecimal digits. -/
theorem exists_hexSpells_iff {digits : Str} :
    (∃ oid : Oid, HexSpells digits oid.bytes) ↔ digits.length = 64 ∧ ∀ byte ∈ digits, byte ∈ HEX_DIGITS := by
  constructor
  · rintro ⟨oid, spelled⟩
    exact ⟨by rw [spelled.length_eq, oid.width], spelled.mem_hexDigits⟩
  · rintro ⟨width, each⟩
    obtain ⟨bytes, decoded⟩ := Option.isSome_iff_exists.mp (decodePairs_isSome each)
    have spelled := (decodePairs_eq_some_iff (by rw [width]; decide)).mp decoded
    exact ⟨⟨bytes, by rw [decodePairs_length decoded, width]⟩, spelled⟩

theorem decodeHash_eq_none_iff {hash : HashField} :
    decodeHash hash = none ↔ ∃ byte ∈ hash.val, byte ∉ HEX_DIGITS := by
  rw [Option.eq_none_iff_forall_ne_some]
  constructor
  · intro missing
    by_contra each
    push Not at each
    obtain ⟨oid, spelled⟩ := exists_hexSpells_iff.mpr ⟨hash.property, each⟩
    exact missing oid (decodeHash_eq_some_iff.mpr (hexSpells_iff.mp spelled))
  · rintro ⟨byte, member, invalid⟩ oid decoded
    have spelled := hexSpells_iff.mpr (decodeHash_eq_some_iff.mp decoded)
    exact invalid (spelled.mem_hexDigits byte member)

end Gat
