import Gat.Model.Text

/-! # Content identifiers

A content identifier is 32 raw bytes and is spelled as 64 lowercase hexadecimal digits.
-/

namespace Gat

structure Oid where
  bytes : List UInt8
  width : bytes.length = 32
deriving DecidableEq

/-- The digest that repeats one byte. -/
def Oid.filled (byte : UInt8) : Oid := ⟨List.replicate 32 byte, List.length_replicate⟩

def HEX_DIGITS : Str := ascii "0123456789abcdef"

/-- `HEX_DIGITS[value as usize]`, whose index is a half byte. -/
def hexDigit (value : UInt8) : UInt8 := HEX_DIGITS.getD value.toNat 0

def nibble (byte : UInt8) : Option UInt8 :=
  if 0x30 ≤ byte ∧ byte ≤ 0x39 then some (byte - 0x30)
  else if 0x61 ≤ byte ∧ byte ≤ 0x66 then some (byte - 0x61 + 10)
  else none

namespace Oid

@[ext] theorem ext {left right : Oid} (same : left.bytes = right.bytes) : left = right := by
  cases left
  cases right
  cases same
  rfl

/-- The lowercase hexadecimal spelling, high half first. -/
def encodeHex (oid : Oid) : Str :=
  oid.bytes.flatMap fun byte : UInt8 => [hexDigit (byte >>> 4), hexDigit (byte &&& 0x0F)]

end Oid

end Gat
