import Gat.Model.LockReader

/-! # The lock-v1 grammar

The documented format, stated over texts and decoded rows without reference to the reader. A digest
is 64 lowercase hexadecimal digits, an escaped path spells exactly the control characters as `\xhh`,
and the rows of a file are strictly ordered canonical paths without an ancestor pair.
-/

namespace Gat.LockFormat

open AncestorFree

/-- Lowercase digit pairs spell bytes, high half first. -/
inductive HexSpells : Str → List UInt8 → Prop where
  | nil : HexSpells [] []
  | cons {high low : UInt8} {digits bytes : List UInt8} (highBound : high < 16) (lowBound : low < 16)
      (rest : HexSpells digits bytes) :
      HexSpells (hexDigit high :: hexDigit low :: digits) ((high * 16 + low) :: bytes)

/-- An escaped path spells a decoded one: controls as `\xhh` with lowercase digits, no other
backslash, and everything else literally. -/
inductive Escapes : Str → Str → Prop where
  | nil : Escapes [] []
  | literal {byte : UInt8} {escaped path : Str} (printable : 32 ≤ byte) (plain : byte ≠ Byte.backslash)
      (rest : Escapes escaped path) : Escapes (byte :: escaped) (byte :: path)
  | control {high low : UInt8} {escaped path : Str} (lowBound : low < 16) (isControl : high * 16 + low < 32)
      (highBound : high < 16) (rest : Escapes escaped path) :
      Escapes (Byte.backslash :: 0x78 :: hexDigit high :: hexDigit low :: escaped)
        ((high * 16 + low) :: path)

/-- A record ends in LF or CRLF. -/
def IsTerminator (terminator : Str) : Prop :=
  terminator = [Byte.lineFeed] ∨ terminator = [Byte.carriageReturn, Byte.lineFeed]

/-- Canonical paths are nonempty and have only ordinary components without backslashes. -/
def IsCanonical (path : Str) : Prop :=
  path ≠ [] ∧ ∀ component ∈ path.splitOn Byte.slash,
    component ≠ [] ∧ component ≠ ascii "." ∧ component ≠ ascii ".." ∧ Byte.backslash ∉ component

/-- One record: 64 hexadecimal digits, TAB, the escaped path and the terminator. -/
def Record (record path : Str) (oid : Oid) : Prop :=
  ∃ digits escaped terminator, record = digits ++ Byte.tab :: (escaped ++ terminator) ∧
    HexSpells digits oid.bytes ∧ Escapes escaped path ∧ IsTerminator terminator

/-- A sequence of records. -/
inductive Records : Str → List (Str × Oid) → Prop where
  | nil : Records [] []
  | cons {record rest path : Str} {oid : Oid} {rows : List (Str × Oid)} (head : Record record path oid)
      (tail : Records rest rows) : Records (record ++ rest) ((path, oid) :: rows)

/-- A new row keeps the order strict and introduces no ancestor pair. -/
def Extends (rows : List (Str × Oid)) (path : Str) : Prop :=
  ∀ row ∈ rows, row.1 < path ∧ ¬IsAncestor Byte.slash row.1 path

/-- A complete lock file and the rows it denotes. -/
structure Document (text : Str) (rows : List (Str × Oid)) : Prop where
  framed : ∃ terminator body, text = VERSION ++ terminator ++ body ∧ IsTerminator terminator ∧
    Records body rows
  canonical : ∀ row ∈ rows, IsCanonical row.1
  ordered : (rows.map Prod.fst).Pairwise (· < ·)
  separated : Separated Byte.slash (rows.map Prod.fst)

end Gat.LockFormat
