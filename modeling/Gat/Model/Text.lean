import Gat.ToMathlib.ListLex
import Gat.ToMathlib.Utf8
import Mathlib.Data.Finset.Defs

/-! # Byte-indexed text

Rust text is a UTF-8 byte sequence addressed by byte offsets. Slicing it panics outside the text or
inside a character, and every panic is kept as an outcome of its own, so that a function that never
panics has to be proved so.
-/

namespace Gat

/-- The bytes of a Rust `str`. -/
abbrev Str := List UInt8

namespace Str

/-! A finite set of texts is sorted with these. -/

instance instIsTransLe : IsTrans Str (· ≤ ·) := inferInstance

instance instAntisymmLe : Std.Antisymm fun left right : Str => left ≤ right := inferInstance

instance instTotalLe : Std.Total fun left right : Str => left ≤ right := inferInstance

end Str

/-- A call ends with an error value or by panicking when it does not return. -/
inductive Fault (ε : Type) where
  | error (value : ε)
  | panic
deriving DecidableEq, Repr

abbrev Outcome (ε α : Type) := Except (Fault ε) α

namespace Outcome

variable {ε α : Type}

def fail (value : ε) : Outcome ε α := .error (.error value)

def panic : Outcome ε α := .error .panic

end Outcome

/-- The order in which a hash set is iterated. -/
structure HashOrder (α : Type) where
  list : Finset α → List α
  nodup : ∀ items, (list items).Nodup
  mem_list : ∀ items item, item ∈ list items ↔ item ∈ items

/-- The bytes of an ASCII literal. -/
def ascii (literal : String) : Str := literal.toList.map (fun char => char.val.toUInt8)

/-- `partition_point` on a slice that is partitioned by the predicate. -/
def partitionPoint {α : Type} (slice : List α) (predicate : α → Bool) : ℕ := (slice.takeWhile predicate).length

namespace Byte

def tab : UInt8 := 0x09

def lineFeed : UInt8 := 0x0A

def carriageReturn : UInt8 := 0x0D

def slash : UInt8 := 0x2F

def backslash : UInt8 := 0x5C

end Byte

namespace Str

variable {ε : Type}

/-- `&bytes[start..stop]` on a byte slice. -/
def sliceBytes (bytes : Str) (start stop : ℕ) : Outcome ε Str :=
  if start ≤ stop ∧ stop ≤ bytes.length then .ok ((bytes.drop start).take (stop - start))
  else Outcome.panic

/-- `&text[start..stop]` on a `str`. -/
def slice (text : Str) (start stop : ℕ) : Outcome ε Str :=
  if start ≤ stop ∧ Utf8.IsBoundary text start ∧ Utf8.IsBoundary text stop then
    .ok ((text.drop start).take (stop - start))
  else Outcome.panic

/-- `&text[start..]` on a `str`. -/
def sliceFrom (text : Str) (start : ℕ) : Outcome ε Str := slice text start text.length

def stripPrefix (text pattern : Str) : Option Str :=
  if pattern <+: text then some (text.drop pattern.length) else none

def stripSuffix (text pattern : Str) : Option Str :=
  if pattern <:+ text then some (text.take (text.length - pattern.length)) else none

/-- `str::cmp`, which compares bytes lexicographically. -/
def cmp (left right : Str) : Ordering :=
  if left < right then .lt else if left = right then .eq else .gt

/-- `text.strip_suffix('\r').unwrap_or(text)`. -/
def trimCarriageReturn (text : Str) : Str :=
  if text.getLast? = some Byte.carriageReturn then text.dropLast else text

/-- `text.lines().next().unwrap_or_default()`. -/
def firstLine (text : Str) : Str :=
  let line := text.takeWhile (· ≠ Byte.lineFeed)
  if line.length < text.length then trimCarriageReturn line else line

end Str

end Gat
