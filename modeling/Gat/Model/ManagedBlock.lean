import Gat.Model.Text
import Gat.ToMathlib.SplitInclusive

/-! # Marked blocks in files of the user

A block stands between two marker lines inside text that Gat does not own. Editing keeps every other byte and writes the
block with the terminators that the file already uses. Offsets come from a scan over whole lines, and slicing at them is
kept as an operation that can panic.
-/

namespace Gat

/-! ## Line terminators -/

/-- Strip exactly one terminator; a bare carriage return is data. -/
def stripTerminator (line : Str) : Str :=
  match line.stripSuffix [Byte.lineFeed] with
  | some rest => (rest.stripSuffix [Byte.carriageReturn]).getD rest
  | none => line

/-- The convention of a file. -/
inductive Eol where
  | lf
  | crlf
deriving DecidableEq

namespace Eol

def asStr : Eol → Str
  | .lf => [Byte.lineFeed]
  | .crlf => [Byte.carriageReturn, Byte.lineFeed]

/-- The first line feed decides, and without one the style is LF. -/
def detect (existing : Str) : Eol :=
  match existing.findIdx? (· = Byte.lineFeed) with
  | some idx => if (existing.take idx).getLast? = some Byte.carriageReturn then .crlf else .lf
  | none => .lf

/-- Text with LF terminators in the style of a file. -/
def convert (text : Str) : Eol → Str
  | .lf => text
  | .crlf => text.flatMap fun byte => if byte = Byte.lineFeed then [Byte.carriageReturn, Byte.lineFeed] else [byte]

end Eol

namespace ManagedBlock

def pushBodyWithEol (out body : Str) (eol : Eol) : Str := out ++ eol.convert body

def stripLeadingTerminator (text : Str) : Str :=
  (text.stripPrefix [Byte.carriageReturn, Byte.lineFeed]).getD ((text.stripPrefix [Byte.lineFeed]).getD text)

variable (beginMarker endMarker : Str)

/-- The first complete pair among the lines; an unmatched opening marker is overtaken by the next one. -/
def scanMarkers : List Str → Option ℕ → ℕ → Option (ℕ × ℕ)
  | [], _, _ => none
  | line :: lines, start, offset =>
    let text := stripTerminator line
    if text = beginMarker then scanMarkers lines (some offset) (offset + line.length)
    else
      match start with
      | some start => if text = endMarker then some (start, offset) else scanMarkers lines (some start) (offset + line.length)
      | none => scanMarkers lines none (offset + line.length)

def markerOffsets (existing : Str) : Option (ℕ × ℕ) :=
  if beginMarker = [] ∨ endMarker = [] ∨ beginMarker = endMarker then none
  else scanMarkers beginMarker endMarker (existing.splitInclusive Byte.lineFeed) none 0

variable {ε : Type}

/-- Replace the block of a file or append one. -/
def upsert (existing body : Str) : Outcome ε Str := do
  let eol := Eol.detect existing
  let nl := eol.asStr
  let (before, after, append) ←
    match markerOffsets beginMarker endMarker existing with
    | some (start, endAt) => do
      let before ← Str.slice existing 0 start
      let rest ← Str.sliceFrom existing (endAt + endMarker.length)
      pure (before, stripLeadingTerminator rest, false)
    | none => pure (existing, [], true)
  let out := if append ∧ before ≠ [] ∧ before.getLast? ≠ some Byte.lineFeed then before ++ nl else before
  let out := pushBodyWithEol (out ++ beginMarker ++ nl) body eol
  pure (out ++ endMarker ++ nl ++ after)

/-- Remove the block with the terminator behind it. -/
def remove (existing : Str) : Outcome ε (Option Str) :=
  match markerOffsets beginMarker endMarker existing with
  | none => pure none
  | some (start, endAt) => do
    let before ← Str.slice existing 0 start
    let rest ← Str.sliceFrom existing (endAt + endMarker.length)
    pure (some (before ++ stripLeadingTerminator rest))

/-- The body between the marker lines. -/
def extractBody (existing : Str) : Outcome ε (Option Str) :=
  match markerOffsets beginMarker endMarker existing with
  | none => pure none
  | some (start, endAt) => do
    let body ← Str.slice existing (start + beginMarker.length) endAt
    pure (some (stripLeadingTerminator body))

end ManagedBlock

end Gat
