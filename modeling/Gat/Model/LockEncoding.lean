import Gat.Model.LockCodec

/-! # Row encoders

Locks are written in three ways: through a formatter, into resident text and directly to a destination. The formatter is
part of the text of a lock; here are the two others. A destination takes the written bytes in pieces and may fail at any of
them.
-/

namespace Gat

variable {ε σ : Type}

/-- An index into the digits of the row writer. -/
def rowDigit (index : UInt8) : Outcome ε UInt8 :=
  match (ascii "0123456789abcdef")[index.toNat]? with
  | some digit => .ok digit
  | none => Outcome.panic

/-- The version line. -/
def writeHeader (writeAll : σ → Str → Outcome ε σ) (out : σ) : Outcome ε σ := do
  let out ← writeAll out VERSION
  writeAll out [Byte.lineFeed]

/-- Write the rest of a path. `start` is the end of the last escaped byte and `i` the index of the next byte. -/
def writePath (writeAll : σ → Str → Outcome ε σ) (path : Str) (out : σ) (start : ℕ) : List UInt8 → ℕ → Outcome ε σ
  | [], _ => do
    let span ← Str.sliceBytes path start path.length
    writeAll out span
  | byte :: rest, i =>
    if byte < 32 then do
      let span ← Str.sliceBytes path start i
      let out ← writeAll out span
      let high ← rowDigit (byte >>> 4)
      let low ← rowDigit (byte &&& 15)
      let out ← writeAll out [Byte.backslash, 0x78, high, low]
      writePath writeAll path out (i + 1) rest (i + 1)
    else writePath writeAll path out start rest (i + 1)

/-- Write one row without retaining it. -/
def writeRow (writeAll : σ → Str → Outcome ε σ) (out : σ) (entry : Entry) : Outcome ε σ := do
  let out ← writeAll out entry.oid.encodeHex
  let out ← writeAll out [Byte.tab]
  let out ← writePath writeAll entry.path.text out 0 entry.path.text 0
  writeAll out [Byte.lineFeed]

/-- Append one row to resident text. -/
def appendRow (out : Str) (entry : Entry) : Outcome ε Str := do
  let out := out ++ entry.oid.encodeHex ++ [Byte.tab]
  let out ← if entry.path.text.any (· < 32) then do
      let escaped ← escapedPath entry.path
      pure (out ++ escaped)
    else pure (out ++ entry.path.text)
  pure (out ++ [Byte.lineFeed])

/-- The streaming writer: the header and the rows in the given order. -/
def encode (writeAll : σ → Str → Outcome ε σ) (out : σ) (entries : List Entry) : Outcome ε σ := do
  let out ← writeHeader writeAll out
  entries.foldlM (writeRow writeAll) out

/-- A growing buffer takes everything. -/
def bufferWriteAll (out piece : Str) : Outcome ε Str := .ok (out ++ piece)

end Gat
