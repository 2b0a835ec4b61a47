import Gat.Model.LockError
import Gat.Model.Oid

/-! # The lock reader

One pass decodes and certifies a whole lock file. Ordinary paths stay in the source and escaped paths
are decoded into one arena shared by all rows, so a row is a span of either text. A stack of earlier
row indices carries the possible ancestors of the current path.
-/

namespace Gat

def VERSION : Str := ascii "version https://getgat.dev/spec/lock-v1"

/-- The fixed-width digest field of a row. -/
abbrev HashField := { field : Str // field.length = 64 }

/-- What a row kernel returns: the digest, the offset of the line feed, and whether the path field
has a control byte or a backslash. -/
abbrev DecodedRow := Option (Oid × ℕ × Bool)

/-- Decode the digit pairs of a digest field. -/
def decodePairs : Str → Option (List UInt8)
  | high :: low :: rest => do
    let highValue ← nibble high
    let lowValue ← nibble low
    let bytes ← decodePairs rest
    some ((highValue <<< 4 ||| lowValue) :: bytes)
  | _ => some []

theorem decodePairs_length {field : Str} {bytes : List UInt8} (decoded : decodePairs field = some bytes) :
    bytes.length = field.length / 2 := by
  fun_induction decodePairs field generalizing bytes with
  | case1 high low rest ih =>
    simp only [Option.bind_eq_bind, Option.bind_eq_some_iff, Option.some.injEq] at decoded
    obtain ⟨_, -, _, -, tail, tailDecoded, rfl⟩ := decoded
    simp only [List.length_cons, ih tailDecoded]
    omega
  | case2 field short =>
    obtain rfl : [] = bytes := by simpa using decoded
    match field, short with
    | [], _ => rfl
    | [_], _ => simp
    | high :: low :: rest, short => exact absurd rfl (short high low rest)

def decodeHash (hash : HashField) : Option Oid :=
  match decoded : decodePairs hash.val with
  | none => none
  | some bytes => some ⟨bytes, by rw [decodePairs_length decoded, hash.property]⟩

/-- A byte that may not occur literally in a path field. -/
def isSpecial (byte : UInt8) : Bool := byte < 32 || byte = Byte.backslash

/-- Decode the digest pairs, then inspect exactly the current row. -/
def scalar (hash : HashField) (path : Str) : DecodedRow := do
  let oid ← decodeHash hash
  let stop ← path.findIdx? (· = Byte.lineFeed)
  let field := Str.trimCarriageReturn (path.take stop)
  some (oid, stop, field.any isSpecial)

/-- A row kernel. Every backend computes what the scalar oracle computes. -/
structure Kernel where
  row : HashField → Str → DecodedRow
  row_eq_scalar : ∀ hash path, row hash path = scalar hash path

def Kernel.scalar : Kernel := ⟨Gat.scalar, fun _ _ => rfl⟩

structure Row where
  start : ℕ
  len : ℕ
  arena : Bool
  oid : Oid
deriving DecidableEq

structure ValidatedLockFile where
  source : Str
  arena : Str
  rows : List Row
deriving DecidableEq

namespace ValidatedLockFile

variable {ε : Type}

/-- The decoded path of a row, sliced from the text that holds it. -/
def path (file : ValidatedLockFile) (row : Row) : Outcome ε Str :=
  Str.slice (if row.arena then file.arena else file.source) row.start (row.start + row.len)

/-- The decoded rows in file order. -/
def semanticRows (file : ValidatedLockFile) : Outcome ε (List (GatPath × Oid)) :=
  file.rows.mapM fun row => do
    let text ← file.path row
    let path ← GatPath.fromValidated text
    pure (path, row.oid)

end ValidatedLockFile

/-- Append the decoded form of an escaped path field to the arena. `start` is the end of the last
escape and `pos` the next byte to inspect. -/
def decodeEscapedFrom (field : Str) (arena : Str) (start pos : ℕ) : Outcome LockDomainError (Option Str) :=
  if bound : pos < field.length then
    if field[pos] < 32 then pure none
    else if field[pos] ≠ Byte.backslash then decodeEscapedFrom field arena start (pos + 1)
    else do
      let literal ← Str.slice field start pos
      if field[pos + 1]? ≠ some 0x78 then pure none
      else
        match field[pos + 2]?.bind nibble, field[pos + 3]?.bind nibble with
        | some high, some low =>
          let value := high * 16 + low
          if 32 ≤ value then pure none
          else decodeEscapedFrom field (arena ++ literal ++ [value]) (pos + 4) (pos + 4)
        | _, _ => pure none
  else do
    let literal ← Str.sliceFrom field start
    pure (some (arena ++ literal))
termination_by field.length - pos

def decodeEscaped (field arena : Str) : Outcome LockDomainError (Option Str) :=
  decodeEscapedFrom field arena 0 0

/-- Check canonical components; a rejected path is reported with its normalization failure. -/
def validatePath (path : Str) (line : ℕ) : Outcome LockDomainError Unit :=
  match validateCanonicalStr path with
  | .ok () => .ok ()
  | .error .panic => Outcome.panic
  | .error (.error _) =>
    match normalize path with
    | .ok _ => Outcome.fail (.nonCanonicalPath line path)
    | .error .panic => Outcome.panic
    | .error (.error source) => Outcome.fail (.invalidRowPath line path source)

/-- The variables of the row loop: the view built so far and the stack of row indices, top first. -/
structure Decoder where
  result : ValidatedLockFile
  stack : List ℕ
deriving DecidableEq

namespace Decoder

/-- The length of an indexed row's path; the index always names a decoded row. -/
def rowLength (result : ValidatedLockFile) (index : ℕ) : Outcome LockDomainError ℕ :=
  match result.rows[index]? with
  | some row => .ok row.len
  | none => Outcome.panic

/-- Pop the rows whose path does not end within the common part. -/
def popLonger (result : ValidatedLockFile) (lcp : ℕ) : List ℕ → Outcome LockDomainError (List ℕ)
  | [] => .ok []
  | index :: rest => do
    let length ← rowLength result index
    if lcp < length then popLonger result lcp rest else pure (index :: rest)

/-- Compare the path with its predecessor and with the nearest earlier prefix, and return the
remaining stack. -/
def checkOrder (state : Decoder) (path : Str) (line : ℕ) : Outcome LockDomainError (List ℕ) :=
  match state.result.rows.getLast? with
  | none => .ok state.stack
  | some previousRow => do
    let previous ← state.result.path previousRow
    match Str.cmp previous path with
    | .eq => Outcome.fail (.duplicatePath path (some line))
    | .gt => Outcome.fail (.malformedRow line (.unorderedPath path))
    | .lt => do
      let stack ← popLonger state.result (List.lcpLength previous path) state.stack
      match stack with
      | [] => pure []
      | index :: rest =>
        match state.result.rows[index]? with
        | none => Outcome.panic
        | some row =>
          if path[row.len]? = some Byte.slash then do
            let ancestor ← state.result.path row
            Outcome.fail (.directoryPrefixConflict ancestor path)
          else pure (index :: rest)

/-- Decode the path field into the arena if it is escaped. The flag says whether it was. -/
def decodeField (arena field : Str) (hasSpecial : Bool) (line : ℕ) :
    Outcome LockDomainError (Str × Str × Bool) :=
  if hasSpecial ∧ Byte.backslash ∈ field then do
    match ← decodeEscaped field arena with
    | none => Outcome.fail (.nonCanonicalPath line field)
    | some extended => do
      let path ← Str.sliceFrom extended arena.length
      pure (path, extended, true)
  else if hasSpecial then Outcome.fail (.nonCanonicalPath line field)
  else pure (field, arena, false)

/-- The second half of an iteration: decode and check the path field found at `start`, and append
its row. -/
def acceptRow (state : Decoder) (start : ℕ) (raw : Str) (oid : Oid) (hasSpecial : Bool) :
    Outcome LockDomainError Decoder := do
  let line := state.result.rows.length + 2
  let field := Str.trimCarriageReturn raw
  let (path, arena, escaped) ← decodeField state.result.arena field hasSpecial line
  validatePath path line
  let result := { state.result with arena := arena }
  let stack ← checkOrder ⟨result, state.stack⟩ path line
  let row : Row :=
    { start := if escaped then state.result.arena.length else start
      len := path.length
      arena := escaped
      oid := oid }
  pure ⟨{ result with rows := result.rows ++ [row] }, result.rows.length :: stack⟩

/-- One iteration of the row loop at byte `pos`. It also returns the length of the row's path field
with its carriage return. -/
def decodeRow (kernel : Kernel) (state : Decoder) (pos : ℕ) : Outcome LockDomainError (Decoder × ℕ) := do
  let source := state.result.source
  let line := state.result.rows.length + 2
  if source[pos + 64]? ≠ some Byte.tab then
    Outcome.fail (.malformedRow line .invalidSeparator)
  else do
    let hash ← Str.sliceBytes source pos (pos + 64)
    if width : hash.length = 64 then do
      let start := pos + 65
      let rest ← Str.sliceBytes source start source.length
      match kernel.row ⟨hash, width⟩ rest with
      | none =>
        if hash.any fun byte => (nibble byte).isNone then do
          let tail ← Str.sliceFrom source start
          Outcome.fail (.invalidOid line (tail.takeWhile (· ≠ Byte.lineFeed)) .notHexBlake3)
        else Outcome.fail (.malformedRow line .missingLineFeed)
      | some (oid, len, hasSpecial) => do
        let raw ← Str.slice source start (start + len)
        let next ← acceptRow state start raw oid hasSpecial
        pure (next, len)
    else Outcome.panic

/-- The row loop from byte `pos` to the end of the source. -/
def decodeRows (kernel : Kernel) (source : Str) (state : Decoder) (pos : ℕ) :
    Outcome LockDomainError ValidatedLockFile :=
  if pos < source.length then do
    let (next, len) ← decodeRow kernel state pos
    decodeRows kernel source next (pos + 65 + len + 1)
  else pure state.result
termination_by source.length - pos

end Decoder

namespace ValidatedLockFile

/-- The text after the version line, which ends in LF or CRLF. -/
def afterHeader (source : Str) : Option Str := do
  let rest ← Str.stripPrefix source VERSION
  (Str.stripPrefix rest [Byte.carriageReturn, Byte.lineFeed]).or (Str.stripPrefix rest [Byte.lineFeed])

/-- Decode and certify the entire file. -/
def decode (kernel : Kernel) (source : Str) : Outcome LockDomainError ValidatedLockFile :=
  if source = [] then Outcome.fail .empty
  else
    match afterHeader source with
    | none => Outcome.fail (.unsupportedVersion VERSION (Str.firstLine source))
    | some header =>
      Decoder.decodeRows kernel source ⟨⟨source, [], []⟩, []⟩ (source.length - header.length)

/-- `ValidatedLockFile::parse` with the selected kernel. -/
abbrev parse := decode

end ValidatedLockFile

end Gat
