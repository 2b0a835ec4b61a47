import Gat.Model.LockShard

/-! # The stored form of a shard identity

An identity is stored as its depth with four bytes, whatever the depth is. It is built from the hash of a path or from
its canonical spelling; the comparison looks only at the bytes that both sides use.
-/

namespace Gat

/-- `LockShardLevels::MAX`, which is the number of stored bytes. -/
def LockShardLevels.MAX : ℕ := 4

structure LockShardIdError where
  raw : Str
deriving DecidableEq

structure RawShardId where
  depth : LockShardLevels
  leading : List.Vector UInt8 LockShardLevels.MAX
deriving DecidableEq

namespace RawShardId

def flat : RawShardId := ⟨LockShardLevels.FLAT, List.Vector.replicate _ 0⟩

def isFlat (id : RawShardId) : Bool := id.depth.isFlat

/-- The bytes that the depth uses. -/
def prefixBytes (id : RawShardId) : List UInt8 := id.leading.toList.take id.depth.depth

/-- Compare the bytes that both sides use, then the depths. -/
def cmp (left right : RawShardId) : Ordering :=
  let shared := min left.depth.depth right.depth.depth
  (Str.cmp (left.leading.toList.take shared) (right.leading.toList.take shared)).then
    (compare left.depth.depth right.depth.depth)

/-- Copy the leading bytes of the hash of a path and leave the other bytes zero. -/
def forValidatedPath (blake3 : ContentHash) (path : Str) (shardLevels : LockShardLevels) : RawShardId :=
  if shardLevels.isFlat then flat
  else
    ⟨shardLevels, (blake3 path).toList.take shardLevels.depth ++ List.replicate (LockShardLevels.MAX - shardLevels.depth) 0, by
      have bound := shardLevels.bound
      rw [List.length_append, List.length_take, List.length_replicate, List.Vector.toList_length, LockShardLevels.MAX]
      omega⟩

def forPath (blake3 : ContentHash) (path : GatPath) (shardLevels : LockShardLevels) : RawShardId :=
  forValidatedPath blake3 path.text shardLevels

/-! ## Parsing -/

/-- `(byte as char).to_digit(16)`. -/
def toDigit (byte : UInt8) : Option UInt8 :=
  if 0x30 ≤ byte ∧ byte ≤ 0x39 then some (byte - 0x30)
  else if 0x61 ≤ byte ∧ byte ≤ 0x66 then some (byte - 0x61 + 10)
  else if 0x41 ≤ byte ∧ byte ≤ 0x46 then some (byte - 0x41 + 10)
  else none

def isAsciiDigit (byte : UInt8) : Bool := 0x30 ≤ byte && byte ≤ 0x39

def isAsciiLowercase (byte : UInt8) : Bool := 0x61 ≤ byte && byte ≤ 0x7A

/-- Two lowercase digits. -/
def parseHexByte : Str → Option UInt8
  | [first, second] => do
    let high ← toDigit first
    let low ← toDigit second
    if !isAsciiDigit first && !isAsciiLowercase first then none
    else if !isAsciiDigit second && !isAsciiLowercase second then none
    else some (high <<< 4 ||| low)
  | _ => none

/-- Store one byte for each component. -/
def parseComponents : List Str → ℕ → List.Vector UInt8 LockShardLevels.MAX → Option (ℕ × List.Vector UInt8 LockShardLevels.MAX)
  | [], depth, leading => some (depth, leading)
  | component :: components, depth, leading =>
    if inside : depth < LockShardLevels.MAX then do
      let byte ← parseHexByte component
      parseComponents components (depth + 1) (leading.set ⟨depth, inside⟩ byte)
    else none

def parseSharded (raw : Str) : Option RawShardId := do
  let rel ← raw.stripPrefix (ascii "gat.lock/")
  let rel ← rel.stripSuffix (ascii ".tsv")
  let (depth, leading) ← parseComponents (rel.splitOn Byte.slash) 0 (List.Vector.replicate _ 0)
  if depth = 0 then none else if bound : depth ≤ LockShardLevels.MAX then some ⟨⟨depth, bound⟩, leading⟩ else none

/-- Strictly parse one of the canonical spellings. -/
def parseCanonical (raw : Str) : Except LockShardIdError RawShardId :=
  if raw = ascii "gat.lock" then .ok flat else (parseSharded raw).elim (.error ⟨raw⟩) .ok

/-- The spelling `gat.lock` or `gat.lock/xx/.../yy.tsv`. -/
def toCanonicalString (id : RawShardId) : Str :=
  ascii "gat.lock" ++
    (id.prefixBytes.flatMap fun byte : UInt8 => [Byte.slash, hexDigit (byte >>> 4), hexDigit (byte &&& 15)]) ++
    if id.isFlat then [] else ascii ".tsv"

end RawShardId

end Gat
