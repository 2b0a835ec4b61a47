import Mathlib.Data.Vector.Basic
import Gat.Model.LexicalPath
import Gat.Model.Oid

/-! # Shard identities

A sharded lock places each row in the file named by the leading bytes of its path's content hash. The
depth counts those bytes; depth zero is the single flat file. The hash function is a parameter.
-/

namespace Gat

/-- A fan-out depth that a shard identity can represent. -/
structure LockShardLevels where
  depth : ℕ
  bound : depth ≤ 4
deriving DecidableEq

namespace LockShardLevels

def FLAT : LockShardLevels := ⟨0, by omega⟩

/-- One directory of shard files. -/
def oneLevel : LockShardLevels := ⟨1, by omega⟩

def isFlat (levels : LockShardLevels) : Bool := levels.depth = 0

@[ext] theorem ext {left right : LockShardLevels} (same : left.depth = right.depth) : left = right := by
  cases left
  cases right
  cases same
  rfl

theorem isFlat_iff {levels : LockShardLevels} : levels.isFlat ↔ levels = FLAT := by
  rw [isFlat, decide_eq_true_eq, LockShardLevels.ext_iff]
  rfl

end LockShardLevels

/-- The digest of a content hash, one 32-byte value for each text. -/
abbrev ContentHash := Str → List.Vector UInt8 32

/-- A hash for the examples: the first byte in front of the sum of all. -/
def ContentHash.sample : ContentHash := fun text => text.headD 0 ::ᵥ List.Vector.replicate 31 (text.foldl (fun sum byte => sum + byte) 0)

/-- A shard identity: the used leading bytes of the hash, as many as the depth counts. -/
structure LockShardId where
  levels : LockShardLevels
  prefixBytes : List UInt8
  width : prefixBytes.length = levels.depth
deriving DecidableEq

namespace LockShardId

theorem prefixBytes_injective : Function.Injective prefixBytes := by
  intro left right same
  obtain ⟨levels, bytes, width⟩ := left
  obtain ⟨levels', bytes', width'⟩ := right
  obtain rfl : bytes = bytes' := same
  obtain rfl : levels = levels' := LockShardLevels.ext (width.symm.trans width')
  rfl

/-- Bytes both identities use are compared first, then the depths. -/
def cmp (left right : LockShardId) : Ordering :=
  let shared := min left.levels.depth right.levels.depth
  (Str.cmp (left.prefixBytes.take shared) (right.prefixBytes.take shared)).then
    (compare left.levels.depth right.levels.depth)

/-- Identities are ordered by their bytes, a shorter identity before its extensions. -/
instance : LinearOrder LockShardId := LinearOrder.lift' prefixBytes prefixBytes_injective

-- a set of shards is sorted with these
instance instIsTransLe : IsTrans LockShardId (· ≤ ·) := inferInstance

instance instAntisymmLe : Std.Antisymm fun left right : LockShardId => left ≤ right := inferInstance

instance instTotalLe : Std.Total fun left right : LockShardId => left ≤ right := inferInstance

def flat : LockShardId := ⟨LockShardLevels.FLAT, [], rfl⟩

def isFlat (id : LockShardId) : Bool := id.levels.isFlat

/-- The shard that owns the row of a path. -/
def forValidatedPath (blake3 : ContentHash) (path : Str) (levels : LockShardLevels) : LockShardId :=
  if levels.isFlat then flat
  else ⟨levels, (blake3 path).toList.take levels.depth, by
    have bound := levels.bound
    rw [List.length_take, List.Vector.toList_length]
    omega⟩

def forPath (blake3 : ContentHash) (path : GatPath) (levels : LockShardLevels) : LockShardId :=
  forValidatedPath blake3 path.text levels

/-- The canonical spelling `gat.lock` or `gat.lock/xx/.../yy.tsv`. -/
def toCanonicalString (id : LockShardId) : Str :=
  ascii "gat.lock" ++
    (id.prefixBytes.flatMap fun byte : UInt8 => [Byte.slash, hexDigit (byte >>> 4), hexDigit (byte &&& 15)]) ++
    if id.isFlat then [] else ascii ".tsv"

@[simp] theorem levels_forPath (blake3 : ContentHash) (path : GatPath) (levels : LockShardLevels) :
    (forPath blake3 path levels).levels = levels := by
  unfold forPath forValidatedPath
  split
  · next isFlat => exact (LockShardLevels.isFlat_iff.mp isFlat).symm
  · rfl

/-- The flat depth has one identity. -/
theorem eq_flat {id : LockShardId} (isFlat : id.levels = LockShardLevels.FLAT) : id = flat := by
  have none : id.prefixBytes = [] := List.length_eq_zero_iff.mp (id.width.trans (congrArg LockShardLevels.depth isFlat))
  exact prefixBytes_injective none

end LockShardId

end Gat
