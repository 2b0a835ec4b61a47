import Gat.Model.LockReader
import Gat.ToMathlib.Registers

/-! # Row kernels

Each backend decodes the digest field with its own vector instructions and looks for the line feed in blocks, with a byte
loop behind the last block. It remembers the first special byte only. A load outside of a slice is undefined and counts as
a panic here, as an index outside of a slice does.
-/

namespace Gat

namespace RowKernel

variable {ε : Type}

def loadu (lanes : ℕ) (bytes : Str) (start : ℕ) : Outcome ε (Register lanes) :=
  match Register.load? lanes bytes start with
  | some x => .ok x
  | none => Outcome.panic

def finish (oid : Oid) (path : Str) (stop : ℕ) (firstSpecial : Option ℕ) : Outcome ε DecodedRow :=
  match firstSpecial with
  | none => .ok (some (oid, stop, false))
  | some i =>
    if i + 1 ≠ stop then .ok (some (oid, stop, true))
    else
      match path[i]? with
      | some byte => .ok (some (oid, stop, byte ≠ Byte.carriageReturn))
      | none => Outcome.panic

/-- The byte loop behind the last block. -/
def tail (oid : Oid) (path : Str) (pos : ℕ) (firstSpecial : Option ℕ) : Outcome ε DecodedRow :=
  if inside : pos < path.length then
    if path[pos] = Byte.lineFeed then finish oid path pos firstSpecial
    else tail oid path (pos + 1) (if firstSpecial = none ∧ isSpecial path[pos] then some pos else firstSpecial)
  else .ok none
termination_by path.length - pos

/-! ## x86 -/

/-- The masks of the line feeds and of the special bytes of a block. -/
def blockMasks {lanes : ℕ} (x : Register lanes) : BitVec 32 × BitVec 32 :=
  let ends := (x.eq (.splat 10)).moveMask
  let controls := (x.minUnsigned (.splat 31)).eq x
  let special := (controls.or (x.eq (.splat 92))).moveMask
  (ends, special)

/-! The two register widths. -/

instance instNeZero16 : NeZero 16 := ⟨by decide⟩

instance instNeZero32 : NeZero 32 := ⟨by decide⟩

/-- Keep the first special byte when there is none yet. -/
def noteSpecial (firstSpecial : Option ℕ) (pos : ℕ) (special : BitVec 32) : Option ℕ :=
  if firstSpecial = none ∧ special ≠ 0 then some (pos + special.ctz.toNat) else firstSpecial

/-- The block loop of both x86 kernels. The position never leaves the path. -/
def scanBlocks (lanes : ℕ) [NeZero lanes] (rest : ℕ → Option ℕ → Outcome ε DecodedRow) (oid : Oid) (path : Str) (pos : ℕ) (firstSpecial : Option ℕ) :
    Outcome ε DecodedRow :=
  if room : lanes ≤ path.length - pos then do
    let x ← loadu lanes path pos
    let (ends, special) := blockMasks x
    if ends ≠ 0 then
      let stop := ends.ctz.toNat
      finish oid path (pos + stop) (noteSpecial firstSpecial pos (special &&& ((1#32 <<< stop) - 1#32)))
    else scanBlocks lanes rest oid path (pos + lanes) (noteSpecial firstSpecial pos special)
  else rest pos firstSpecial
termination_by path.length - pos
decreasing_by
  have positive := Nat.pos_of_ne_zero (NeZero.ne lanes)
  omega

def scanSse2 (oid : Oid) (path : Str) : ℕ → Option ℕ → Outcome ε DecodedRow := scanBlocks 16 (tail oid path) oid path

/-- Nibbles and validity of digest characters. -/
def hex32 (x : Register 32) : Register 32 × Register 32 :=
  let d := x.sub (.splat 0x30)
  let a := x.sub (.splat 0x61)
  let digits := (d.minUnsigned (.splat 9)).eq d
  let letters := (a.minUnsigned (.splat 5)).eq a
  let nibbles := (x.and (.splat 15)).add (letters.and (.splat 9))
  (nibbles, digits.or letters)

/-- The digest is rejected only after the first block of the path was read, and before it is used. -/
def rowAvx2 (hash : HashField) (path : Str) : Outcome ε DecodedRow := do
  let (n0, v0) := hex32 (← loadu 32 hash.val 0)
  let firstPath ← if 32 ≤ path.length then (loadu 32 path 0 : Outcome ε (Register 32)).map fun x => some (blockMasks x) else pure none
  let (n1, v1) := hex32 (← loadu 32 hash.val 32)
  if (v0.and v1).moveMask ≠ -1 then pure none
  else
    let weights := Register.splatWords 0x0110
    let packed := Register.permuteGroups 0xD8 (Register.packUnsigned (n0.multiplyAddWords weights) (n1.multiplyAddWords weights))
    let oid : Oid := ⟨packed.store, List.length_ofFn⟩
    match firstPath with
    | some (ends, special) =>
      if ends ≠ 0 then
        let stop := ends.ctz.toNat
        finish oid path stop (noteSpecial none 0 (special &&& ((1#32 <<< stop) - 1#32)))
      else scanBlocks 32 (scanSse2 oid path) oid path 32 (noteSpecial none 0 special)
    | none => scanBlocks 32 (scanSse2 oid path) oid path 0 none

/-- Pairs of nibbles in words and validity of digest characters. -/
def hex16 (x : Register 16) : Register 16 × Register 16 :=
  let digits := (x.gtSigned (.splat 47)).and ((Register.splat 58).gtSigned x)
  let letters := (x.gtSigned (.splat 96)).and ((Register.splat 103).gtSigned x)
  let nibbles := (digits.and (x.sub (.splat 48))).or (letters.and (x.sub (.splat 87)))
  let pairs := ((nibbles.and (.splatWords 15)).shiftLeftWords 4).or (nibbles.shiftRightWords 8)
  (pairs, digits.or letters)

def rowSse2 (hash : HashField) (path : Str) : Outcome ε DecodedRow := do
  let (p0, v0) := hex16 (← loadu 16 hash.val 0)
  let (p1, v1) := hex16 (← loadu 16 hash.val 16)
  let (p2, v2) := hex16 (← loadu 16 hash.val 32)
  let (p3, v3) := hex16 (← loadu 16 hash.val 48)
  let valid := (v0.and v1).and (v2.and v3)
  if valid.moveMask ≠ 65535 then pure none
  else
    let oid : Oid := ⟨(p0.packUnsigned p1).store ++ (p2.packUnsigned p3).store, by simp [Register.store]⟩
    scanSse2 oid path 0 none

/-! ## AArch64 -/

namespace Neon

def hex16 (x : Register 16) : Register 16 × Register 16 :=
  let digits := (x.sub (.splat 0x30)).leUnsigned (.splat 9)
  let letters := (x.sub (.splat 0x61)).leUnsigned (.splat 5)
  let nibbles := (x.and (.splat 15)).add (letters.and (.splat 9))
  (nibbles, digits.or letters)

def pack (a b : Register 16) : Register 16 := ((Register.unzip 0 a b).shiftLeftBytes 4).or (Register.unzip 1 a b)

/-- The least index of a set lane, or 255. -/
def firstLane (mask : Register 16) : ℕ := (mask.select (fun index => .ofNat index) (.splat 255)).minAcross.toNat

def scan (oid : Oid) (path : Str) (pos : ℕ) (firstSpecial : Option ℕ) : Outcome ε DecodedRow :=
  if _room : 16 ≤ path.length - pos then do
    let x ← loadu 16 path pos
    let ends := x.eq (.splat 10)
    let special := (x.leUnsigned (.splat 31)).or (x.eq (.splat 92))
    if ends.maxAcross ≠ 0 then
      let stop := firstLane ends
      finish oid path (pos + stop)
        (if firstSpecial = none ∧ firstLane special < stop then some (pos + firstLane special) else firstSpecial)
    else scan oid path (pos + 16) (if firstSpecial = none ∧ special.maxAcross ≠ 0 then some (pos + firstLane special) else firstSpecial)
  else tail oid path pos firstSpecial
termination_by path.length - pos

def row (hash : HashField) (path : Str) : Outcome ε DecodedRow := do
  let (n0, v0) := hex16 (← loadu 16 hash.val 0)
  let (n1, v1) := hex16 (← loadu 16 hash.val 16)
  let (n2, v2) := hex16 (← loadu 16 hash.val 32)
  let (n3, v3) := hex16 (← loadu 16 hash.val 48)
  if ((v0.and v1).and (v2.and v3)).minAcross ≠ 255 then pure none
  else
    let oid : Oid := ⟨(pack n0 n1).store ++ (pack n2 n3).store, by simp [Register.store]⟩
    scan oid path 0 none

end Neon

/-! ## Dispatch -/

inductive Backend where
  | scalar
  | sse2
  | avx2
  | neon
deriving DecidableEq

/-- The vector extensions that were detected; each architecture reports only its own. -/
structure Features where
  avx2 : Bool
  sse2 : Bool
  neon : Bool

def Backend.selected (features : Features) : Backend :=
  if features.avx2 then .avx2 else if features.sse2 then .sse2 else if features.neon then .neon else .scalar

def Backend.row : Backend → HashField → Str → Outcome ε DecodedRow
  | .scalar => fun hash path => .ok (Gat.scalar hash path)
  | .sse2 => rowSse2
  | .avx2 => rowAvx2
  | .neon => Neon.row

end RowKernel

end Gat
