import Mathlib

/-! # Vector registers

A register is its byte lanes, and each instruction is what it does to a lane. Instructions on sixteen-bit lanes read two
neighbouring bytes, the lower one first. A mask instruction turns the top bits of the lanes into an integer, whose lowest
set bit is the first lane of which a comparison holds.
-/

open List

/-- A register of byte lanes. -/
abbrev Register (n : ℕ) := Fin n → UInt8

namespace Register

variable {n : ℕ}

/-- An unaligned load, which may not leave the slice. -/
def load? (n : ℕ) (bytes : List UInt8) (start : ℕ) : Option (Register n) :=
  if room : start + n ≤ bytes.length then some fun lane => bytes[start + lane] else none

/-- The bytes that a store writes. -/
def store (x : Register n) : List UInt8 := ofFn x

/-- A lane of the register, or zero behind its end. -/
def lane (x : Register n) (index : ℕ) : UInt8 := if inside : index < n then x ⟨index, inside⟩ else 0

/-! ## Byte lanes -/

@[simp] def splat (value : UInt8) : Register n := fun _ => value

@[simp] def add (a b : Register n) : Register n := fun lane => a lane + b lane

@[simp] def sub (a b : Register n) : Register n := fun lane => a lane - b lane

@[simp] def and (a b : Register n) : Register n := fun lane => a lane &&& b lane

@[simp] def or (a b : Register n) : Register n := fun lane => a lane ||| b lane

@[simp] def minUnsigned (a b : Register n) : Register n := fun lane => min (a lane) (b lane)

/-- The result of a comparison in a lane. -/
def maskByte (holds : Bool) : UInt8 := if holds then 0xFF else 0

@[simp] def eq (a b : Register n) : Register n := fun lane => maskByte (a lane = b lane)

@[simp] def leUnsigned (a b : Register n) : Register n := fun lane => maskByte (a lane ≤ b lane)

@[simp] def gtSigned (a b : Register n) : Register n := fun lane => maskByte ((b lane).toBitVec.slt (a lane).toBitVec)

/-- The bits of the first operand where the mask has them, and those of the second elsewhere. -/
@[simp] def select (mask a b : Register n) : Register n := fun lane => mask lane &&& a lane ||| ~~~mask lane &&& b lane

@[simp] def shiftLeftBytes (count : UInt8) (x : Register n) : Register n := fun lane => x lane <<< count

def minAcross (x : Register n) : UInt8 := (ofFn x).foldl min 0xFF

def maxAcross (x : Register n) : UInt8 := (ofFn x).foldl max 0

/-- The lanes with even or with odd index of two registers, one after the other. -/
@[simp] def unzip (parity : ℕ) (a b : Register n) : Register n := fun index =>
  if 2 * index.val < n then a.lane (2 * index.val + parity) else b.lane (2 * index.val - n + parity)

/-! ## Sixteen-bit lanes -/

/-- A sixteen-bit lane. -/
def word (x : Register n) (index : ℕ) : BitVec 16 := (x.lane (2 * index + 1)).toBitVec ++ (x.lane (2 * index)).toBitVec

def ofWords (words : ℕ → BitVec 16) : Register n := fun lane =>
  if lane.val % 2 = 0 then ⟨(words (lane.val / 2)).setWidth 8⟩ else ⟨(words (lane.val / 2)).extractLsb' 8 8⟩

def splatWords (value : BitVec 16) : Register n := ofWords fun _ => value

def shiftLeftWords (count : ℕ) (x : Register n) : Register n := ofWords fun index => x.word index <<< count

def shiftRightWords (count : ℕ) (x : Register n) : Register n := ofWords fun index => x.word index >>> count

/-- A signed value within the bounds. -/
def saturate (low high value : ℤ) : ℤ := max low (min high value)

/-- Unsigned bytes times signed bytes, neighbours added with signed saturation. -/
def multiplyAddWords (a b : Register n) : Register n := ofWords fun index =>
  .ofInt 16 (saturate (-32768) 32767
    ((a.lane (2 * index)).toNat * (b.lane (2 * index)).toBitVec.toInt + (a.lane (2 * index + 1)).toNat * (b.lane (2 * index + 1)).toBitVec.toInt))

/-- A signed sixteen-bit lane as an unsigned byte. -/
def packByte (value : BitVec 16) : UInt8 := .ofNat (saturate 0 255 value.toInt).toNat

/-- Within each sixteen bytes, the words of the first register and then those of the second. -/
def packUnsigned (a b : Register n) : Register n := fun lane =>
  let base := lane.val / 16 * 8
  let index := lane.val % 16
  packByte (if index < 8 then a.word (base + index) else b.word (base + (index - 8)))

/-- Rearranged groups of eight bytes; two bits of the control choose each. -/
def permuteGroups (control : ℕ) (x : Register n) : Register n := fun lane =>
  x.lane (8 * (control >>> (2 * (lane.val / 8)) % 4) + lane.val % 8)

/-! ## Masks -/

/-- The top bits of the lanes. -/
def moveMask (x : Register n) : BitVec 32 := (BitVec.ofBoolListLE (ofFn fun lane => decide (0x80 ≤ x lane))).setWidth 32

/-! ## Loads -/

theorem load?_eq_some {bytes : List UInt8} {start : ℕ} (room : start + n ≤ bytes.length) :
    ∃ x, load? n bytes start = some x ∧ ofFn x = (bytes.drop start).take n ∧ ∀ index < n, x.lane index = bytes.getD (start + index) 0 := by
  refine ⟨fun lane => bytes[start + lane], dif_pos room, ?_, ?_⟩
  · apply ext_getElem
    · rw [length_ofFn, length_take, length_drop]
      omega
    · intro index _ _
      simp
  · intro index inside
    rw [lane, dif_pos inside, getD_eq_getElem?_getD, getElem?_eq_getElem (by omega), Option.getD_some]

/-! ## Words -/

theorem lane_eq (x : Register n) (index : Fin n) : x.lane index.val = x index := dif_pos index.isLt

theorem word_ofWords (words : ℕ → BitVec 16) {index : ℕ} (inside : 2 * index + 1 < n) : (ofWords words : Register n).word index = words index := by
  have low : (ofWords words : Register n).lane (2 * index) = ⟨(words index).setWidth 8⟩ := by
    rw [lane, dif_pos (by omega)]
    simp [ofWords]
  have high : (ofWords words : Register n).lane (2 * index + 1) = ⟨(words index).extractLsb' 8 8⟩ := by
    have half : (2 * index + 1) / 2 = index := by omega
    have odd : (2 * index + 1) % 2 = 1 := by omega
    rw [lane, dif_pos inside]
    simp [ofWords, half, odd]
  rw [word, low, high]
  apply BitVec.eq_of_getLsbD_eq
  intro bit bound
  rw [BitVec.getLsbD_append]
  split
  · simp_all
  · have position : 8 + (bit - 8) = bit := by omega
    have within : bit - 8 < 8 := by omega
    simp only [BitVec.getLsbD_extractLsb', position, within, decide_true, Bool.true_and]

@[simp] theorem lane_and (a b : Register n) (index : ℕ) : (a.and b).lane index = a.lane index &&& b.lane index := by
  unfold lane
  split <;> rfl

@[simp] theorem lane_or (a b : Register n) (index : ℕ) : (a.or b).lane index = a.lane index ||| b.lane index := by
  unfold lane
  split <;> rfl

theorem word_and (a b : Register n) (index : ℕ) : (a.and b).word index = a.word index &&& b.word index := by
  rw [word, lane_and, lane_and]
  exact BitVec.and_append.symm

theorem word_or (a b : Register n) (index : ℕ) : (a.or b).word index = a.word index ||| b.word index := by
  rw [word, lane_or, lane_or]
  exact BitVec.or_append.symm

theorem packUnsigned_lane (a b : Register 16) (index : Fin 16) :
    packUnsigned a b index = packByte (if index.val < 8 then a.word index else b.word (index - 8)) := by
  fin_cases index <;> rfl

theorem permuteGroups_packUnsigned (a b : Register 32) (index : Fin 32) :
    permuteGroups 0xD8 (packUnsigned a b) index = packByte (if index.val < 16 then a.word index else b.word (index - 16)) := by
  fin_cases index <;> rfl

/-! ## First lanes -/

/-- The lowest set bit is the first of the bits that holds. -/
theorem findIdx?_of_getLsbD {mask : BitVec 32} {bits : List Bool} (same : ∀ index, mask.getLsbD index = bits.getD index false) :
    bits.findIdx? id = if mask = 0 then none else some mask.ctz.toNat := by
  split_ifs with zero
  · rw [findIdx?_eq_none_iff]
    intro bit member
    obtain ⟨index, bound, rfl⟩ := mem_iff_getElem.mp member
    have found := same index
    rw [zero, getD_eq_getElem?_getD, getElem?_eq_getElem bound, Option.getD_some] at found
    simpa using found.symm
  · have holds := same mask.ctz.toNat
    rw [BitVec.getLsbD_true_ctz_of_ne_zero zero] at holds
    have bound : mask.ctz.toNat < bits.length := by
      by_contra outside
      rw [getD_eq_getElem?_getD, getElem?_eq_none (by omega)] at holds
      exact absurd holds (by decide)
    rw [findIdx?_eq_some_iff_getElem]
    refine ⟨bound, ?_, fun earlier below => ?_⟩
    · rw [getD_eq_getElem?_getD, getElem?_eq_getElem bound, Option.getD_some] at holds
      exact holds.symm
    · have clear := same earlier
      rw [BitVec.getLsbD_false_of_lt_ctz below, getD_eq_getElem?_getD, getElem?_eq_getElem (by omega), Option.getD_some] at clear
      exact fun holds => absurd (clear.trans holds) (by decide)

theorem getLsbD_moveMask (fits : n ≤ 32) (x : Register n) (index : ℕ) :
    (moveMask x).getLsbD index = ((ofFn x).map fun byte => decide (0x80 ≤ byte)).getD index false := by
  have bits : (ofFn fun lane => decide (0x80 ≤ x lane)) = (ofFn x).map fun byte => decide (0x80 ≤ byte) := by
    rw [map_ofFn]
    rfl
  rw [moveMask, bits, BitVec.getLsbD_setWidth, BitVec.getLsbD_ofBoolListLE]
  by_cases inside : index < 32
  · rw [decide_eq_true inside, Bool.true_and]
  · rw [decide_eq_false inside, Bool.false_and, getD_eq_getElem?_getD, getElem?_eq_none (by simp; omega)]
    rfl

theorem getLsbD_low {count : ℕ} (bound : count < 32) (index : ℕ) : ((1#32 <<< count) - 1#32).getLsbD index = decide (index < count) := by
  have power : 2 ^ count < 2 ^ 32 := Nat.pow_lt_pow_right (by decide) bound
  have value : ((1#32 <<< count) - 1#32).toNat = 2 ^ count - 1 := by
    have positive := Nat.two_pow_pos count
    rw [BitVec.toNat_sub, BitVec.toNat_shiftLeft]
    simp only [BitVec.toNat_ofNat, Nat.shiftLeft_eq]
    omega
  rw [BitVec.getLsbD, value, Nat.testBit_two_pow_sub_one]

section Every

variable {x : Register n} {set : Fin n → Bool} (masked : ∀ lane, x lane = maskByte (set lane))
include masked

theorem map_top : (ofFn x).map (fun byte => decide (0x80 ≤ byte)) = ofFn set := by
  rw [map_ofFn]
  congr 1
  funext lane
  rw [Function.comp_apply, masked]
  cases set lane <;> rfl

/-- A full mask says that every lane is set. -/
theorem moveMask_eq_iff (fits : n ≤ 32) : moveMask x = BitVec.ofNat 32 (2 ^ n - 1) ↔ ∀ lane, set lane := by
  have bits : ∀ lane : Fin n, (moveMask x).getLsbD lane = set lane := by
    intro lane
    rw [getLsbD_moveMask fits, map_top masked, getD_eq_getElem?_getD, getElem?_eq_getElem (by simp), Option.getD_some]
    simp
  have ones : ∀ index, (BitVec.ofNat 32 (2 ^ n - 1)).getLsbD index = decide (index < n) := by
    intro index
    have power : 2 ^ n ≤ 2 ^ 32 := Nat.pow_le_pow_right (by decide) fits
    have positive := Nat.two_pow_pos n
    rw [BitVec.getLsbD, BitVec.toNat_ofNat, Nat.mod_eq_of_lt (by omega), Nat.testBit_two_pow_sub_one]
  constructor
  · intro same lane
    rw [← bits, same, ones, decide_eq_true lane.isLt]
  · intro every
    apply BitVec.eq_of_getLsbD_eq
    intro index _
    rw [ones]
    by_cases inside : index < n
    · rw [decide_eq_true inside, bits ⟨index, inside⟩, every]
    · rw [decide_eq_false inside, getLsbD_moveMask fits, getD_eq_getElem?_getD, getElem?_eq_none (by simp; omega)]
      rfl

end Every

section Search

variable {x y : Register n} {holds : UInt8 → Bool} (compared : ∀ lane, x lane = maskByte (holds (y lane)))
include compared

theorem map_compared : (ofFn x).map (fun byte => decide (0x80 ≤ byte)) = (ofFn y).map holds := by
  rw [map_top fun lane => compared lane, map_ofFn]
  rfl

theorem findIdx?_moveMask (fits : n ≤ 32) : (ofFn y).findIdx? holds = if moveMask x = 0 then none else some (moveMask x).ctz.toNat := by
  have found := findIdx?_of_getLsbD (getLsbD_moveMask fits x)
  rwa [map_compared compared, findIdx?_map, Function.id_comp] at found

/-- The lanes before a position are searched with the lower bits of the mask. -/
theorem findIdx?_take_moveMask (fits : n ≤ 32) {count : ℕ} (bound : count < 32) :
    ((ofFn y).take count).findIdx? holds =
      if moveMask x &&& ((1#32 <<< count) - 1#32) = 0 then none else some (moveMask x &&& ((1#32 <<< count) - 1#32)).ctz.toNat := by
  have bits : ∀ index, (moveMask x &&& ((1#32 <<< count) - 1#32)).getLsbD index = (((ofFn y).take count).map holds).getD index false := by
    intro index
    rw [BitVec.getLsbD_and, getLsbD_moveMask fits, getLsbD_low bound, map_compared compared, map_take, getD_eq_getElem?_getD,
      getD_eq_getElem?_getD, getElem?_take]
    by_cases below : index < count
    · rw [decide_eq_true below, Bool.and_true, if_pos below]
    · rw [decide_eq_false below, Bool.and_false, if_neg below]
      rfl
  have found := findIdx?_of_getLsbD bits
  rwa [findIdx?_map, Function.id_comp] at found

end Search

/-! ## Reductions -/

theorem le_min_iff {value a b : UInt8} : value ≤ min a b ↔ value ≤ a ∧ value ≤ b := by
  change value ≤ (if a ≤ b then a else b) ↔ _
  split <;> simp only [UInt8.le_iff_toNat_le] at * <;> omega

theorem max_le_iff {value a b : UInt8} : max a b ≤ value ↔ a ≤ value ∧ b ≤ value := by
  change (if a ≤ b then b else a) ≤ value ↔ _
  split <;> simp only [UInt8.le_iff_toNat_le] at * <;> omega

theorem le_foldl_min_iff {value start : UInt8} {bytes : List UInt8} :
    value ≤ bytes.foldl min start ↔ value ≤ start ∧ ∀ byte ∈ bytes, value ≤ byte := by
  induction bytes generalizing start with
  | nil => simp
  | cons byte bytes ih =>
    rw [foldl_cons, ih, le_min_iff, forall_mem_cons, and_assoc]

theorem foldl_max_le_iff {value start : UInt8} {bytes : List UInt8} :
    bytes.foldl max start ≤ value ↔ start ≤ value ∧ ∀ byte ∈ bytes, byte ≤ value := by
  induction bytes generalizing start with
  | nil => simp
  | cons byte bytes ih =>
    rw [foldl_cons, ih, max_le_iff, forall_mem_cons, and_assoc]

theorem le_minAcross_iff {value : UInt8} {x : Register n} : value ≤ minAcross x ↔ ∀ lane, value ≤ x lane := by
  have top : value ≤ 0xFF := UInt8.le_iff_toNat_le.mpr (by have := value.toNat_lt; simp; omega)
  rw [minAcross, le_foldl_min_iff, forall_mem_ofFn_iff]
  exact and_iff_right top

theorem maxAcross_eq_zero_iff {x : Register n} : maxAcross x = 0 ↔ ∀ lane, x lane = 0 := by
  have zero : ∀ {byte : UInt8}, byte ≤ 0 ↔ byte = 0 := by
    intro byte
    rw [UInt8.le_iff_toNat_le, ← UInt8.toNat_inj]
    simp
  rw [← zero, maxAcross, foldl_max_le_iff, forall_mem_ofFn_iff]
  simp only [zero, true_and]

theorem minAcross_eq_iff {x : Register n} {set : Fin n → Bool} (masked : ∀ lane, x lane = maskByte (set lane)) :
    minAcross x = 0xFF ↔ ∀ lane, set lane := by
  have top : ∀ {byte : UInt8}, 0xFF ≤ byte ↔ byte = 0xFF := by
    intro byte
    have bound := byte.toNat_lt
    rw [UInt8.le_iff_toNat_le, ← UInt8.toNat_inj]
    simp
    omega
  rw [← top, le_minAcross_iff]
  refine forall_congr' fun lane => ?_
  rw [masked, top]
  cases set lane <;> decide

section Across

variable {x y : Register n} (holds : UInt8 → Bool) (compared : ∀ lane, x lane = maskByte (holds (y lane)))
include compared

theorem maxAcross_eq_iff : maxAcross x = 0 ↔ (ofFn y).findIdx? holds = none := by
  rw [maxAcross_eq_zero_iff, findIdx?_eq_none_iff, forall_mem_ofFn_iff]
  refine forall_congr' fun lane => ?_
  rw [compared]
  cases holds (y lane) <;> decide

/-- The least lane number among the lanes that hold. -/
theorem minAcross_select (fits : n ≤ 255) : (minAcross (select x (fun lane => .ofNat lane) (splat 0xFF))).toNat = ((ofFn y).findIdx? holds).getD 255 := by
  have chosen : ∀ lane, select x (fun lane => .ofNat lane) (splat 0xFF) lane = if holds (y lane) then .ofNat lane else 0xFF := by
    intro lane
    rw [select, compared]
    cases holds (y lane) with
    | false => simp [maskByte]
    | true =>
      apply UInt8.eq_of_toBitVec_eq
      simp only [maskByte, if_true, splat, UInt8.toBitVec_or, UInt8.toBitVec_and, UInt8.toBitVec_not]
      exact (congrArg₂ (· ||| ·) BitVec.allOnes_and (by decide)).trans BitVec.or_zero
  have value : ∀ lane : Fin n, (UInt8.ofNat lane).toNat = lane := fun lane => by
    rw [UInt8.toNat_ofNat', Nat.mod_eq_of_lt (by omega)]
  generalize select x (fun lane => .ofNat lane) (splat 0xFF) = chosenLanes at chosen
  have least := fun bound => @le_minAcross_iff n bound chosenLanes
  simp only [chosen] at least
  cases found : (ofFn y).findIdx? holds with
  | none =>
    rw [findIdx?_eq_none_iff, forall_mem_ofFn_iff] at found
    have top := (least 0xFF).mpr fun lane => by simp [found lane]
    have bound := (minAcross chosenLanes).toNat_lt
    rw [UInt8.le_iff_toNat_le] at top
    simp at top ⊢
    omega
  | some first =>
    obtain ⟨bound, holdsFirst, earlier⟩ := findIdx?_eq_some_iff_getElem.mp found
    rw [length_ofFn] at bound
    rw [List.getElem_ofFn] at holdsFirst
    rw [Option.getD_some]
    apply Nat.le_antisymm
    · have below := (least (minAcross chosenLanes)).mp (UInt8.le_refl _) ⟨first, bound⟩
      rw [if_pos holdsFirst, UInt8.le_iff_toNat_le, value] at below
      exact below
    · have above := (least (.ofNat first)).mpr fun lane => by
        rw [UInt8.le_iff_toNat_le, value ⟨first, bound⟩]
        split_ifs with holdsLane
        · rw [value]
          by_contra before
          exact earlier lane (Nat.lt_of_not_le before) (by rw [List.getElem_ofFn]; exact holdsLane)
        · simp
          omega
      rw [UInt8.le_iff_toNat_le, value ⟨first, bound⟩] at above
      exact above

end Across

end Register
