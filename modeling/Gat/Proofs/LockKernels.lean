import Gat.Model.LockKernels
import Gat.Proofs.LockRecord

/-! # Rows in blocks

Along the path a kernel knows the bytes it has passed only through the first special byte among them, which is enough to
tell whether a carriage return before the line feed is the only one. The digest is compared byte by byte: a lane of each
conversion depends on one byte of the field, and a byte of the packed digest on two of its lanes.
-/

open List

namespace Gat.RowKernel

variable {ε : Type}

/-! ## Lanes -/

/-- The value of a digest character. -/
def half (byte : UInt8) : UInt8 := (nibble byte).getD 0

/-- A digest byte of two characters. -/
def pairByte (high low : UInt8) : UInt8 := half high <<< 4 ||| half low

/-- The nibbles of the SSE2 conversion before they are paired. -/
def nibbles16 (x : Register 16) : Register 16 :=
  ((((x.gtSigned (.splat 47)).and ((Register.splat 58).gtSigned x))).and (x.sub (.splat 48))).or
    ((((x.gtSigned (.splat 96)).and ((Register.splat 103).gtSigned x))).and (x.sub (.splat 87)))

/-- What the instructions make of a byte. -/
structure LaneFacts (byte : UInt8) : Prop where
  special : Register.maskByte (min byte 31 = byte) ||| Register.maskByte (byte = 92) = Register.maskByte (isSpecial byte)
  specialNeon : Register.maskByte (byte ≤ 31) ||| Register.maskByte (byte = 92) = Register.maskByte (isSpecial byte)
  small : half byte < 16
  valid32 : (hex32 (.splat byte)).2 0 = Register.maskByte (nibble byte).isSome
  valid16 : (hex16 (.splat byte)).2 0 = Register.maskByte (nibble byte).isSome
  validNeon : (Neon.hex16 (.splat byte)).2 0 = Register.maskByte (nibble byte).isSome
  nibble32 : (nibble byte).isSome → (hex32 (.splat byte)).1 0 = half byte
  nibble16 : (nibble byte).isSome → nibbles16 (.splat byte) 0 = half byte
  nibbleNeon : (nibble byte).isSome → (Neon.hex16 (.splat byte)).1 0 = half byte

instance (byte : UInt8) : Decidable (LaneFacts byte) :=
  decidable_of_iff (_ ∧ _ ∧ _ ∧ _ ∧ _ ∧ _ ∧ _ ∧ _ ∧ _)
    ⟨fun ⟨a, b, c, d, e, f, g, h, i⟩ => ⟨a, b, c, d, e, f, g, h, i⟩, fun ⟨a, b, c, d, e, f, g, h, i⟩ => ⟨a, b, c, d, e, f, g, h, i⟩⟩

/-- The table of all bytes. -/
theorem laneFacts (byte : UInt8) : LaneFacts byte := by
  have table : ∀ value : Fin 256, LaneFacts (.ofNat value) := by decide +kernel
  have whole := table ⟨byte.toNat, byte.toNat_lt⟩
  rwa [UInt8.ofNat_toNat] at whole

theorem hex32_valid (x : Register 32) (lane : Fin 32) : (hex32 x).2 lane = Register.maskByte (nibble (x lane)).isSome := (laneFacts (x lane)).valid32

theorem hex16_valid (x : Register 16) (lane : Fin 16) : (hex16 x).2 lane = Register.maskByte (nibble (x lane)).isSome := (laneFacts (x lane)).valid16

theorem Neon.hex16_valid (x : Register 16) (lane : Fin 16) : (Neon.hex16 x).2 lane = Register.maskByte (nibble (x lane)).isSome :=
  (laneFacts (x lane)).validNeon

/-- The words of packed nibbles do not saturate. -/
theorem packByte_halves {high low : UInt8} (highBound : high < 16) (lowBound : low < 16) :
    Register.packByte (.ofInt 16 (Register.saturate (-32768) 32767 (high.toNat * 16 + low.toNat * 1))) = high <<< 4 ||| low ∧
      Register.packByte (((low.toBitVec ++ high.toBitVec : BitVec 16) &&& 15) <<< 4 ||| (low.toBitVec ++ high.toBitVec : BitVec 16) >>> 8) =
        high <<< 4 ||| low := by
  have table : ∀ high low : Fin 16,
      Register.packByte (.ofInt 16 (Register.saturate (-32768) 32767 ((UInt8.ofNat high).toNat * 16 + (UInt8.ofNat low).toNat * 1))) =
          UInt8.ofNat high <<< 4 ||| UInt8.ofNat low ∧
        Register.packByte ((((UInt8.ofNat low).toBitVec ++ (UInt8.ofNat high).toBitVec : BitVec 16) &&& 15) <<< 4 |||
          ((UInt8.ofNat low).toBitVec ++ (UInt8.ofNat high).toBitVec : BitVec 16) >>> 8) = UInt8.ofNat high <<< 4 ||| UInt8.ofNat low := by
    decide +kernel
  have whole := table ⟨high.toNat, UInt8.lt_iff_toNat_lt.mp highBound⟩ ⟨low.toNat, UInt8.lt_iff_toNat_lt.mp lowBound⟩
  rwa [UInt8.ofNat_toNat, UInt8.ofNat_toNat] at whole

/-! ## The field of the path -/

/-- What the oracle finds in the path. -/
def answer (oid : Oid) (path : Str) : DecodedRow :=
  (path.findIdx? fun byte => byte = Byte.lineFeed).map fun stop => (oid, stop, (Str.trimCarriageReturn (path.take stop)).any isSpecial)

theorem scalar_eq (hash : HashField) (path : Str) : scalar hash path = (decodeHash hash).bind fun oid => answer oid path := by
  rw [scalar]
  cases decodeHash hash with
  | none => rfl
  | some oid =>
    rw [Option.bind_some, answer]
    cases path.findIdx? fun byte => byte = Byte.lineFeed <;> rfl

/-- The bytes before a position hold no line feed, and the first special one of them is known. -/
structure Scanned (path : Str) (pos : ℕ) (firstSpecial : Option ℕ) : Prop where
  inside : pos ≤ path.length
  free : (path.take pos).findIdx? (fun byte => byte = Byte.lineFeed) = none
  first : firstSpecial = (path.take pos).findIdx? isSpecial

theorem Scanned.start (path : Str) : Scanned path 0 none := ⟨Nat.zero_le _, rfl, rfl⟩

theorem findIdx?_take_add {path : Str} {pos : ℕ} (inside : pos ≤ path.length) (count : ℕ) (property : UInt8 → Bool) :
    (path.take (pos + count)).findIdx? property =
      ((path.take pos).findIdx? property).or ((((path.drop pos).take count).findIdx? property).map (pos + ·)) := by
  have length : (path.take pos).length = pos := length_take_of_le inside
  rw [take_add, findIdx?_append, length]
  simp only [Nat.add_comm]

/-- A line feed in the next bytes ends the field. -/
theorem Scanned.findIdx?_eq {path : Str} {pos count stop : ℕ} {firstSpecial : Option ℕ} (scanned : Scanned path pos firstSpecial)
    (found : ((path.drop pos).take count).findIdx? (fun byte => byte = Byte.lineFeed) = some stop) :
    path.findIdx? (fun byte => byte = Byte.lineFeed) = some (pos + stop) := by
  conv_lhs => rw [← take_append_drop (pos + count) path]
  rw [findIdx?_append, findIdx?_take_add scanned.inside, scanned.free, found]
  rfl

/-- Bytes without a line feed are passed. -/
theorem Scanned.advance {path : Str} {pos count : ℕ} {firstSpecial : Option ℕ} (scanned : Scanned path pos firstSpecial)
    (room : pos + count ≤ path.length) (free : ((path.drop pos).take count).findIdx? (fun byte => byte = Byte.lineFeed) = none) :
    Scanned path (pos + count) (firstSpecial.or ((((path.drop pos).take count).findIdx? isSpecial).map (pos + ·))) where
  inside := room
  free := by rw [findIdx?_take_add scanned.inside, scanned.free, free]; rfl
  first := by rw [findIdx?_take_add scanned.inside, scanned.first]

/-- The first special byte tells whether the field has one. -/
theorem finish_eq (oid : Oid) {path : Str} {stop : ℕ} (found : path.findIdx? (fun byte => byte = Byte.lineFeed) = some stop) :
    (finish oid path stop ((path.take stop).findIdx? isSpecial) : Outcome ε DecodedRow) = .ok (answer oid path) := by
  have bound : stop < path.length := (findIdx?_eq_some_iff_getElem.mp found).1
  have length : (path.take stop).length = stop := length_take_of_le bound.le
  rw [answer, found, Option.map_some]
  have trimmed := Str.trimCarriageReturn_cases (path.take stop)
  generalize Str.trimCarriageReturn (path.take stop) = field at trimmed
  have inField : ∀ byte ∈ field, byte ∈ path.take stop := by
    rcases trimmed with framed | ⟨same, -⟩
    · rw [framed]
      exact fun byte member => mem_append_left _ member
    · rw [same]
      exact fun byte member => member
  cases first : (path.take stop).findIdx? isSpecial with
  | none =>
    have plain : field.any isSpecial = false := by
      rw [findIdx?_eq_none_iff] at first
      rw [any_eq_false]
      exact fun byte member => by simp [first byte (inField byte member)]
    rw [finish, plain]
  | some i =>
    obtain ⟨inside, special, earlier⟩ := findIdx?_eq_some_iff_getElem.mp first
    have atIndex : path[i]? = (path.take stop)[i]? := by rw [getElem?_take_of_lt (length ▸ inside)]
    rw [getElem?_eq_getElem inside] at atIndex
    rw [length] at inside
    rw [finish, atIndex]
    rcases trimmed with framed | ⟨rfl, bare⟩
    · have width : stop = field.length + 1 := by rw [← length, framed, length_append]; rfl
      by_cases last : i + 1 = stop
      · have plain : field.any isSpecial = false := by
          rw [any_eq_false]
          intro byte member
          obtain ⟨index, below, rfl⟩ := mem_iff_getElem.mp member
          have other := earlier index (by omega)
          simpa only [framed, getElem_append_left below] using other
        have framing : (path.take stop)[i] = Byte.carriageReturn := by
          simp only [framed]
          rw [getElem_append_right (by omega), getElem_singleton]
        rw [if_neg (not_not.mpr last), plain, framing]
        rfl
      · have some : field.any isSpecial = true := by
          rw [any_eq_true]
          refine ⟨field[i], getElem_mem _, ?_⟩
          have here : (path.take stop)[i] = field[i] := by
            simp only [framed]
            rw [getElem_append_left]
          rwa [here] at special
        rw [if_pos last, some]
    · have some : (path.take stop).any isSpecial = true := any_eq_true.mpr ⟨_, getElem_mem _, special⟩
      rw [some]
      by_cases last : i + 1 = stop
      · have different : (path.take stop)[i] ≠ Byte.carriageReturn := by
          intro same
          have position : stop - 1 = i := by omega
          rw [getLast?_eq_getElem?, length, position, getElem?_eq_getElem (by omega), same] at bare
          exact bare rfl
        rw [if_neg (not_not.mpr last)]
        dsimp only
        rw [decide_eq_true different]
      · rw [if_pos last]

theorem tail_eq (oid : Oid) {path : Str} {pos : ℕ} {firstSpecial : Option ℕ} (scanned : Scanned path pos firstSpecial) :
    (tail oid path pos firstSpecial : Outcome ε DecodedRow) = .ok (answer oid path) := by
  fun_induction tail oid path pos firstSpecial with
  | case1 pos firstSpecial inside ends =>
    have found : ((path.drop pos).take 1).findIdx? (fun byte => byte = Byte.lineFeed) = some 0 := by
      rw [drop_eq_getElem_cons inside, take_succ_cons, findIdx?_cons, if_pos (decide_eq_true ends)]
    rw [scanned.first]
    exact finish_eq oid (scanned.findIdx?_eq found)
  | case2 pos firstSpecial inside other ih =>
    have free : ((path.drop pos).take 1).findIdx? (fun byte => byte = Byte.lineFeed) = none := by
      rw [drop_eq_getElem_cons inside, take_succ_cons, findIdx?_cons, if_neg (by simpa using other)]
      rfl
    have advanced := scanned.advance inside free
    have noted : firstSpecial.or ((((path.drop pos).take 1).findIdx? isSpecial).map (pos + ·)) =
        if firstSpecial = none ∧ isSpecial path[pos] then some pos else firstSpecial := by
      rw [drop_eq_getElem_cons inside, take_succ_cons, take_zero, findIdx?_cons]
      cases firstSpecial <;> cases isSpecial path[pos] <;> rfl
    apply ih
    rw [dite_eq_ite, ← noted]
    exact advanced
  | case3 pos firstSpecial outside =>
    have whole : pos = path.length := Nat.le_antisymm scanned.inside (Nat.not_lt.mp outside)
    have free := scanned.free
    rw [whole, take_length] at free
    rw [answer, free]
    rfl

/-! ## Blocks -/

theorem loadu_eq {lanes : ℕ} {bytes : Str} {start : ℕ} (room : start + lanes ≤ bytes.length) :
    ∃ x, (loadu lanes bytes start : Outcome ε (Register lanes)) = .ok x ∧ ofFn x = (bytes.drop start).take lanes ∧
      ∀ index < lanes, x.lane index = bytes.getD (start + index) 0 := by
  obtain ⟨x, loaded, block, each⟩ := Register.load?_eq_some room
  exact ⟨x, by rw [loadu, loaded], block, each⟩

theorem noteSpecial_eq (firstSpecial : Option ℕ) (pos : ℕ) (special : BitVec 32) :
    noteSpecial firstSpecial pos special = firstSpecial.or ((if special = 0 then none else some special.ctz.toNat).map (pos + ·)) := by
  rw [noteSpecial]
  cases firstSpecial with
  | none =>
    by_cases zero : special = 0
    · rw [if_neg fun both => both.2 zero, if_pos zero]
      rfl
    · rw [if_pos ⟨rfl, zero⟩, if_neg zero]
      rfl
  | some first => simp

theorem blockMasks_eq {lanes : ℕ} (fits : lanes ≤ 32) (x : Register lanes) :
    ((ofFn x).findIdx? (fun byte => byte = Byte.lineFeed) = if (blockMasks x).1 = 0 then none else some (blockMasks x).1.ctz.toNat) ∧
      ((ofFn x).findIdx? isSpecial = if (blockMasks x).2 = 0 then none else some (blockMasks x).2.ctz.toNat) ∧
      ∀ count < 32, ((ofFn x).take count).findIdx? isSpecial =
        if (blockMasks x).2 &&& ((1#32 <<< count) - 1#32) = 0 then none else some ((blockMasks x).2 &&& ((1#32 <<< count) - 1#32)).ctz.toNat :=
  ⟨Register.findIdx?_moveMask (fun _ => rfl) fits, Register.findIdx?_moveMask (fun lane => (laneFacts (x lane)).special) fits,
    fun _ => Register.findIdx?_take_moveMask (fun lane => (laneFacts (x lane)).special) fits⟩

section Block

variable {lanes : ℕ} (fits : lanes ≤ 32) {path : Str} {pos : ℕ} {firstSpecial : Option ℕ} (scanned : Scanned path pos firstSpecial)
  {x : Register lanes} (block : ofFn x = (path.drop pos).take lanes)
include fits scanned block

/-- The first special byte before a position of the block. -/
theorem Scanned.first_below {stop : ℕ} (below : stop < lanes) :
    (path.take (pos + stop)).findIdx? isSpecial = noteSpecial firstSpecial pos ((blockMasks x).2 &&& ((1#32 <<< stop) - 1#32)) := by
  obtain ⟨-, -, masked⟩ := blockMasks_eq fits x
  have part : ((path.drop pos).take lanes).take stop = (path.drop pos).take stop := by rw [take_take, min_eq_left below.le]
  have found := masked stop (by omega)
  rw [block, part] at found
  rw [findIdx?_take_add scanned.inside, found, ← scanned.first, noteSpecial_eq]

theorem finish_block (oid : Oid) (ends : (blockMasks x).1 ≠ 0) :
    (finish oid path (pos + (blockMasks x).1.ctz.toNat)
      (noteSpecial firstSpecial pos ((blockMasks x).2 &&& ((1#32 <<< (blockMasks x).1.ctz.toNat) - 1#32))) : Outcome ε DecodedRow) =
        .ok (answer oid path) := by
  obtain ⟨found, -, -⟩ := blockMasks_eq fits x
  rw [if_neg ends] at found
  have below := (findIdx?_eq_some_iff_getElem.mp found).1
  rw [length_ofFn] at below
  rw [block] at found
  rw [← scanned.first_below fits block below]
  exact finish_eq oid (scanned.findIdx?_eq found)

theorem Scanned.next (inside : pos + lanes ≤ path.length) (none : (blockMasks x).1 = 0) :
    Scanned path (pos + lanes) (noteSpecial firstSpecial pos (blockMasks x).2) := by
  obtain ⟨free, special, -⟩ := blockMasks_eq fits x
  rw [block, if_pos none] at free
  rw [block] at special
  rw [noteSpecial_eq, ← special]
  exact scanned.advance inside free

end Block

theorem scanBlocks_eq {lanes : ℕ} [NeZero lanes] (fits : lanes ≤ 32) (oid : Oid) {path : Str} {rest : ℕ → Option ℕ → Outcome ε DecodedRow}
    (resumed : ∀ {pos firstSpecial}, Scanned path pos firstSpecial → rest pos firstSpecial = .ok (answer oid path)) {pos : ℕ} {firstSpecial : Option ℕ}
    (scanned : Scanned path pos firstSpecial) : scanBlocks lanes rest oid path pos firstSpecial = .ok (answer oid path) := by
  fun_induction scanBlocks lanes rest oid path pos firstSpecial with
  | case1 pos firstSpecial room ih =>
    have inside : pos + lanes ≤ path.length := by
      have positive := Nat.pos_of_ne_zero (NeZero.ne lanes)
      omega
    obtain ⟨x, loaded, block, -⟩ := loadu_eq (ε := ε) inside
    rw [loaded, Outcome.ok_bind]
    by_cases ends : (blockMasks x).1 = 0
    · exact (if_neg (not_not.mpr ends)).trans (ih _ (scanned.next fits block inside ends))
    · exact (if_pos ends).trans (finish_block fits scanned block oid ends)
  | case2 pos firstSpecial room => exact resumed scanned

theorem scanSse2_eq (oid : Oid) {path : Str} {pos : ℕ} {firstSpecial : Option ℕ} (scanned : Scanned path pos firstSpecial) :
    (scanSse2 oid path pos firstSpecial : Outcome ε DecodedRow) = .ok (answer oid path) :=
  scanBlocks_eq (by decide) oid (tail_eq oid) scanned

namespace Neon

theorem firstLane_eq {mask x : Register 16} (holds : UInt8 → Bool) (compared : ∀ lane, mask lane = Register.maskByte (holds (x lane))) :
    firstLane mask = ((ofFn x).findIdx? holds).getD 255 := Register.minAcross_select holds compared (by decide)

section Note

variable {firstSpecial found : Option ℕ} {pos first : ℕ} (isFirst : first = found.getD 255)
include isFirst

theorem note_next {set : Prop} [Decidable set] (isSet : set ↔ found ≠ none) :
    (if firstSpecial = none ∧ set then some (pos + first) else firstSpecial) = firstSpecial.or (found.map (pos + ·)) := by
  rw [isFirst]
  cases firstSpecial <;> cases found <;> simp [isSet]

theorem note_below {stop : ℕ} (bound : stop ≤ 255) : (if firstSpecial = none ∧ first < stop then some (pos + first) else firstSpecial) =
    firstSpecial.or ((found.bind (Option.guard fun index => decide (index < stop))).map (pos + ·)) := by
  rw [isFirst]
  cases firstSpecial with
  | some earlier => simp
  | none =>
    cases found with
    | none => simp [bound]
    | some index => by_cases below : index < stop <;> simp [Option.guard, below]

end Note

theorem scan_eq (oid : Oid) {path : Str} {pos : ℕ} {firstSpecial : Option ℕ} (scanned : Scanned path pos firstSpecial) :
    (scan oid path pos firstSpecial : Outcome ε DecodedRow) = .ok (answer oid path) := by
  fun_induction scan oid path pos firstSpecial with
  | case1 pos firstSpecial room ih =>
    have inside : pos + 16 ≤ path.length := by omega
    obtain ⟨x, loaded, block, -⟩ := loadu_eq (ε := ε) inside
    let isLineFeed : UInt8 → Bool := fun byte => byte = Byte.lineFeed
    have endLanes : ∀ lane, (x.eq (.splat 10)) lane = Register.maskByte (isLineFeed (x lane)) := fun _ => rfl
    have specialLanes : ∀ lane, ((x.leUnsigned (.splat 31)).or (x.eq (.splat 92))) lane = Register.maskByte (isSpecial (x lane)) :=
      fun lane => (laneFacts (x lane)).specialNeon
    have firstEnd := firstLane_eq isLineFeed endLanes
    have isFirst := firstLane_eq isSpecial specialLanes
    have anyEnd := Register.maxAcross_eq_iff isLineFeed endLanes
    have anySpecial := Register.maxAcross_eq_iff isSpecial specialLanes
    rw [block] at firstEnd isFirst anyEnd anySpecial
    rw [loaded, Outcome.ok_bind]
    by_cases ends : (x.eq (.splat 10)).maxAcross = 0
    · have advanced := scanned.advance inside (anyEnd.mp ends)
      rw [← note_next isFirst (not_congr anySpecial)] at advanced
      exact (if_neg (not_not.mpr ends)).trans (ih _ advanced)
    · cases found : ((path.drop pos).take 16).findIdx? isLineFeed with
      | none => exact absurd (anyEnd.mpr found) ends
      | some stop =>
        have below := (findIdx?_eq_some_iff_getElem.mp found).1
        rw [length_take] at below
        have part : (path.drop pos).take stop = ((path.drop pos).take 16).take stop := by rw [take_take, min_eq_left (by omega)]
        have noted := finish_eq (ε := ε) oid (scanned.findIdx?_eq found)
        rw [findIdx?_take_add scanned.inside, ← scanned.first, part, findIdx?_take, ← note_below isFirst (by omega)] at noted
        rw [found, Option.getD_some] at firstEnd
        rw [if_pos ends, firstEnd]
        exact noted
  | case2 pos firstSpecial room => exact tail_eq oid scanned

end Neon

/-! ## The digest -/

theorem decodePairs_of_bytes {field : Str} {bytes : List UInt8} (valid : ∀ byte ∈ field, (nibble byte).isSome) (length : field.length = 2 * bytes.length)
    (each : ∀ index < bytes.length, bytes.getD index 0 = pairByte (field.getD (2 * index) 0) (field.getD (2 * index + 1) 0)) :
    decodePairs field = some bytes := by
  induction bytes generalizing field with
  | nil =>
    rw [List.length_nil, Nat.mul_zero, length_eq_zero_iff] at length
    rw [length]
    rfl
  | cons byte bytes ih =>
    match field with
    | [] => simp at length
    | [_] =>
      simp at length
      omega
    | high :: low :: rest =>
      rw [forall_mem_cons, forall_mem_cons] at valid
      obtain ⟨highValid, lowValid, valid⟩ := valid
      have first := each 0 (by simp)
      have others := ih valid (by simpa [Nat.mul_add] using length) fun index bound => by
        have next := each (index + 1) (by simpa using bound)
        simpa [Nat.mul_add] using next
      obtain ⟨highValue, highSame⟩ := Option.isSome_iff_exists.mp highValid
      obtain ⟨lowValue, lowSame⟩ := Option.isSome_iff_exists.mp lowValid
      simp only [getD_cons_zero, Nat.mul_zero, pairByte, half, getD_cons_succ, highSame, lowSame, Option.getD_some] at first
      rw [decodePairs, highSame, lowSame, others, first]
      rfl

theorem decodeHash_of_bytes {hash : HashField} {oid : Oid} (valid : ∀ byte ∈ hash.val, (nibble byte).isSome)
    (each : ∀ index < 32, oid.bytes.getD index 0 = pairByte (hash.val.getD (2 * index) 0) (hash.val.getD (2 * index + 1) 0)) :
    decodeHash hash = some oid := by
  have decoded : decodePairs hash.val = some oid.bytes :=
    decodePairs_of_bytes valid (by rw [hash.property, oid.width]) (by rwa [oid.width])
  unfold decodeHash
  split
  · next missing => rw [decoded] at missing; cases missing
  · next bytes found =>
    rw [decoded] at found
    exact congrArg some (Oid.ext (Option.some.inj found).symm)

theorem decodeHash_of_invalid {hash : HashField} (invalid : ¬∀ byte ∈ hash.val, (nibble byte).isSome) : decodeHash hash = none := by
  rw [decodeHash_eq_none_iff]
  push Not at invalid
  obtain ⟨byte, member, missing⟩ := invalid
  exact ⟨byte, member, fun digit => missing (nibble_isSome_iff.mpr digit)⟩

/-- The register holds the field from a position on. -/
def Holds {lanes : ℕ} (x : Register lanes) (field : Str) (start : ℕ) : Prop := ∀ index < lanes, x.lane index = field.getD (start + index) 0

section Words

variable {index : ℕ}

theorem hex32_word {x : Register 32} (bound : 2 * index + 1 < 32) (valid : ∀ lane, (nibble (x lane)).isSome) :
    Register.packByte (((hex32 x).1.multiplyAddWords (.splatWords 0x0110)).word index) = pairByte (x.lane (2 * index)) (x.lane (2 * index + 1)) := by
  have lanes : ∀ lane : ℕ, lane < 32 → (hex32 x).1.lane lane = half (x.lane lane) := by
    intro lane inside
    rw [Register.lane, Register.lane, dif_pos inside, dif_pos inside]
    exact (laneFacts (x ⟨lane, inside⟩)).nibble32 (valid _)
  have weights : ∀ lane : Fin 16, (Register.splatWords 0x0110 : Register 32).lane (2 * lane.val) = 0x10 ∧
      (Register.splatWords 0x0110 : Register 32).lane (2 * lane.val + 1) = 1 := by decide
  obtain ⟨even, odd⟩ := weights ⟨index, by omega⟩
  rw [Register.multiplyAddWords, Register.word_ofWords _ bound, lanes _ (by omega), lanes _ bound, even, odd]
  exact (packByte_halves (laneFacts _).small (laneFacts _).small).1

theorem hex16_word {x : Register 16} (bound : 2 * index + 1 < 16) (valid : ∀ lane, (nibble (x lane)).isSome) :
    Register.packByte ((hex16 x).1.word index) = pairByte (x.lane (2 * index)) (x.lane (2 * index + 1)) := by
  have pairs : (hex16 x).1 = (((nibbles16 x).and (.splatWords 15)).shiftLeftWords 4).or ((nibbles16 x).shiftRightWords 8) := rfl
  have lanes : ∀ lane : ℕ, lane < 16 → (nibbles16 x).lane lane = half (x.lane lane) := by
    intro lane inside
    rw [Register.lane, Register.lane, dif_pos inside, dif_pos inside]
    exact (laneFacts (x ⟨lane, inside⟩)).nibble16 (valid _)
  rw [pairs, Register.word_or, Register.shiftLeftWords, Register.shiftRightWords, Register.word_ofWords _ bound, Register.word_ofWords _ bound,
    Register.word_and, Register.splatWords, Register.word_ofWords _ bound, Register.word, lanes (2 * index) (by omega), lanes _ bound]
  exact (packByte_halves (laneFacts _).small (laneFacts _).small).2

theorem packUnsigned_pairs {x y : Register 16} (xValid : ∀ lane, (nibble (x lane)).isSome) (yValid : ∀ lane, (nibble (y lane)).isSome) (index : Fin 16) :
    ((hex16 x).1.packUnsigned (hex16 y).1) index =
      if index.val < 8 then pairByte (x.lane (2 * index)) (x.lane (2 * index + 1))
      else pairByte (y.lane (2 * index - 16)) (y.lane (2 * index - 16 + 1)) := by
  have bound := index.isLt
  rw [Register.packUnsigned_lane]
  split_ifs with first
  · exact hex16_word (by omega) xValid
  · have position : 2 * (index.val - 8) = 2 * index.val - 16 := by omega
    rw [hex16_word (by omega) yValid, position]

end Words

namespace Neon

theorem pack_lane {x y : Register 16} (xValid : ∀ lane, (nibble (x lane)).isSome) (yValid : ∀ lane, (nibble (y lane)).isSome) (index : Fin 16) :
    pack (hex16 x).1 (hex16 y).1 index =
      if index.val < 8 then pairByte (x.lane (2 * index)) (x.lane (2 * index + 1))
      else pairByte (y.lane (2 * index - 16)) (y.lane (2 * index - 16 + 1)) := by
  have lanes : ∀ {z : Register 16}, (∀ lane, (nibble (z lane)).isSome) → ∀ lane : ℕ, lane < 16 → (hex16 z).1.lane lane = half (z.lane lane) := by
    intro z valid lane inside
    rw [Register.lane, Register.lane, dif_pos inside, dif_pos inside]
    exact (laneFacts (z ⟨lane, inside⟩)).nibbleNeon (valid _)
  have bound := index.isLt
  rw [pack]
  by_cases first : index.val < 8
  · have inside : 2 * index.val < 16 := by omega
    simp only [Register.or, Register.shiftLeftBytes, Register.unzip, if_pos inside, if_pos first, Nat.add_zero]
    rw [lanes xValid _ inside, lanes xValid _ (by omega)]
    rfl
  · have outside : ¬2 * index.val < 16 := by omega
    simp only [Register.or, Register.shiftLeftBytes, Register.unzip, if_neg outside, if_neg first, Nat.add_zero]
    rw [lanes yValid _ (by omega), lanes yValid _ (by omega)]
    rfl

end Neon

/-! ### Rows -/

section Digest

variable {hash : HashField}

theorem Holds.forall_iff {lanes start : ℕ} {x : Register lanes} (holds : Holds x hash.val start) (property : UInt8 → Prop) :
    (∀ lane, property (x lane)) ↔ ∀ index < lanes, property (hash.val.getD (start + index) 0) := by
  constructor
  · intro each index inside
    rw [← holds index inside, Register.lane, dif_pos inside]
    exact each _
  · intro each lane
    rw [← Register.lane_eq x lane, holds lane lane.isLt]
    exact each lane lane.isLt

theorem forall_mem_hash (property : UInt8 → Prop) : (∀ byte ∈ hash.val, property byte) ↔ ∀ index < 64, property (hash.val.getD index 0) := by
  constructor
  · intro each index inside
    rw [getD_eq_getElem?_getD, getElem?_eq_getElem (by rwa [hash.property]), Option.getD_some]
    exact each _ (getElem_mem _)
  · intro each byte member
    obtain ⟨index, inside, rfl⟩ := mem_iff_getElem.mp member
    have here := each index (by rwa [hash.property] at inside)
    rwa [getD_eq_getElem?_getD, getElem?_eq_getElem inside, Option.getD_some] at here

theorem maskByte_and (first second : Bool) : Register.maskByte first &&& Register.maskByte second = Register.maskByte (first && second) := by
  cases first <;> cases second <;> decide

theorem loadu_holds (hash : HashField) (lanes start : ℕ) (inside : start + lanes ≤ 64) :
    ∃ x, (loadu lanes hash.val start : Outcome ε (Register lanes)) = .ok x ∧ Holds x hash.val start := by
  obtain ⟨x, loaded, -, holds⟩ := loadu_eq (ε := ε) (by rwa [hash.property] : start + lanes ≤ hash.val.length)
  exact ⟨x, loaded, holds⟩

/-- Sixteen packed bytes from two registers of characters. -/
theorem packed_lane {x y packed : Register 16} {start : ℕ} (xHolds : Holds x hash.val start) (yHolds : Holds y hash.val (start + 16)) {index : Fin 16}
    (each : packed index = if index.val < 8 then pairByte (x.lane (2 * index)) (x.lane (2 * index + 1))
      else pairByte (y.lane (2 * index - 16)) (y.lane (2 * index - 16 + 1))) :
    packed index = pairByte (hash.val.getD (start + 2 * index) 0) (hash.val.getD (start + (2 * index + 1)) 0) := by
  have bound := index.isLt
  rw [each]
  split_ifs with first
  · rw [xHolds _ (by omega), xHolds _ (by omega)]
  · have position : start + 16 + (2 * index.val - 16) = start + 2 * index.val := by omega
    rw [yHolds _ (by omega), yHolds _ (by omega), ← Nat.add_assoc, position, Nat.add_assoc start]

theorem decodeHash_of_stores {first second : Register 16} {width : (first.store ++ second.store).length = 32} (valid : ∀ byte ∈ hash.val, (nibble byte).isSome)
    (firstEach : ∀ index : Fin 16, first index = pairByte (hash.val.getD (0 + 2 * index) 0) (hash.val.getD (0 + (2 * index + 1)) 0))
    (secondEach : ∀ index : Fin 16, second index = pairByte (hash.val.getD (32 + 2 * index) 0) (hash.val.getD (32 + (2 * index + 1)) 0)) :
    decodeHash hash = some ⟨first.store ++ second.store, width⟩ := by
  apply decodeHash_of_bytes valid
  intro index bound
  have length : first.store.length = 16 := length_ofFn
  rw [getD_eq_getElem?_getD]
  by_cases below : index < 16
  · have each := firstEach ⟨index, below⟩
    simp only [Nat.zero_add] at each
    rw [getElem?_append_left (by omega), Register.store, List.getElem?_ofFn, dif_pos below, Option.getD_some, each]
  · have inside : index - 16 < 16 := by omega
    have each := secondEach ⟨index - 16, inside⟩
    have position : 32 + 2 * (index - 16) = 2 * index := by omega
    have next : 32 + (2 * (index - 16) + 1) = 2 * index + 1 := by omega
    simp only [position, next] at each
    rw [getElem?_append_right (by omega), length, Register.store, List.getElem?_ofFn, dif_pos inside, Option.getD_some, each]

/-- Four registers hold the whole field. -/
theorem valid_iff {x0 x1 x2 x3 : Register 16} (holds0 : Holds x0 hash.val 0) (holds1 : Holds x1 hash.val 16) (holds2 : Holds x2 hash.val 32)
    (holds3 : Holds x3 hash.val 48) : (∀ byte ∈ hash.val, (nibble byte).isSome) ↔
      (∀ lane, (nibble (x0 lane)).isSome) ∧ (∀ lane, (nibble (x1 lane)).isSome) ∧ (∀ lane, (nibble (x2 lane)).isSome) ∧
        ∀ lane, (nibble (x3 lane)).isSome := by
  rw [holds0.forall_iff fun byte => (nibble byte).isSome, holds1.forall_iff fun byte => (nibble byte).isSome,
    holds2.forall_iff fun byte => (nibble byte).isSome, holds3.forall_iff fun byte => (nibble byte).isSome,
    forall_mem_hash fun byte => (nibble byte).isSome]
  constructor
  · intro each
    exact ⟨fun index inside => each _ (by omega), fun index inside => each _ (by omega), fun index inside => each _ (by omega),
      fun index inside => each _ (by omega)⟩
  · rintro ⟨each0, each1, each2, each3⟩ index inside
    rcases Nat.lt_or_ge index 16 with below | above
    · have here := each0 index below
      rwa [Nat.zero_add] at here
    · rcases Nat.lt_or_ge index 32 with below | above
      · have here := each1 (index - 16) (by omega)
        rwa [show 16 + (index - 16) = index by omega] at here
      · rcases Nat.lt_or_ge index 48 with below | above
        · have here := each2 (index - 32) (by omega)
          rwa [show 32 + (index - 32) = index by omega] at here
        · have here := each3 (index - 48) (by omega)
          rwa [show 48 + (index - 48) = index by omega] at here

end Digest

theorem rowSse2_eq (hash : HashField) (path : Str) : (rowSse2 hash path : Outcome ε DecodedRow) = .ok (scalar hash path) := by
  obtain ⟨x0, load0, holds0⟩ := loadu_holds (ε := ε) hash 16 0 (by decide)
  obtain ⟨x1, load1, holds1⟩ := loadu_holds (ε := ε) hash 16 16 (by decide)
  obtain ⟨x2, load2, holds2⟩ := loadu_holds (ε := ε) hash 16 32 (by decide)
  obtain ⟨x3, load3, holds3⟩ := loadu_holds (ε := ε) hash 16 48 (by decide)
  have valid := valid_iff holds0 holds1 holds2 holds3
  have masked : ∀ lane, (((hex16 x0).2.and (hex16 x1).2).and ((hex16 x2).2.and (hex16 x3).2)) lane = Register.maskByte
      (((nibble (x0 lane)).isSome && (nibble (x1 lane)).isSome) && ((nibble (x2 lane)).isSome && (nibble (x3 lane)).isSome)) := by
    intro lane
    simp only [Register.and, hex16_valid, maskByte_and]
  have full : (((hex16 x0).2.and (hex16 x1).2).and ((hex16 x2).2.and (hex16 x3).2)).moveMask = 65535 ↔ _ :=
    Register.moveMask_eq_iff masked (by decide)
  simp only [Bool.and_eq_true, forall_and, and_assoc, ← valid] at full
  rw [rowSse2, load0, load1, load2, load3]
  simp only [Outcome.ok_bind]
  by_cases digits : ∀ byte ∈ hash.val, (nibble byte).isSome
  · obtain ⟨valid0, valid1, valid2, valid3⟩ := valid.mp digits
    have first : ∀ index : Fin 16, ((hex16 x0).1.packUnsigned (hex16 x1).1) index =
        pairByte (hash.val.getD (0 + 2 * index) 0) (hash.val.getD (0 + (2 * index + 1)) 0) := fun index =>
      packed_lane holds0 holds1 (packUnsigned_pairs valid0 valid1 index)
    have second : ∀ index : Fin 16, ((hex16 x2).1.packUnsigned (hex16 x3).1) index =
        pairByte (hash.val.getD (32 + 2 * index) 0) (hash.val.getD (32 + (2 * index + 1)) 0) := fun index =>
      packed_lane holds2 holds3 (packUnsigned_pairs valid2 valid3 index)
    rw [if_neg (not_not.mpr (full.mpr digits)), scanSse2_eq _ (Scanned.start path), scalar_eq, decodeHash_of_stores digits first second]
    rfl
  · rw [if_pos (mt full.mp digits), scalar_eq, decodeHash_of_invalid digits]
    rfl

theorem Neon.row_eq (hash : HashField) (path : Str) : (Neon.row hash path : Outcome ε DecodedRow) = .ok (scalar hash path) := by
  obtain ⟨x0, load0, holds0⟩ := loadu_holds (ε := ε) hash 16 0 (by decide)
  obtain ⟨x1, load1, holds1⟩ := loadu_holds (ε := ε) hash 16 16 (by decide)
  obtain ⟨x2, load2, holds2⟩ := loadu_holds (ε := ε) hash 16 32 (by decide)
  obtain ⟨x3, load3, holds3⟩ := loadu_holds (ε := ε) hash 16 48 (by decide)
  have valid := valid_iff holds0 holds1 holds2 holds3
  have masked : ∀ lane, (((hex16 x0).2.and (hex16 x1).2).and ((hex16 x2).2.and (hex16 x3).2)) lane = Register.maskByte
      (((nibble (x0 lane)).isSome && (nibble (x1 lane)).isSome) && ((nibble (x2 lane)).isSome && (nibble (x3 lane)).isSome)) := by
    intro lane
    simp only [Register.and, hex16_valid, maskByte_and]
  have full : (((hex16 x0).2.and (hex16 x1).2).and ((hex16 x2).2.and (hex16 x3).2)).minAcross = 255 ↔ _ := Register.minAcross_eq_iff masked
  simp only [Bool.and_eq_true, forall_and, and_assoc, ← valid] at full
  rw [row, load0, load1, load2, load3]
  simp only [Outcome.ok_bind]
  by_cases digits : ∀ byte ∈ hash.val, (nibble byte).isSome
  · obtain ⟨valid0, valid1, valid2, valid3⟩ := valid.mp digits
    have first : ∀ index : Fin 16, pack (hex16 x0).1 (hex16 x1).1 index =
        pairByte (hash.val.getD (0 + 2 * index) 0) (hash.val.getD (0 + (2 * index + 1)) 0) := fun index =>
      packed_lane holds0 holds1 (pack_lane valid0 valid1 index)
    have second : ∀ index : Fin 16, pack (hex16 x2).1 (hex16 x3).1 index =
        pairByte (hash.val.getD (32 + 2 * index) 0) (hash.val.getD (32 + (2 * index + 1)) 0) := fun index =>
      packed_lane holds2 holds3 (pack_lane valid2 valid3 index)
    rw [if_neg (not_not.mpr (full.mpr digits)), scan_eq _ (Scanned.start path), scalar_eq, decodeHash_of_stores digits first second]
    rfl
  · rw [if_pos (mt full.mp digits), scalar_eq, decodeHash_of_invalid digits]
    rfl

section Avx2

variable {hash : HashField} {x0 x1 : Register 32} (holds0 : Holds x0 hash.val 0) (holds1 : Holds x1 hash.val 32)
include holds0 holds1

theorem valid_iff_avx2 : ((hex32 x0).2.and (hex32 x1).2).moveMask = -1 ↔ ∀ byte ∈ hash.val, (nibble byte).isSome := by
  have masked : ∀ lane, ((hex32 x0).2.and (hex32 x1).2) lane = Register.maskByte ((nibble (x0 lane)).isSome && (nibble (x1 lane)).isSome) := by
    intro lane
    simp only [Register.and, hex32_valid, maskByte_and]
  have full : ((hex32 x0).2.and (hex32 x1).2).moveMask = -1 ↔ _ := Register.moveMask_eq_iff masked (by decide)
  simp only [Bool.and_eq_true, forall_and] at full
  rw [full, holds0.forall_iff fun byte => (nibble byte).isSome, holds1.forall_iff fun byte => (nibble byte).isSome,
    forall_mem_hash fun byte => (nibble byte).isSome]
  constructor
  · rintro ⟨each0, each1⟩ index inside
    rcases Nat.lt_or_ge index 32 with below | above
    · have here := each0 index below
      rwa [Nat.zero_add] at here
    · have here := each1 (index - 32) (by omega)
      rwa [show 32 + (index - 32) = index by omega] at here
  · intro each
    exact ⟨fun index inside => each _ (by omega), fun index inside => each _ (by omega)⟩

theorem decodeHash_of_permuted {width} (digits : ∀ byte ∈ hash.val, (nibble byte).isSome) :
    decodeHash hash = some ⟨(Register.permuteGroups 0xD8 (Register.packUnsigned ((hex32 x0).1.multiplyAddWords (.splatWords 0x0110))
      ((hex32 x1).1.multiplyAddWords (.splatWords 0x0110)))).store, width⟩ := by
  have valid0 : ∀ lane, (nibble (x0 lane)).isSome := (holds0.forall_iff fun byte => (nibble byte).isSome).mpr fun index inside =>
    (forall_mem_hash fun byte => (nibble byte).isSome).mp digits _ (by omega)
  have valid1 : ∀ lane, (nibble (x1 lane)).isSome := (holds1.forall_iff fun byte => (nibble byte).isSome).mpr fun index inside =>
    (forall_mem_hash fun byte => (nibble byte).isSome).mp digits _ (by omega)
  apply decodeHash_of_bytes digits
  intro index bound
  change (Register.store _).getD index 0 = _
  rw [getD_eq_getElem?_getD, Register.store, List.getElem?_ofFn, dif_pos bound, Option.getD_some, Register.permuteGroups_packUnsigned]
  dsimp only
  split_ifs with first
  · rw [hex32_word (by omega) valid0, holds0 _ (by omega), holds0 _ (by omega), Nat.zero_add, Nat.zero_add]
  · have position : 32 + 2 * (index - 16) = 2 * index := by omega
    rw [hex32_word (by omega) valid1, holds1 _ (by omega), holds1 _ (by omega), ← Nat.add_assoc, position]

end Avx2

theorem rowAvx2_eq (hash : HashField) (path : Str) : (rowAvx2 hash path : Outcome ε DecodedRow) = .ok (scalar hash path) := by
  obtain ⟨x0, load0, holds0⟩ := loadu_holds (ε := ε) hash 32 0 (by decide)
  obtain ⟨x1, load1, holds1⟩ := loadu_holds (ε := ε) hash 32 32 (by decide)
  have full := valid_iff_avx2 holds0 holds1
  have rejected : (¬∀ byte ∈ hash.val, (nibble byte).isSome) → scalar hash path = none := fun digits => by
    rw [scalar_eq, decodeHash_of_invalid digits]
    rfl
  rw [rowAvx2, load0, load1]
  by_cases room : 32 ≤ path.length
  · -- the first block is read before the digest is known to be valid
    have inside : 0 + 32 ≤ path.length := by rwa [Nat.zero_add]
    obtain ⟨x, loaded, block, -⟩ := loadu_eq (ε := ε) inside
    rw [loaded]
    simp only [Outcome.ok_bind, if_pos room, Except.map]
    by_cases digits : ∀ byte ∈ hash.val, (nibble byte).isSome
    · rw [if_neg (not_not.mpr (full.mpr digits)), scalar_eq, decodeHash_of_permuted holds0 holds1 digits, Option.bind_some]
      by_cases ends : (blockMasks x).1 = 0
      · rw [if_neg (not_not.mpr ends)]
        exact scanBlocks_eq (by decide) _ (scanSse2_eq _) ((Scanned.start path).next (by decide) block inside ends)
      · have done := fun oid => finish_block (ε := ε) (by decide) (Scanned.start path) block oid ends
        simp only [Nat.zero_add] at done
        rw [if_pos ends]
        exact done _
    · rw [if_pos (mt full.mp digits), rejected digits]
      rfl
  · simp only [Outcome.ok_bind, if_neg room, pure_bind]
    by_cases digits : ∀ byte ∈ hash.val, (nibble byte).isSome
    · rw [if_neg (not_not.mpr (full.mpr digits)), scalar_eq, decodeHash_of_permuted holds0 holds1 digits, Option.bind_some]
      exact scanBlocks_eq (by decide) _ (scanSse2_eq _) (Scanned.start path)
    · rw [if_pos (mt full.mp digits), rejected digits]
      rfl

theorem Backend.row_eq (backend : Backend) (hash : HashField) (path : Str) : (backend.row hash path : Outcome ε DecodedRow) = .ok (Gat.scalar hash path) := by
  cases backend with
  | scalar => rfl
  | sse2 => exact rowSse2_eq hash path
  | avx2 => exact rowAvx2_eq hash path
  | neon => exact Neon.row_eq hash path

end Gat.RowKernel
