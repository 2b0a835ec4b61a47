import Gat.Model.ShardIdentity
import Gat.Proofs.LockStore
import Gat.Proofs.Oid

/-! # Shard identities and their spellings

The stored bytes behind the depth are zero in every identity that the code builds, so the stored form and the used bytes
determine each other. A spelling is parsed component by component, and the order of the spellings is the order of the
used bytes: a separator and two digits stand for each byte, and the dot of the ending is below the separator.
-/

namespace Gat

open LockFormat

/-! ## The order of spellings -/

theorem hexDigit_lt_iff {high low : UInt8} (highBound : high < 16) (lowBound : low < 16) : hexDigit high < hexDigit low ↔ high < low := by
  have every : ∀ first second : Fin 16, hexDigit (UInt8.ofNat first) < hexDigit (UInt8.ofNat second) ↔ UInt8.ofNat first < UInt8.ofNat second := by
    decide +kernel
  have first := UInt8.lt_iff_toNat_lt.mp highBound
  have second := UInt8.lt_iff_toNat_lt.mp lowBound
  simpa using every ⟨high.toNat, first⟩ ⟨low.toNat, second⟩

/-- A byte orders texts as its two digits do. -/
theorem spellByte_append_lt_iff {first second : UInt8} {rest rest' : Str} :
    spellByte first ++ rest < spellByte second ++ rest' ↔ first < second ∨ first = second ∧ rest < rest' := by
  obtain ⟨high, low, whole⟩ := byte_halves first
  obtain ⟨high', low', whole'⟩ := byte_halves second
  have digits : ∀ {value other : UInt8}, value < 16 → other < 16 → (hexDigit value = hexDigit other ↔ value = other) := by
    intro value other bound otherBound
    refine ⟨fun same => ?_, congrArg hexDigit⟩
    have read := congrArg nibble same
    rwa [nibble_hexDigit _ bound, nibble_hexDigit _ otherBound, Option.some.injEq] at read
  change hexDigit (first >>> 4) :: hexDigit (first &&& 0xF) :: rest < hexDigit (second >>> 4) :: hexDigit (second &&& 0xF) :: rest' ↔ _
  rw [List.cons_lt_cons_iff, List.cons_lt_cons_iff, hexDigit_lt_iff high high', hexDigit_lt_iff low low', digits high high', digits low low']
  generalize first >>> 4 = h at *
  generalize first &&& 0xF = l at *
  generalize second >>> 4 = h' at *
  generalize second &&& 0xF = l' at *
  have value := congrArg UInt8.toNat whole
  have value' := congrArg UInt8.toNat whole'
  simp only [UInt8.toNat_add, UInt8.toNat_mul, UInt8.lt_iff_toNat_lt, ← UInt8.toNat_inj] at *
  change h.toNat < 16 at high
  change l.toNat < 16 at low
  change h'.toNat < 16 at high'
  change l'.toNat < 16 at low'
  change (h.toNat * 16 % 256 + l.toNat) % 256 = first.toNat at value
  change (h'.toNat * 16 % 256 + l'.toNat) % 256 = second.toNat at value'
  have ordered : h.toNat < h'.toNat ∨ h.toNat = h'.toNat ∧ l.toNat < l'.toNat ↔ first.toNat < second.toNat := by omega
  have equal : h.toNat = h'.toNat ∧ l.toNat = l'.toNat ↔ first.toNat = second.toNat := by omega
  rw [← ordered, ← equal, and_or_left, or_assoc, and_assoc]

/-- The components and the ending of a sharded spelling. -/
def spellTail (bytes : List UInt8) : Str := (bytes.flatMap fun byte => Byte.slash :: spellByte byte) ++ ascii ".tsv"

theorem spellTail_nil : spellTail [] = ascii ".tsv" := rfl

theorem spellTail_cons (byte : UInt8) (bytes : List UInt8) : spellTail (byte :: bytes) = Byte.slash :: (spellByte byte ++ spellTail bytes) := by
  simp [spellTail]

/-- The dot of an ending is below the separator of a further component. -/
theorem spellTail_nil_lt_cons (byte : UInt8) (bytes : List UInt8) : spellTail [] < spellTail (byte :: bytes) := by
  rw [spellTail_nil, spellTail_cons]
  exact List.cons_lt_cons_iff.mpr (Or.inl (by decide))

theorem spellTail_lt_iff {left right : List UInt8} : spellTail left < spellTail right ↔ left < right := by
  induction left generalizing right with
  | nil =>
    cases right with
    | nil => simp
    | cons byte right => exact iff_of_true (spellTail_nil_lt_cons byte right) List.Lex.nil
  | cons byte left ih =>
    cases right with
    | nil => exact iff_of_false (lt_asymm (spellTail_nil_lt_cons byte left)) (List.not_lt_nil _)
    | cons other right =>
      rw [spellTail_cons, spellTail_cons, List.cons_lt_cons_iff, spellByte_append_lt_iff, ih, List.cons_lt_cons_iff]
      simp

namespace LockShardId

theorem toCanonicalString_flat : flat.toCanonicalString = ascii "gat.lock" := by
  decide

theorem toCanonicalString_of_not_flat {id : LockShardId} (sharded : id ≠ flat) :
    id.toCanonicalString = ascii "gat.lock" ++ spellTail id.prefixBytes := by
  have other : ¬id.isFlat := fun isFlat => sharded (eq_flat (LockShardLevels.isFlat_iff.mp isFlat))
  rw [toCanonicalString, if_neg other, List.append_assoc]
  rfl

/-- The order of the identities is the order of their spellings. -/
theorem toCanonicalString_strictMono : StrictMono toCanonicalString := by
  intro left right below
  have sharded : right ≠ flat := by
    rintro rfl
    exact List.not_lt_nil _ below
  rw [toCanonicalString_of_not_flat sharded]
  by_cases isFlat : left = flat
  · rw [isFlat, toCanonicalString_flat]
    refine (List.prefix_append _ _).lt_lex ?_
    rw [List.length_append, spellTail, List.length_append]
    exact Nat.lt_add_of_pos_right (Nat.add_pos_right _ (by decide))
  · rw [toCanonicalString_of_not_flat isFlat]
    exact List.append_left_lt (spellTail_lt_iff.mpr below)

/-- Swapping the sides swaps the answer. -/
theorem cmp_swap (left right : LockShardId) : (left.cmp right).swap = right.cmp left := by
  have texts (first second : Str) : (Str.cmp first second).swap = Str.cmp second first := by
    cases order : Str.cmp first second with
    | lt => exact (Str.cmp_eq_gt_iff.mpr (Str.cmp_eq_lt_iff.mp order)).symm
    | eq => exact (Str.cmp_eq_eq_iff.mpr (Str.cmp_eq_eq_iff.mp order).symm).symm
    | gt => exact (Str.cmp_eq_lt_iff.mpr (Str.cmp_eq_gt_iff.mp order)).symm
  rw [cmp, cmp, Ordering.swap_then, texts, min_comm, Nat.compare_swap]

theorem cmp_eq_cmp_toCanonicalString (left right : LockShardId) : left.cmp right = Str.cmp left.toCanonicalString right.toCanonicalString := by
  rcases lt_trichotomy left right with below | rfl | above
  · rw [cmp_eq_lt_iff.mpr below, Str.cmp_eq_lt_iff.mpr (toCanonicalString_strictMono below)]
  · rw [Str.cmp_eq_eq_iff.mpr rfl, cmp, Str.cmp_eq_eq_iff.mpr rfl, Nat.compare_eq_eq.mpr rfl]
    rfl
  · rw [← cmp_swap, cmp_eq_lt_iff.mpr above, Str.cmp_eq_gt_iff.mpr (toCanonicalString_strictMono above)]
    rfl

end LockShardId

namespace RawShardId

/-- The bytes behind the depth are zero. -/
def Clean (id : RawShardId) : Prop := id.leading.toList = id.prefixBytes ++ List.replicate (LockShardLevels.MAX - id.depth.depth) 0

/-- The identity that a stored form stands for. -/
def toShardId (id : RawShardId) : LockShardId where
  levels := id.depth
  prefixBytes := id.prefixBytes
  width := by
    have bound := id.depth.bound
    rw [prefixBytes, List.length_take, List.Vector.toList_length, LockShardLevels.MAX]
    omega

variable {id : RawShardId} {raw : Str}

theorem Clean.eq_of_toShardId {left right : RawShardId} (clean : left.Clean) (clean' : right.Clean) (same : left.toShardId = right.toShardId) :
    left = right := by
  obtain ⟨depth, leading⟩ := left
  obtain ⟨depth', leading'⟩ := right
  obtain rfl : depth = depth' := congrArg LockShardId.levels same
  have bytes : prefixBytes ⟨depth, leading⟩ = prefixBytes ⟨depth, leading'⟩ := congrArg LockShardId.prefixBytes same
  have stored : leading.toList = leading'.toList := by
    rw [Clean] at clean clean'
    exact clean.trans ((congrArg (· ++ _) bytes).trans clean'.symm)
  rw [List.Vector.eq _ _ stored]

/-- Only the bytes that both sides use are compared. -/
theorem cmp_eq_cmp_toShardId (left right : RawShardId) : left.cmp right = left.toShardId.cmp right.toShardId := by
  unfold cmp LockShardId.cmp
  simp only [toShardId, prefixBytes, List.take_take]
  rw [min_eq_left (min_le_left _ _), min_eq_left (min_le_right _ _)]

theorem toCanonicalString_toShardId (id : RawShardId) : id.toShardId.toCanonicalString = id.toCanonicalString := rfl

/-! ## Identities of paths -/

theorem clean_flat : flat.Clean := rfl

theorem clean_forPath (blake3 : ContentHash) (path : GatPath) (levels : LockShardLevels) : (forPath blake3 path levels).Clean := by
  unfold forPath forValidatedPath
  split_ifs
  · exact clean_flat
  · have bound := levels.bound
    have used : ((blake3 path.text).toList.take levels.depth).length = levels.depth := by
      rw [List.length_take, List.Vector.toList_length]
      omega
    rw [Clean, prefixBytes]
    dsimp only [List.Vector.toList_mk]
    rw [List.take_append_of_le_length used.ge, List.take_of_length_le used.le]

/-- The stored identity of a path stands for its shard. -/
theorem toShardId_forPath (blake3 : ContentHash) (path : GatPath) (levels : LockShardLevels) :
    (forPath blake3 path levels).toShardId = LockShardId.forPath blake3 path levels := by
  refine LockShardId.prefixBytes_injective ?_
  unfold forPath forValidatedPath LockShardId.forPath LockShardId.forValidatedPath
  split_ifs
  · rfl
  · have bound := levels.bound
    have used : ((blake3 path.text).toList.take levels.depth).length = levels.depth := by
      rw [List.length_take, List.Vector.toList_length]
      omega
    change List.take levels.depth (_ ++ _) = _
    rw [List.take_append_of_le_length used.ge, List.take_of_length_le used.le]

/-! ## Parsing -/

/-- Refusing uppercase leaves the lowercase digits. -/
theorem nibble_eq_toDigit (byte : UInt8) : nibble byte = if !isAsciiDigit byte && !isAsciiLowercase byte then none else toDigit byte := by
  have every : ∀ value : Fin 256, nibble (UInt8.ofNat value) =
      if !isAsciiDigit (UInt8.ofNat value) && !isAsciiLowercase (UInt8.ofNat value) then none else toDigit (UInt8.ofNat value) := by
    decide +kernel
  simpa using every ⟨byte.toNat, byte.toNat_lt⟩

theorem parseHexByte_eq_some_iff {component : Str} {byte : UInt8} : parseHexByte component = some byte ↔ component = spellByte byte := by
  match component with
  | [] | [_] | _ :: _ :: _ :: _ => exact iff_of_false nofun nofun
  | [first, second] =>
    rw [← nibbles_eq_some_iff, parseHexByte]
    simp only [nibble_eq_toDigit, Option.bind_eq_bind]
    cases high : toDigit first with
    | none => simp
    | some highValue =>
      cases low : toDigit second with
      | none => simp
      | some lowValue =>
        by_cases refused : (!isAsciiDigit first && !isAsciiLowercase first) = true
        · simp [refused]
        by_cases refused' : (!isAsciiDigit second && !isAsciiLowercase second) = true
        · simp [refused, refused']
        have highBound := (nibble_eq_some_iff.mp ((nibble_eq_toDigit first).trans ((if_neg refused).trans high))).1
        have lowBound := (nibble_eq_some_iff.mp ((nibble_eq_toDigit second).trans ((if_neg refused').trans low))).1
        simp only [if_neg refused, if_neg refused', Option.bind_some, shift_or highValue highBound lowValue lowBound]

theorem parseComponents_eq_some_iff {components : List Str} {depth depth' : ℕ} {leading leading' : List.Vector UInt8 LockShardLevels.MAX}
    (bound : depth ≤ LockShardLevels.MAX) :
    parseComponents components depth leading = some (depth', leading') ↔
      ∃ bytes : List UInt8, components = bytes.map spellByte ∧ depth' = depth + bytes.length ∧ depth' ≤ LockShardLevels.MAX ∧
        leading'.toList = leading.toList.take depth ++ bytes ++ leading.toList.drop depth' := by
  induction components generalizing depth leading with
  | nil =>
    rw [parseComponents, Option.some.injEq, Prod.mk.injEq]
    constructor
    · rintro ⟨rfl, rfl⟩
      exact ⟨[], rfl, rfl, bound, by simp⟩
    · rintro ⟨bytes, spelled, rfl, -, stored⟩
      obtain rfl := List.map_eq_nil_iff.mp spelled.symm
      refine ⟨rfl, List.Vector.eq _ _ ?_⟩
      rw [stored, List.append_nil]
      exact (List.take_append_drop _ _).symm
  | cons component components ih =>
    rw [parseComponents]
    split_ifs with inside
    · have width : depth < leading.toList.length := inside.trans_eq leading.toList_length.symm
      have before (byte : UInt8) : (leading.set ⟨depth, inside⟩ byte).toList.take (depth + 1) = leading.toList.take depth ++ [byte] := by
        rw [List.Vector.toList_set, List.set_eq_take_append_cons_drop, if_pos width, List.append_cons]
        exact List.take_left' (by rw [List.length_append, List.length_take, min_eq_left width.le, List.length_singleton])
      have after (byte : UInt8) {index : ℕ} (later : depth < index) :
          (leading.set ⟨depth, inside⟩ byte).toList.drop index = leading.toList.drop index := by
        rw [List.Vector.toList_set, List.drop_set_of_lt later]
      simp only [Option.bind_eq_bind, Option.bind_eq_some_iff, parseHexByte_eq_some_iff, ih (Nat.succ_le_of_lt inside)]
      constructor
      · rintro ⟨byte, rfl, bytes, rfl, rfl, fits, stored⟩
        refine ⟨byte :: bytes, rfl, by rw [List.length_cons]; omega, fits, ?_⟩
        simp only [stored, before, after byte (Nat.lt_add_right _ (Nat.lt_succ_self depth)), List.append_assoc, List.nil_append, List.cons_append]
      · rintro ⟨bytes, spelled, rfl, fits, stored⟩
        cases bytes with
        | nil => cases spelled
        | cons byte bytes =>
          rw [List.map_cons, List.cons.injEq] at spelled
          rw [List.length_cons] at fits stored
          refine ⟨byte, spelled.1, bytes, spelled.2, by rw [List.length_cons]; omega, fits, ?_⟩
          rw [stored, List.length_cons, before, after byte (by omega), List.append_cons]
    · refine iff_of_false nofun ?_
      rintro ⟨bytes, spelled, rfl, fits, -⟩
      cases bytes with
      | nil => cases spelled
      | cons byte bytes =>
        rw [List.length_cons] at fits
        omega

/-- A sharded spelling is the root, the components between separators and the ending. -/
theorem spellTail_eq_intercalate {bytes : List UInt8} (some : bytes ≠ []) :
    spellTail bytes = Byte.slash :: ([Byte.slash].intercalate (bytes.map spellByte) ++ ascii ".tsv") := by
  induction bytes with
  | nil => exact absurd rfl some
  | cons byte bytes ih =>
    rw [spellTail_cons]
    cases bytes with
    | nil => rw [spellTail_nil, List.map_singleton, List.intercalate_singleton]
    | cons other bytes =>
      rw [ih (List.cons_ne_nil _ _)]
      simp only [List.map_cons, List.intercalate_cons_cons, List.append_assoc, List.nil_append, List.cons_append]

theorem splitOn_intercalate_spellByte {bytes : List UInt8} (some : bytes ≠ []) :
    ([Byte.slash].intercalate (bytes.map spellByte)).splitOn Byte.slash = bytes.map spellByte := by
  refine List.splitOn_intercalate _ (fun component member => ?_) (by simpa using some)
  obtain ⟨byte, -, rfl⟩ := List.mem_map.mp member
  exact fun isSlash => absurd ((hexSpells_spellByte byte).mem_hexDigits _ isSlash) (by decide)

theorem parseSharded_eq_some_iff :
    parseSharded raw = some id ↔ id.Clean ∧ id.prefixBytes ≠ [] ∧ raw = ascii "gat.lock" ++ spellTail id.prefixBytes := by
  have used : id.prefixBytes.length = id.depth.depth := id.toShardId.width
  have start : (List.Vector.replicate LockShardLevels.MAX (0 : UInt8)).toList = List.replicate LockShardLevels.MAX 0 := rfl
  have filled (bytes : List UInt8) : (List.Vector.replicate LockShardLevels.MAX (0 : UInt8)).toList.take 0 ++ bytes ++
      (List.Vector.replicate LockShardLevels.MAX (0 : UInt8)).toList.drop bytes.length =
      bytes ++ List.replicate (LockShardLevels.MAX - bytes.length) 0 := by
    rw [List.take_zero, List.nil_append, start, List.drop_replicate]
  unfold parseSharded
  simp only [Option.bind_eq_bind, Option.bind_eq_some_iff, Str.stripPrefix_eq_some_iff, Str.stripSuffix_eq_some_iff, Prod.exists,
    parseComponents_eq_some_iff (Nat.zero_le LockShardLevels.MAX), Nat.zero_add]
  constructor
  · rintro ⟨_, rfl, rel, rfl, depth, leading, ⟨bytes, components, rfl, fits, stored⟩, parsed⟩
    split_ifs at parsed with flat
    cases parsed
    rw [filled] at stored
    have taken : prefixBytes ⟨⟨bytes.length, fits⟩, leading⟩ = bytes := by
      rw [prefixBytes]
      dsimp only
      rw [stored, List.take_left]
    have some : bytes ≠ [] := fun none => flat (List.length_eq_zero_iff.mpr none)
    have whole : [Byte.slash].intercalate (bytes.map spellByte) = rel := by rw [← components, List.intercalate_splitOn]
    refine ⟨?_, fun none => some (taken.symm.trans none), ?_⟩
    · rw [Clean, taken]
      exact stored
    · rw [taken, spellTail_eq_intercalate some, whole]
      rfl
  · rintro ⟨clean, some, rfl⟩
    have fits : id.prefixBytes.length ≤ LockShardLevels.MAX := used.trans_le id.depth.bound
    refine ⟨_, by rw [spellTail_eq_intercalate some]; rfl, _, rfl, _, id.leading,
      ⟨id.prefixBytes, splitOn_intercalate_spellByte some, rfl, fits, ?_⟩, ?_⟩
    · rw [filled, used]
      exact clean
    · rw [if_neg (List.length_eq_zero_iff.not.mpr some), dif_pos fits, Option.some.injEq]
      exact congrArg (fun depth => RawShardId.mk depth id.leading) (LockShardLevels.ext used)

/-- Parsing accepts exactly the spellings of the identities that keep zeros behind the depth. -/
theorem parseCanonical_eq_ok_iff : parseCanonical raw = .ok id ↔ id.Clean ∧ id.toCanonicalString = raw := by
  have spelling : id.toCanonicalString = id.toShardId.toCanonicalString := rfl
  have sharded_iff : id.prefixBytes ≠ [] ↔ id.toShardId ≠ LockShardId.flat :=
    not_congr ⟨fun none => LockShardId.prefixBytes_injective none, fun isFlat => congrArg LockShardId.prefixBytes isFlat⟩
  unfold parseCanonical
  split_ifs with isRoot
  · rw [Except.ok.injEq, isRoot, spelling, ← LockShardId.toCanonicalString_flat]
    constructor
    · rintro rfl
      exact ⟨clean_flat, rfl⟩
    · rintro ⟨clean, same⟩
      exact clean_flat.eq_of_toShardId clean (LockShardId.toCanonicalString_strictMono.injective same).symm
  · have parsed_iff : (parseSharded raw).elim (.error ⟨raw⟩) .ok = (.ok id : Except LockShardIdError RawShardId) ↔ parseSharded raw = some id := by
      cases parseSharded raw <;> simp
    rw [parsed_iff, parseSharded_eq_some_iff]
    refine and_congr_right fun _ => ⟨?_, fun same => ?_⟩
    · rintro ⟨some, rfl⟩
      exact LockShardId.toCanonicalString_of_not_flat (sharded_iff.mp some)
    · have sharded : id.toShardId ≠ LockShardId.flat := by
        intro isFlat
        refine isRoot ?_
        rw [← same, spelling, isFlat, LockShardId.toCanonicalString_flat]
      exact ⟨sharded_iff.mpr sharded, same ▸ LockShardId.toCanonicalString_of_not_flat sharded⟩

end RawShardId

/-- What the code builds: the identity of a path, and what a spelling parses to. -/
def RawShardId.Produced (blake3 : ContentHash) (id : RawShardId) : Prop :=
  (∃ path levels, RawShardId.forPath blake3 path levels = id) ∨ ∃ raw, RawShardId.parseCanonical raw = .ok id

/-- Shard identities and their spellings correspond one to one and in order. Every identity that the code builds is parsed from its spelling,
exactly the spellings of such identities are accepted and each renders as it was, and identities of any depths compare as their spellings
do, with equality only of equal identities. -/
theorem shard_identities_spelled (blake3 : ContentHash) :
    (∀ id, RawShardId.Produced blake3 id → RawShardId.parseCanonical id.toCanonicalString = .ok id) ∧
      (∀ raw, (∃ id, RawShardId.parseCanonical raw = .ok id) ↔ ∃ id, RawShardId.Produced blake3 id ∧ id.toCanonicalString = raw) ∧
      (∀ raw id, RawShardId.parseCanonical raw = .ok id → id.toCanonicalString = raw) ∧
      ∀ left right, RawShardId.Produced blake3 left → RawShardId.Produced blake3 right →
        left.cmp right = Str.cmp left.toCanonicalString right.toCanonicalString ∧ (left.cmp right = .eq ↔ left = right) := by
  have clean {id : RawShardId} (produced : RawShardId.Produced blake3 id) : id.Clean := by
    rcases produced with ⟨path, levels, rfl⟩ | ⟨raw, parsed⟩
    · exact RawShardId.clean_forPath blake3 path levels
    · exact (RawShardId.parseCanonical_eq_ok_iff.mp parsed).1
  refine ⟨fun id produced => RawShardId.parseCanonical_eq_ok_iff.mpr ⟨clean produced, rfl⟩, fun raw => ⟨?_, ?_⟩,
    fun raw id parsed => (RawShardId.parseCanonical_eq_ok_iff.mp parsed).2, fun left right first second => ?_⟩
  · rintro ⟨id, parsed⟩
    exact ⟨id, Or.inr ⟨raw, parsed⟩, (RawShardId.parseCanonical_eq_ok_iff.mp parsed).2⟩
  · rintro ⟨id, produced, rfl⟩
    exact ⟨id, RawShardId.parseCanonical_eq_ok_iff.mpr ⟨clean produced, rfl⟩⟩
  · have compared : left.cmp right = Str.cmp left.toCanonicalString right.toCanonicalString := by
      rw [RawShardId.cmp_eq_cmp_toShardId, LockShardId.cmp_eq_cmp_toCanonicalString, RawShardId.toCanonicalString_toShardId,
        RawShardId.toCanonicalString_toShardId]
    refine ⟨compared, ?_⟩
    rw [compared, Str.cmp_eq_eq_iff]
    refine ⟨fun same => (clean first).eq_of_toShardId (clean second) ?_, congrArg _⟩
    exact LockShardId.toCanonicalString_strictMono.injective same

end Gat
