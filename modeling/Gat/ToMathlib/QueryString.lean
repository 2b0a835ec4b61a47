import Mathlib.Data.Fintype.Basic
import Mathlib.Data.List.Basic
import Mathlib.Data.List.DropRight
import Mathlib.Data.List.TakeWhile
import Mathlib.Tactic.Common

/-! # Query strings

A query is a sequence of pairs, cut at separators and percent-decoded. Rewriting every letter of a list commutes with cutting it,
as long as separators stay what they are and no other letter turns into one; so encoding, and filling in values that are encoded,
keeps the pairs.
-/

namespace List

variable {α β : Type*} [DecidableEq α] [DecidableEq β]

/-- The part before the first separator, and the part behind it when there is one. -/
def cut (separator : α) (list : List α) : List α × Option (List α) :=
  (list.takeWhile (· ≠ separator), (list.dropWhile (· ≠ separator)).tail?)

theorem cut_of_notMem {separator : α} {list : List α} (free : separator ∉ list) : list.cut separator = (list, none) := by
  have all : ∀ letter ∈ list, decide (letter ≠ separator) = true := by
    intro letter member
    rw [decide_eq_true_eq]
    rintro rfl
    exact free member
  rw [cut, takeWhile_eq_self_iff.mpr all, dropWhile_eq_nil_iff.mpr all]
  rfl

theorem cut_append {separator : α} {before : List α} (free : separator ∉ before) (after : List α) :
    (before ++ separator :: after).cut separator = (before, some after) := by
  have all : ∀ letter ∈ before, decide (letter ≠ separator) = true := by
    intro letter member
    rw [decide_eq_true_eq]
    rintro rfl
    exact free member
  rw [cut, takeWhile_append_of_pos all, dropWhile_append_of_pos all, takeWhile_cons_of_neg (by simp), dropWhile_cons_of_neg (by simp), append_nil]
  rfl

theorem cut_cases (separator : α) (list : List α) :
    separator ∉ list ∧ list.cut separator = (list, none) ∨
      ∃ before after, separator ∉ before ∧ list = before ++ separator :: after ∧ list.cut separator = (before, some after) := by
  by_cases member : separator ∈ list
  · obtain ⟨before, after, rfl, free⟩ := eq_append_cons_of_mem member
    exact Or.inr ⟨before, after, free, rfl, cut_append free after⟩
  · exact Or.inl ⟨member, cut_of_notMem member⟩

theorem append_of_cut_eq {separator : α} {list before after : List α} (found : list.cut separator = (before, some after)) :
    separator ∉ before ∧ list = before ++ separator :: after := by
  rcases list.cut_cases separator with ⟨-, whole⟩ | ⟨_, _, free, rfl, whole⟩
  · rw [whole] at found
    cases found
  · rw [whole] at found
    cases found
    exact ⟨free, rfl⟩

theorem length_lt_of_cut_eq {separator : α} {list before after : List α} (found : list.cut separator = (before, some after)) :
    after.length < list.length := by
  obtain ⟨-, rfl⟩ := append_of_cut_eq found
  rw [length_append, length_cons]
  omega

theorem cut_append_of_notMem {separator : α} {before : List α} (free : separator ∉ before) (after : List α) :
    (before ++ after).cut separator = (before ++ (after.cut separator).1, (after.cut separator).2) := by
  rcases after.cut_cases separator with ⟨free', whole⟩ | ⟨front, behind, free', rfl, whole⟩
  · rw [whole, cut_of_notMem (by rw [mem_append, not_or]; exact ⟨free, free'⟩)]
  · rw [whole, ← append_assoc, cut_append (by rw [mem_append, not_or]; exact ⟨free, free'⟩)]

theorem cut_fst_prefix (separator : α) (list : List α) : (list.cut separator).1 <+: list := takeWhile_prefix _

theorem notMem_cut_fst (separator : α) (list : List α) : separator ∉ (list.cut separator).1 := by
  intro member
  have other := mem_takeWhile_imp member
  simp at other

theorem infix_of_cut (separator : α) (list : List α) :
    (list.cut separator).1 <:+: list ∧ ∀ after, (list.cut separator).2 = some after → after <:+: list := by
  rcases list.cut_cases separator with ⟨-, whole⟩ | ⟨before, after, -, rfl, whole⟩
  · rw [whole]
    exact ⟨infix_rfl, nofun⟩
  · rw [whole]
    refine ⟨⟨[], separator :: after, by simp⟩, fun _ same => ?_⟩
    rw [← Option.some.inj same]
    exact ⟨before ++ [separator], [], by simp⟩

/-- Where a part stands: first, or behind a separator. -/
theorem exists_append_of_splitOn {separator : α} {list part : List α} {earlier later : List (List α)}
    (parts : list.splitOn separator = earlier ++ part :: later) :
    separator ∉ part ∧ ∃ before after, list = before ++ part ++ after ∧
      (earlier = [] ∧ before = [] ∨ earlier ≠ [] ∧ ∃ front, before = front ++ [separator]) := by
  induction list generalizing earlier part with
  | nil =>
    rw [splitOn_nil] at parts
    obtain ⟨rfl, same⟩ | ⟨-, none⟩ := singleton_eq_append_iff.mp parts
    · obtain ⟨rfl, -⟩ := cons.inj same.symm
      exact ⟨nofun, [], [], rfl, Or.inl ⟨rfl, rfl⟩⟩
    · cases none
  | cons letter list ih =>
    rw [splitOn_cons_eq_if_modifyHead] at parts
    obtain ⟨first, others, shape⟩ := exists_cons_of_ne_nil (splitOn_ne_nil separator list)
    split_ifs at parts with here
    · obtain rfl : letter = separator := by simpa using here
      cases earlier with
      | nil =>
        obtain ⟨rfl, -⟩ := cons.inj parts
        exact ⟨nofun, [], letter :: list, rfl, Or.inl ⟨rfl, rfl⟩⟩
      | cons _ earlier =>
        obtain ⟨free, before, after, rfl, ⟨-, rfl⟩ | ⟨-, front, rfl⟩⟩ := ih (cons.inj parts).2
        · exact ⟨free, [letter], after, rfl, Or.inr ⟨cons_ne_nil _ _, [], rfl⟩⟩
        · exact ⟨free, letter :: (front ++ [letter]), after, rfl, Or.inr ⟨cons_ne_nil _ _, letter :: front, rfl⟩⟩
    · rw [shape, modifyHead_cons] at parts
      cases earlier with
      | nil =>
        obtain ⟨rfl, rfl⟩ := cons.inj parts
        obtain ⟨free, before, after, whole, ⟨-, rfl⟩ | ⟨some, -⟩⟩ := ih (show list.splitOn separator = [] ++ first :: others from shape)
        · refine ⟨?_, [], after, by rw [whole]; rfl, Or.inl ⟨rfl, rfl⟩⟩
          rw [mem_cons, not_or]
          exact ⟨fun same => here (by simp [same]), free⟩
        · exact absurd rfl some
      | cons _ earlier =>
        obtain ⟨rfl, rest⟩ := cons.inj parts
        obtain ⟨free, before, after, rfl, ⟨none, -⟩ | ⟨-, front, rfl⟩⟩ := ih (show list.splitOn separator = (first :: earlier) ++ part :: later by rw [shape, rest]; rfl)
        · cases none
        · exact ⟨free, letter :: (front ++ [separator]), after, rfl, Or.inr ⟨cons_ne_nil _ _, letter :: front, rfl⟩⟩

theorem exists_append_of_mem_splitOn {separator : α} {list part : List α} (member : part ∈ list.splitOn separator) :
    separator ∉ part ∧ ∃ before after, list = before ++ part ++ after ∧ (before = [] ∨ ∃ front, before = front ++ [separator]) := by
  obtain ⟨earlier, later, parts⟩ := append_of_mem member
  obtain ⟨free, before, after, whole, place⟩ := exists_append_of_splitOn parts
  exact ⟨free, before, after, whole, place.imp And.right And.right⟩

/-- What is behind the last separator is in the last part. -/
theorem mem_getLast_splitOn {separator letter : α} (before : List α) {after : List α} (other : letter ≠ separator) (free : separator ∉ after) :
    ∃ part, ((before ++ letter :: after).splitOn separator).getLast? = some part ∧ letter ∈ part := by
  induction before with
  | nil =>
    rw [nil_append, splitOn_eq_singleton (by rw [mem_cons, not_or]; exact ⟨Ne.symm other, free⟩)]
    exact ⟨_, rfl, mem_cons_self ..⟩
  | cons first before ih =>
    obtain ⟨part, last, member⟩ := ih
    obtain ⟨head, others, shape⟩ := exists_cons_of_ne_nil (splitOn_ne_nil separator (before ++ letter :: after))
    rw [cons_append, splitOn_cons_eq_if_modifyHead]
    rw [shape] at last ⊢
    split_ifs
    · exact ⟨part, by rw [getLast?_cons_cons, last], member⟩
    · rw [modifyHead_cons]
      cases others with
      | nil =>
        obtain rfl : head = part := by simpa using last
        exact ⟨first :: head, rfl, mem_cons_of_mem _ member⟩
      | cons next others =>
        rw [getLast?_cons_cons] at last ⊢
        exact ⟨part, last, member⟩

/-- The pairs of a list: non-empty parts, each cut in two. -/
def rawPairs (separator equals : α) (list : List α) : List (List α × List α) :=
  ((list.splitOn separator).filter (· ≠ [])).map fun pair => ((pair.cut equals).1, (pair.cut equals).2.getD [])

/-- A rewriting that keeps a separator and produces no other. -/
structure KeepsSeparator (spell : α → List β) (separator : α) (separator' : β) : Prop where
  same : spell separator = [separator']
  free : ∀ letter, letter ≠ separator → separator' ∉ spell letter

variable {spell : α → List β} {separator : α} {separator' : β}

omit [DecidableEq α] [DecidableEq β] in
theorem KeepsSeparator.notMem_flatMap (keeps : KeepsSeparator spell separator separator') {list : List α} (free : separator ∉ list) : separator' ∉ list.flatMap spell := by
  rw [mem_flatMap]
  rintro ⟨letter, member, spelled⟩
  refine keeps.free letter ?_ spelled
  rintro rfl
  exact free member

theorem KeepsSeparator.cut_flatMap (keeps : KeepsSeparator spell separator separator') (list : List α) :
    (list.flatMap spell).cut separator' = ((list.cut separator).1.flatMap spell, (list.cut separator).2.map (·.flatMap spell)) := by
  rcases list.cut_cases separator with ⟨free, whole⟩ | ⟨before, after, free, rfl, whole⟩
  · rw [whole, cut_of_notMem (keeps.notMem_flatMap free)]
    rfl
  · rw [whole, flatMap_append, flatMap_cons, keeps.same, singleton_append, cut_append (keeps.notMem_flatMap free)]
    rfl

omit [DecidableEq α] [DecidableEq β] in
theorem KeepsSeparator.comp {γ : Type*} {spell' : β → List γ} {separator'' : γ} (keeps : KeepsSeparator spell separator separator')
    (keeps' : KeepsSeparator spell' separator' separator'') : KeepsSeparator (fun letter => (spell letter).flatMap spell') separator separator'' where
  same := by rw [keeps.same, flatMap_singleton, keeps'.same]
  free letter other := keeps'.notMem_flatMap (keeps.free letter other)

theorem splitOn_append_of_notMem {piece : List α} (free : separator ∉ piece) (rest : List α) :
    (piece ++ rest).splitOn separator = (rest.splitOn separator).modifyHead (piece ++ ·) := by
  induction piece with
  | nil =>
    rw [nil_append]
    cases rest.splitOn separator <;> rfl
  | cons letter piece ih =>
    rw [mem_cons, not_or] at free
    rw [cons_append, splitOn_cons_eq_if_modifyHead, ih free.2, if_neg (by simpa using Ne.symm free.1)]
    cases rest.splitOn separator <;> rfl

theorem KeepsSeparator.splitOn_flatMap (keeps : KeepsSeparator spell separator separator') (list : List α) :
    (list.flatMap spell).splitOn separator' = (list.splitOn separator).map (·.flatMap spell) := by
  induction list with
  | nil => simp
  | cons letter list ih =>
    rw [flatMap_cons, splitOn_cons_eq_if_modifyHead]
    by_cases here : letter = separator
    · rw [here, keeps.same, singleton_append, splitOn_cons_eq_if_modifyHead, ih]
      simp
    · rw [splitOn_append_of_notMem (keeps.free letter here), ih, if_neg (by simpa using here)]
      cases list.splitOn separator <;> simp

/-- The pairs of a rewritten list, when no pair vanishes. -/
theorem KeepsSeparator.rawPairs_flatMap {equals : α} {equals' : β} (keeps : KeepsSeparator spell separator separator') (keeps' : KeepsSeparator spell equals equals')
    {list : List α} (stays : ∀ pair ∈ list.splitOn separator, pair ≠ [] → pair.flatMap spell ≠ []) :
    (list.flatMap spell).rawPairs separator' equals' = (list.rawPairs separator equals).map fun pair => (pair.1.flatMap spell, pair.2.flatMap spell) := by
  unfold rawPairs
  rw [keeps.splitOn_flatMap, filter_map, map_map, map_map]
  have same : (list.splitOn separator).filter ((fun pair => decide (pair ≠ [])) ∘ fun pair => pair.flatMap spell) =
      (list.splitOn separator).filter fun pair => decide (pair ≠ []) := by
    refine filter_congr fun pair member => ?_
    rw [Function.comp_apply, decide_eq_decide]
    refine ⟨fun some => ?_, stays pair member⟩
    rintro rfl
    exact some rfl
  rw [same]
  refine map_congr_left fun pair _ => ?_
  simp only [Function.comp_apply, keeps'.cut_flatMap]
  cases (pair.cut equals).2 <;> rfl

end List

/-! ## Percent escapes -/

namespace Percent

/-- The value of a hexadecimal digit. -/
def hexValue (digit : UInt8) : Option UInt8 :=
  if 0x30 ≤ digit ∧ digit ≤ 0x39 then some (digit - 0x30)
  else if 0x41 ≤ digit ∧ digit ≤ 0x46 then some (digit - 0x41 + 10)
  else if 0x61 ≤ digit ∧ digit ≤ 0x66 then some (digit - 0x61 + 10)
  else none

def upperDigit (value : UInt8) : UInt8 := if value < 10 then 0x30 + value else 0x41 + (value - 10)

/-- `%XX`. -/
def spell (byte : UInt8) : List UInt8 := [0x25, upperDigit (byte >>> 4), upperDigit (byte &&& 0x0F)]

/-- Bytes of a set are spelled. -/
def encode (set : UInt8 → Bool) (bytes : List UInt8) : List UInt8 := bytes.flatMap fun byte => if set byte then spell byte else [byte]

/-- The byte that two digits behind a percent sign stand for. -/
def escaped : List UInt8 → Option UInt8
  | high :: low :: _ => do
    let high ← hexValue high
    let low ← hexValue low
    some (high * 16 + low)
  | _ => none

/-- A percent sign without two digits stands for itself. -/
def decode : List UInt8 → List UInt8
  | [] => []
  | byte :: rest =>
    if byte = 0x25 then
      match escaped rest with
      | some value => value :: decode (rest.drop 2)
      | none => byte :: decode rest
    else byte :: decode rest
termination_by bytes => bytes.length

/-- Letters, digits and `*-._`. -/
def unreserved (byte : UInt8) : Bool :=
  0x30 ≤ byte && byte ≤ 0x39 || 0x41 ≤ byte && byte ≤ 0x5A || 0x61 ≤ byte && byte ≤ 0x7A || [0x2A, 0x2D, 0x2E, 0x5F].contains byte

/-- The serializer of forms. -/
def formSerialize (bytes : List UInt8) : List UInt8 :=
  bytes.flatMap fun byte => if unreserved byte then [byte] else if byte = 0x20 then [0x2B] else spell byte

def plusToSpace (byte : UInt8) : UInt8 := if byte = 0x2B then 0x20 else byte

/-- The decoder of forms. -/
def formDecode (bytes : List UInt8) : List UInt8 := decode (bytes.map plusToSpace)

/-- The decoded pairs of a query. -/
def pairs (query : List UInt8) : List (List UInt8 × List UInt8) :=
  (query.rawPairs 0x26 0x3D).map fun pair => (formDecode pair.1, formDecode pair.2)

/-! ## Tables -/

private theorem table (byte : UInt8) :
    (hexValue (upperDigit (byte >>> 4)) = some (byte >>> 4) ∧ hexValue (upperDigit (byte &&& 0x0F)) = some (byte &&& 0x0F) ∧
      (byte >>> 4) * 16 + (byte &&& 0x0F) = byte) ∧
    (unreserved (upperDigit (byte >>> 4)) = true ∧ unreserved (upperDigit (byte &&& 0x0F)) = true) ∧
    ((hexValue byte).isSome → unreserved byte = true) ∧
    (unreserved byte = true → 0x20 < byte ∧ byte < 0x7F ∧ byte ∉ [0x22, 0x23, 0x25, 0x26, 0x27, 0x2B, 0x3C, 0x3D, 0x3E, 0x3F]) := by
  have every : ∀ value : Fin 256, let byte := UInt8.ofNat value
      (hexValue (upperDigit (byte >>> 4)) = some (byte >>> 4) ∧ hexValue (upperDigit (byte &&& 0x0F)) = some (byte &&& 0x0F) ∧
        (byte >>> 4) * 16 + (byte &&& 0x0F) = byte) ∧
      (unreserved (upperDigit (byte >>> 4)) = true ∧ unreserved (upperDigit (byte &&& 0x0F)) = true) ∧
      ((hexValue byte).isSome → unreserved byte = true) ∧
      (unreserved byte = true → 0x20 < byte ∧ byte < 0x7F ∧ byte ∉ [0x22, 0x23, 0x25, 0x26, 0x27, 0x2B, 0x3C, 0x3D, 0x3E, 0x3F]) := by
    decide +kernel
  simpa using every ⟨byte.toNat, byte.toNat_lt⟩

theorem unreserved_of_hexValue {byte : UInt8} (digit : (hexValue byte).isSome) : unreserved byte = true := (table byte).2.2.1 digit

theorem plain_of_unreserved {byte : UInt8} (plain : unreserved byte = true) :
    0x20 < byte ∧ byte < 0x7F ∧ byte ∉ [0x22, 0x23, 0x25, 0x26, 0x27, 0x2B, 0x3C, 0x3D, 0x3E, 0x3F] := (table byte).2.2.2 plain

theorem plusToSpace_of_unreserved {byte : UInt8} (plain : unreserved byte = true) : plusToSpace byte = byte := by
  refine if_neg ?_
  rintro rfl
  cases plain

theorem mem_spell {byte letter : UInt8} (member : letter ∈ spell byte) : unreserved letter = true ∨ letter = 0x25 := by
  obtain ⟨-, ⟨high, low⟩, -⟩ := table byte
  rw [spell, List.mem_cons, List.mem_cons, List.mem_singleton] at member
  rcases member with rfl | rfl | rfl
  · exact Or.inr rfl
  · exact Or.inl high
  · exact Or.inl low

/-- A serialized text has only letters, digits and `*-._+%`. -/
theorem mem_formSerialize {bytes : List UInt8} {letter : UInt8} (member : letter ∈ formSerialize bytes) :
    unreserved letter = true ∨ letter ∈ [0x25, 0x2B] := by
  obtain ⟨byte, -, member⟩ := List.mem_flatMap.mp member
  split_ifs at member with plain space
  · rw [List.mem_singleton.mp member]
    exact Or.inl plain
  · rw [List.mem_singleton.mp member]
    exact Or.inr (by decide)
  · rcases mem_spell member with plain | rfl
    · exact Or.inl plain
    · exact Or.inr (by decide)

/-! ## Decoding what was encoded -/

theorem escaped_cons_eq_none {high : UInt8} (missing : hexValue high = none) (rest : List UInt8) : escaped (high :: rest) = none := by
  cases rest <;> simp [escaped, missing]

theorem escaped_cons_cons_eq_none {low : UInt8} (missing : hexValue low = none) (high : UInt8) (rest : List UInt8) :
    escaped (high :: low :: rest) = none := by
  cases digit : hexValue high <;> simp [escaped, missing, digit]

theorem escaped_eq_some {rest : List UInt8} {value : UInt8} (some_ : escaped rest = some value) :
    ∃ high low more, rest = high :: low :: more ∧ (hexValue high).isSome ∧ (hexValue low).isSome := by
  match rest with
  | [] | [_] => cases some_
  | high :: low :: more =>
    obtain ⟨first, isHigh, some_⟩ := Option.bind_eq_some_iff.mp some_
    obtain ⟨second, isLow, -⟩ := Option.bind_eq_some_iff.mp some_
    exact ⟨high, low, more, rfl, by rw [isHigh]; rfl, by rw [isLow]; rfl⟩

theorem escaped_spelled (byte : UInt8) (rest : List UInt8) : escaped (upperDigit (byte >>> 4) :: upperDigit (byte &&& 0x0F) :: rest) = some byte := by
  obtain ⟨⟨high, low, whole⟩, -⟩ := table byte
  simp only [escaped, high, low, Option.bind_eq_bind, Option.bind_some, whole]

theorem decode_cons_of_ne {byte : UInt8} (other : byte ≠ 0x25) (rest : List UInt8) : decode (byte :: rest) = byte :: decode rest := by
  rw [decode, if_neg other]

theorem decode_percent (rest : List UInt8) :
    decode (0x25 :: rest) = match escaped rest with
      | some value => value :: decode (rest.drop 2)
      | none => 0x25 :: decode rest := by
  rw [decode, if_pos rfl]

theorem hexValue_plusToSpace (byte : UInt8) : hexValue (plusToSpace byte) = hexValue byte := by
  unfold plusToSpace
  split_ifs with plus
  · rw [plus]
    rfl
  · rfl

theorem escaped_map_plusToSpace (rest : List UInt8) : escaped (rest.map plusToSpace) = escaped rest := by
  match rest with
  | [] => rfl
  | [_] => rfl
  | high :: low :: rest => simp only [List.map_cons, escaped, hexValue_plusToSpace]

theorem formDecode_cons_of_ne {byte : UInt8} (other : byte ≠ 0x25) (rest : List UInt8) :
    formDecode (byte :: rest) = plusToSpace byte :: formDecode rest := by
  apply decode_cons_of_ne
  unfold plusToSpace
  split_ifs
  · decide
  · exact other

theorem formDecode_percent (rest : List UInt8) :
    formDecode (0x25 :: rest) = match escaped rest with
      | some value => value :: formDecode (rest.drop 2)
      | none => 0x25 :: formDecode rest := by
  have percent : plusToSpace 0x25 = 0x25 := rfl
  rw [formDecode, List.map_cons, percent, decode_percent, escaped_map_plusToSpace, ← List.map_drop]
  rfl

theorem formDecode_spell (byte : UInt8) (rest : List UInt8) : formDecode (spell byte ++ rest) = byte :: formDecode rest := by
  rw [spell, List.cons_append, formDecode_percent, List.cons_append, List.cons_append, List.nil_append, escaped_spelled]
  rfl

/-- A serialized text decodes to itself, whatever follows. -/
theorem formDecode_serialize (bytes rest : List UInt8) : formDecode (formSerialize bytes ++ rest) = bytes ++ formDecode rest := by
  induction bytes with
  | nil => rfl
  | cons byte bytes ih =>
    rw [formSerialize, List.flatMap_cons, ← formSerialize, List.append_assoc]
    split_ifs with plain space
    · have other : byte ≠ 0x25 := by
        rintro rfl
        cases plain
      rw [List.singleton_append, formDecode_cons_of_ne other, plusToSpace_of_unreserved plain, ih]
      rfl
    · rw [List.singleton_append, formDecode_cons_of_ne (by decide), ih, space]
      rfl
    · rw [formDecode_spell, ih]
      rfl

section Encode

variable {set : UInt8 → Bool} (plain : ∀ byte, unreserved byte = true ∨ byte ∈ [0x25, 0x2B] → set byte = false)

include plain

theorem encode_cons_of_plain {byte : UInt8} (digit : (hexValue byte).isSome) (rest : List UInt8) : encode set (byte :: rest) = byte :: encode set rest := by
  rw [encode, List.flatMap_cons, plain byte (Or.inl (unreserved_of_hexValue digit))]
  rfl

omit plain in
theorem encode_cons_head (set : UInt8 → Bool) (byte : UInt8) (rest : List UInt8) : ∃ head tail, encode set (byte :: rest) = head :: tail ∧ (hexValue byte = none → hexValue head = none) := by
  rw [encode, List.flatMap_cons]
  split_ifs
  · exact ⟨_, _, rfl, fun _ => rfl⟩
  · exact ⟨_, _, rfl, id⟩

theorem escaped_encode (rest : List UInt8) : escaped (encode set rest) = escaped rest := by
  match rest with
  | [] => rfl
  | high :: more =>
    cases digit : hexValue high with
    | none =>
      obtain ⟨head, tail, shape, same⟩ := encode_cons_head set high more
      rw [shape, escaped_cons_eq_none (same digit), escaped_cons_eq_none digit]
    | some first =>
      rw [encode_cons_of_plain plain (by rw [digit]; rfl)]
      match more with
      | [] => rfl
      | low :: more =>
        cases digit' : hexValue low with
        | none =>
          obtain ⟨head, tail, shape, same⟩ := encode_cons_head set low more
          rw [shape, escaped_cons_cons_eq_none (same digit'), escaped_cons_cons_eq_none digit']
        | some second =>
          rw [encode_cons_of_plain plain (by rw [digit']; rfl)]
          rfl

/-- Encoding bytes that are no part of an escape does not change what a text decodes to. -/
theorem formDecode_encode (bytes : List UInt8) : formDecode (encode set bytes) = formDecode bytes := by
  match bytes with
  | [] => rfl
  | byte :: rest =>
    by_cases percent : byte = 0x25
    · have same : encode set (byte :: rest) = 0x25 :: encode set rest := by
        rw [encode, List.flatMap_cons, percent, plain 0x25 (Or.inr (by decide))]
        rfl
      rw [same, percent, formDecode_percent, formDecode_percent, escaped_encode plain]
      cases found : escaped rest with
      | none =>
        dsimp only
        rw [formDecode_encode rest]
      | some value =>
        obtain ⟨high, low, more, rfl, isHigh, isLow⟩ := escaped_eq_some found
        rw [encode_cons_of_plain plain isHigh, encode_cons_of_plain plain isLow]
        change value :: formDecode (encode set more) = value :: formDecode more
        rw [formDecode_encode more]
    · cases inside : set byte with
      | false =>
        have same : encode set (byte :: rest) = byte :: encode set rest := by
          rw [encode, List.flatMap_cons, inside]
          rfl
        rw [same, formDecode_cons_of_ne percent, formDecode_cons_of_ne percent, formDecode_encode rest]
      | true =>
        have same : encode set (byte :: rest) = spell byte ++ encode set rest := by
          rw [encode, List.flatMap_cons, inside]
          rfl
        have kept : plusToSpace byte = byte := by
          refine if_neg ?_
          rintro rfl
          rw [plain 0x2B (Or.inr (by decide))] at inside
          cases inside
        rw [same, formDecode_spell, formDecode_cons_of_ne percent, formDecode_encode rest, kept]
termination_by bytes.length

end Encode

/-- Encoding keeps a separator that is not encoded. -/
theorem keepsSeparator_encode {set : UInt8 → Bool} {separator : UInt8} (kept : set separator = false)
    (other : unreserved separator = false ∧ separator ∉ [0x25, 0x2B]) :
    List.KeepsSeparator (fun byte => if set byte then spell byte else [byte]) separator separator where
  same := by rw [kept]; rfl
  free letter different spelled := by
    split_ifs at spelled
    · rcases mem_spell spelled with plain | percent
      · rw [other.1] at plain
        cases plain
      · exact other.2 (by rw [percent]; decide)
    · exact different (List.mem_singleton.mp spelled).symm

/-! ## Texts with holes -/

/-- A letter of a text into which values are filled. -/
inductive Piece (Name : Type*) where
  | byte (value : UInt8)
  | hole (name : Name)
deriving DecidableEq

namespace Piece

variable {Name : Type*}

/-- Holes are filled with texts. -/
def spell (write : Name → List UInt8) : Piece Name → List UInt8
  | byte value => [value]
  | hole name => write name

/-- Filling in texts without a separator keeps it. -/
theorem keepsSeparator {write : Name → List UInt8} {separator : UInt8} (free : ∀ name, separator ∉ write name) :
    List.KeepsSeparator (spell write) (byte separator) separator where
  same := rfl
  free letter other spelled := by
    cases letter with
    | hole name => exact free name spelled
    | byte value =>
      obtain rfl : separator = value := List.mem_singleton.mp spelled
      exact other rfl

/-- Without holes it does not matter what they are filled with. -/
theorem flatMap_spell_congr {pieces : List (Piece Name)} (plain : ∀ name, hole name ∉ pieces) (write write' : Name → List UInt8) :
    pieces.flatMap (spell write) = pieces.flatMap (spell write') := by
  refine List.flatMap_congr fun piece member => ?_
  cases piece with
  | byte value => rfl
  | hole name => exact absurd member (plain name)

def escaped : List (Piece Name) → Option UInt8
  | byte high :: byte low :: _ => Percent.escaped [high, low]
  | _ => none

/-- The form decoder, for which a hole is its value. -/
def decode (value : Name → List UInt8) : List (Piece Name) → List UInt8
  | [] => []
  | hole name :: rest => value name ++ decode value rest
  | byte letter :: rest =>
    if letter = 0x25 then
      match escaped rest with
      | some decoded => decoded :: decode value (rest.drop 2)
      | none => letter :: decode value rest
    else plusToSpace letter :: decode value rest
termination_by pieces => pieces.length

/-- The text ends with a percent sign, or with one and a digit. -/
def EndsInEscape (pieces : List (Piece Name)) : Prop :=
  (∃ before, pieces = before ++ [byte 0x25]) ∨ ∃ before digit, pieces = before ++ [byte 0x25, byte digit] ∧ (hexValue digit).isSome

/-- No hole is in an escape. -/
def Whole (pieces : List (Piece Name)) : Prop := ∀ before name after, pieces = before ++ hole name :: after → ¬EndsInEscape before

theorem Whole.tail {piece : Piece Name} {rest : List (Piece Name)} (whole : Whole (piece :: rest)) : Whole rest := by
  rintro before name after rfl ends
  refine whole (piece :: before) name after rfl ?_
  rcases ends with ⟨front, rfl⟩ | ⟨front, digit, rfl, isDigit⟩
  · exact Or.inl ⟨piece :: front, rfl⟩
  · exact Or.inr ⟨piece :: front, digit, rfl, isDigit⟩

theorem Whole.part_of {part pieces : List (Piece Name)} (whole : Whole pieces) (inside : part <:+: pieces) : Whole part := by
  obtain ⟨front, back, rfl⟩ := inside
  rintro before name after rfl ends
  refine whole (front ++ before) name (after ++ back) (by simp) ?_
  rcases ends with ⟨start, rfl⟩ | ⟨start, digit, rfl, isDigit⟩
  · exact Or.inl ⟨front ++ start, by simp⟩
  · exact Or.inr ⟨front ++ start, digit, by simp, isDigit⟩

theorem Whole.drop {pieces : List (Piece Name)} (whole : Whole pieces) (count : ℕ) : Whole (pieces.drop count) := by
  induction count generalizing pieces with
  | zero => exact whole
  | succ count ih =>
    cases pieces with
    | nil => exact whole
    | cons piece rest => exact ih whole.tail

/-- No hole completes an escape. -/
theorem escaped_flatMap_spell (write : Name → List UInt8) {rest : List (Piece Name)} (whole : Whole (byte 0x25 :: rest)) :
    Percent.escaped (rest.flatMap (spell write)) = escaped rest := by
  match rest with
  | [] => rfl
  | hole name :: more => exact absurd (Or.inl ⟨[], rfl⟩) (whole [byte 0x25] name more rfl)
  | [byte high] => rfl
  | byte high :: hole name :: more =>
    cases digit : hexValue high with
    | none => exact escaped_cons_eq_none digit _
    | some value => exact absurd (Or.inr ⟨[], high, rfl, by rw [digit]; rfl⟩) (whole [byte 0x25, byte high] name more rfl)
  | byte high :: byte low :: more => rfl

/-- Filling in serialized values and decoding gives the values. -/
theorem formDecode_fill {value : Name → List UInt8} (pieces : List (Piece Name)) (whole : Whole pieces) :
    formDecode (pieces.flatMap (spell fun name => formSerialize (value name))) = decode value pieces := by
  fun_induction decode value pieces with
  | case1 => simp [formDecode, Percent.decode]
  | case2 name rest ih =>
    rw [List.flatMap_cons, spell, formDecode_serialize, ih whole.tail]
  | case3 rest decoded found ih =>
    rw [List.flatMap_cons, spell, List.singleton_append, formDecode_percent, escaped_flatMap_spell _ whole, found]
    match rest, found with
    | byte high :: byte low :: more, _ =>
      change decoded :: formDecode (more.flatMap _) = _
      rw [← ih (whole.tail.drop 2)]
      rfl
  | case4 rest found ih =>
    rw [List.flatMap_cons, spell, List.singleton_append, formDecode_percent, escaped_flatMap_spell _ whole, found, ih whole.tail]
  | case5 letter rest percent ih =>
    rw [List.flatMap_cons, spell, List.singleton_append, formDecode_cons_of_ne percent, ih whole.tail]

end Piece

end Percent
