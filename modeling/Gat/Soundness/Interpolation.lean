import Gat.Model.Interpolate

/-! # Expanding references inside query values

A template is a text with holes. Holes in query values are filled with serialized values, which contain no letter that a URL is cut
at; so every cut of the result is the cut of the template, filled in.
-/

namespace Gat

open Percent

abbrev TemplatePiece := Piece EnvironmentName

def TemplateToken.pieces : TemplateToken → List TemplatePiece
  | .literal text => text.map .byte
  | .escapedDollar => [.byte Byte.dollar]
  | .reference name => [.hole name]

/-- The template with `$$` read as one dollar. -/
def templatePieces (tokens : List TemplateToken) : List TemplatePiece := tokens.flatMap TemplateToken.pieces

/-- The template without its references. -/
def literalText (pieces : List TemplatePiece) : Str := pieces.flatMap (Piece.spell fun _ => [])

/-- The template with serialized values. -/
def filled (values : EnvironmentName → Str) (pieces : List TemplatePiece) : Str := pieces.flatMap (Piece.spell fun name => formSerialize (values name))

def frontPieces (pieces : List TemplatePiece) : List TemplatePiece := ((pieces.cut (.byte Byte.hash)).1.cut (.byte Byte.questionMark)).1

def queryPieces (pieces : List TemplatePiece) : Option (List TemplatePiece) := ((pieces.cut (.byte Byte.hash)).1.cut (.byte Byte.questionMark)).2

def fragmentPieces (pieces : List TemplatePiece) : Option (List TemplatePiece) := (pieces.cut (.byte Byte.hash)).2

/-- The pairs of the query of a template. -/
def templatePairs (pieces : List TemplatePiece) : List (List TemplatePiece × List TemplatePiece) :=
  ((queryPieces pieces).getD []).rawPairs (.byte Byte.ampersand) (.byte Byte.equals)

/-- The text ends in a query value: behind the first equals sign of its pair, with no fragment begun. -/
def EndsInValue (before : List TemplatePiece) : Prop :=
  .byte Byte.hash ∉ before ∧ ∃ front middle value, before = front ++ .byte Byte.questionMark :: (middle ++ .byte Byte.equals :: value) ∧
    .byte Byte.questionMark ∉ front ∧ .byte Byte.ampersand ∉ value

def HolesInValues (pieces : List TemplatePiece) : Prop := ∀ before name after, pieces = before ++ .hole name :: after → EndsInValue before

/-- A hierarchical URL with references in query values only, none of them in a percent escape. -/
structure ReferencesInValues (parse : Str → Option Url) (pieces : List TemplatePiece) : Prop where
  hierarchical : isHierarchical (literalText pieces)
  accepted : (parse (literalText pieces)).isSome
  holes : HolesInValues pieces
  whole : Piece.Whole pieces

/-- The parser, moreover, drops nothing of the literal text. -/
structure ExpandsInQuery (parse : Str → Option Url) (pieces : List TemplatePiece) : Prop extends ReferencesInValues parse pieces where
  clean : readable (literalText pieces) = literalText pieces

/-! ## Cutting the template -/

variable {values : EnvironmentName → Str} {pieces : List TemplatePiece}

/-- A URL is cut as its template is. -/
theorem url_cut {write : EnvironmentName → Str} (hash : ∀ name, Byte.hash ∉ write name) (mark : ∀ name, Byte.questionMark ∉ write name)
    (pieces : List TemplatePiece) :
    urlFront (pieces.flatMap (Piece.spell write)) = (frontPieces pieces).flatMap (Piece.spell write) ∧
      urlQuery (pieces.flatMap (Piece.spell write)) = (queryPieces pieces).map (·.flatMap (Piece.spell write)) ∧
      urlFragment (pieces.flatMap (Piece.spell write)) = (fragmentPieces pieces).map (·.flatMap (Piece.spell write)) := by
  unfold urlFront urlQuery urlFragment frontPieces queryPieces fragmentPieces
  rw [(Piece.keepsSeparator hash).cut_flatMap, (Piece.keepsSeparator mark).cut_flatMap]
  exact ⟨rfl, rfl, rfl⟩

theorem notMem_serialized {separator : UInt8} (other : unreserved separator = false ∧ separator ∉ [0x25, 0x2B]) (bytes : Str) :
    separator ∉ formSerialize bytes := by
  intro member
  rcases mem_formSerialize member with plain | listed
  · rw [other.1] at plain
    cases plain
  · exact other.2 listed

/-- There are no references in front of the query or in the fragment. -/
theorem HolesInValues.plain (holes : HolesInValues pieces) (name : EnvironmentName) :
    .hole name ∉ frontPieces pieces ∧ ∀ fragment, fragmentPieces pieces = some fragment → .hole name ∉ fragment := by
  constructor
  · intro member
    obtain ⟨before, after, shape⟩ := List.append_of_mem member
    obtain ⟨rest, whole⟩ := (List.cut_fst_prefix (.byte Byte.questionMark) _).trans (List.cut_fst_prefix (.byte Byte.hash) pieces)
    obtain ⟨-, front, middle, value, same, -, -⟩ := holes before name (after ++ rest) (by
      rw [← whole]
      change frontPieces pieces ++ rest = _
      rw [shape]
      simp)
    have inside : .byte Byte.questionMark ∈ frontPieces pieces := by
      rw [shape, same]
      simp
    exact List.notMem_cut_fst _ _ inside
  · intro fragment found member
    obtain ⟨before, after, rfl⟩ := List.append_of_mem member
    rcases pieces.cut_cases (.byte Byte.hash) with ⟨-, whole⟩ | ⟨front, behind, -, rfl, whole⟩
    · rw [fragmentPieces, whole] at found
      cases found
    · rw [fragmentPieces, whole] at found
      obtain rfl := Option.some.inj found
      obtain ⟨free, -⟩ := holes (front ++ .byte Byte.hash :: before) name after (by simp)
      exact free (by simp)

theorem queryPieces_eq_some {query : List TemplatePiece} (found : queryPieces pieces = some query) :
    ∃ front rest, pieces = front ++ .byte Byte.questionMark :: (query ++ rest) ∧ .byte Byte.questionMark ∉ front := by
  obtain ⟨rest, whole⟩ := List.cut_fst_prefix (.byte Byte.hash) pieces
  rcases (pieces.cut (.byte Byte.hash)).1.cut_cases (.byte Byte.questionMark) with ⟨-, cut⟩ | ⟨front, behind, free, shape, cut⟩
  · rw [queryPieces, cut] at found
    cases found
  · rw [queryPieces, cut] at found
    obtain rfl := Option.some.inj found
    refine ⟨front, rest, ?_, free⟩
    rw [← whole, shape]
    simp

/-- A reference in the query has an equals sign before it in its pair. -/
theorem HolesInValues.equals_mem (holes : HolesInValues pieces) {query before part after : List TemplatePiece} {name : EnvironmentName}
    (found : queryPieces pieces = some query) (shape : query = before ++ part ++ .hole name :: after)
    (start : before = [] ∨ ∃ front, before = front ++ [.byte Byte.ampersand]) : .byte Byte.equals ∈ part := by
  obtain ⟨front, rest, whole, free⟩ := queryPieces_eq_some found
  obtain ⟨-, front', middle, value, same, free', plain⟩ := holes (front ++ .byte Byte.questionMark :: (before ++ part)) name (after ++ rest) (by
    rw [whole, shape]
    simp)
  have cut := List.cut_append free (before ++ part)
  rw [same, List.cut_append free'] at cut
  obtain ⟨-, behind⟩ := Prod.mk.inj cut
  rcases List.append_eq_append_iff.mp (Option.some.inj behind) with ⟨more, rfl, tail⟩ | ⟨more, -, tail⟩
  · cases more with
    | nil =>
      rw [List.nil_append] at tail
      rw [← tail]
      exact List.mem_cons_self ..
    | cons first more =>
      obtain ⟨rfl, rfl⟩ := List.cons.inj tail
      rcases start with none | ⟨front, ends⟩
      · simp at none
      · have last := congrArg List.getLast? ends
        rw [List.getLast?_append_cons, List.getLast?_append_cons] at last
        have member := List.mem_of_getLast? last
        rcases List.mem_cons.mp member with same | member
        · cases same
        · exact absurd (List.mem_append_left _ member) plain
  · rw [tail]
    simp

/-! ## What the parser reads -/

theorem mem_filled {byte : UInt8} (member : byte ∈ filled values pieces) : byte ∈ literalText pieces ∨ unreserved byte = true ∨ byte ∈ [0x25, 0x2B] := by
  obtain ⟨piece, inside, member⟩ := List.mem_flatMap.mp member
  cases piece with
  | byte value => exact Or.inl (List.mem_flatMap.mpr ⟨_, inside, member⟩)
  | hole name => exact Or.inr (mem_formSerialize member)

/-- The parser drops no letter of a serialized value. -/
theorem serialized_kept {byte : UInt8} (plain : unreserved byte = true ∨ byte ∈ [0x25, 0x2B]) :
    ¬byte ≤ Byte.space ∧ byte ∉ [Byte.tab, Byte.lineFeed, Byte.carriageReturn] := by
  rcases plain with plain | listed
  · obtain ⟨above, -, -⟩ := plain_of_unreserved plain
    have high : ¬byte ≤ Byte.space := UInt8.not_le.mpr above
    refine ⟨high, fun dropped => high ?_⟩
    revert dropped
    simp only [List.mem_cons, List.not_mem_nil, or_false]
    rintro (rfl | rfl | rfl) <;> decide
  · simp only [List.mem_cons, List.not_mem_nil, or_false] at listed
    rcases listed with rfl | rfl <;> decide

/-- A text without line breaks and without a space in front loses only spaces at its end. -/
theorem readable_eq {text : Str} (first : ∀ byte ∈ text.head?, ¬byte ≤ Byte.space)
    (breaks : ∀ byte ∈ text, byte ∉ [Byte.tab, Byte.lineFeed, Byte.carriageReturn]) : readable text = text.rdropWhile (· ≤ Byte.space) := by
  have start : text.dropWhile (· ≤ Byte.space) = text := by
    cases text with
    | nil => rfl
    | cons byte text => exact List.dropWhile_cons_of_neg (by simpa using first byte rfl)
  unfold readable
  rw [start, List.filter_eq_self]
  intro byte member
  exact decide_eq_true (breaks byte ((List.rdropWhile_prefix _ text).subset member))

/-- What is dropped at the end is behind every letter that is kept. -/
theorem rdropWhile_append_cons (before : Str) {byte : UInt8} (after : Str) (kept : ¬byte ≤ Byte.space) :
    (before ++ byte :: after).rdropWhile (· ≤ Byte.space) = before ++ byte :: after.rdropWhile (· ≤ Byte.space) := by
  induction after using List.reverseRecOn with
  | nil =>
    rw [List.rdropWhile_concat_neg _ _ _ (by simpa using kept)]
    rfl
  | append_singleton after last ih =>
    rw [← List.cons_append, ← List.append_assoc]
    by_cases dropped : last ≤ Byte.space
    · rw [List.rdropWhile_concat_pos _ _ _ (by simpa using dropped), List.rdropWhile_concat_pos _ _ _ (by simpa using dropped), ih]
    · rw [List.rdropWhile_concat_neg _ _ _ (by simpa using dropped), List.rdropWhile_concat_neg _ _ _ (by simpa using dropped)]
      simp

/-- A text that the parser reads as it is. -/
theorem clean_iff {text : Str} (clean : readable text = text) :
    (∀ byte ∈ text.head?, ¬byte ≤ Byte.space) ∧ (∀ byte ∈ text, byte ∉ [Byte.tab, Byte.lineFeed, Byte.carriageReturn]) ∧
      text.rdropWhile (· ≤ Byte.space) = text := by
  have breaks : ∀ byte ∈ text, byte ∉ [Byte.tab, Byte.lineFeed, Byte.carriageReturn] := by
    intro byte member
    rw [← clean, readable, List.mem_filter] at member
    exact of_decide_eq_true member.2
  have start : text.dropWhile (· ≤ Byte.space) = text := by
    apply (List.dropWhile_suffix _).eq_of_length_le
    have short := (List.filter_sublist (p := fun byte => byte ∉ [Byte.tab, Byte.lineFeed, Byte.carriageReturn])).length_le.trans
      (List.rdropWhile_prefix (· ≤ Byte.space) (text.dropWhile (· ≤ Byte.space))).length_le
    rwa [← readable, clean] at short
  have first : ∀ byte ∈ text.head?, ¬byte ≤ Byte.space := by
    intro byte head dropped
    cases text with
    | nil => cases head
    | cons other text =>
      obtain rfl := Option.some.inj head
      rw [List.dropWhile_cons_of_pos (by simpa using dropped)] at start
      have long := (List.dropWhile_suffix (· ≤ Byte.space) (l := text)).length_le
      rw [start, List.length_cons] at long
      omega
  refine ⟨first, breaks, ?_⟩
  rw [← readable_eq first breaks, clean]

/-- A reference is not the first thing in a template. -/
theorem HolesInValues.head? (holes : HolesInValues pieces) : (filled values pieces).head? = (literalText pieces).head? := by
  cases pieces with
  | nil => rfl
  | cons piece rest =>
    cases piece with
    | byte value => rfl
    | hole name =>
      obtain ⟨-, front, middle, value, same, -⟩ := holes [] name rest rfl
      simp at same

theorem filled_rdropWhile (kept : (literalText pieces).rdropWhile (· ≤ Byte.space) = literalText pieces) :
    (filled values pieces).rdropWhile (· ≤ Byte.space) = filled values pieces := by
  induction pieces using List.reverseRecOn with
  | nil => rfl
  | append_singleton pieces last ih =>
    rw [filled, List.flatMap_append, List.flatMap_singleton]
    rw [literalText, List.flatMap_append, List.flatMap_singleton] at kept
    cases last with
    | byte value =>
      rw [Piece.spell] at kept ⊢
      have above : ¬value ≤ Byte.space := by
        intro dropped
        rw [List.rdropWhile_concat_pos _ _ _ (by simpa using dropped)] at kept
        have long := (List.rdropWhile_prefix (· ≤ Byte.space) (pieces.flatMap (Piece.spell fun _ => []))).length_le
        rw [kept, List.length_append, List.length_singleton] at long
        omega
      rw [List.rdropWhile_concat_neg _ _ _ (by simpa using above)]
    | hole name =>
      rw [Piece.spell] at kept ⊢
      rw [List.append_nil] at kept
      rcases List.eq_nil_or_concat' (formSerialize (values name)) with empty | ⟨start, last, shape⟩
      · rw [empty, List.append_nil]
        exact ih kept
      · have above := (serialized_kept (mem_formSerialize (shape ▸ List.mem_append_right start (List.mem_singleton_self last)))).1
        rw [shape, ← List.append_assoc, List.rdropWhile_concat_neg _ _ _ (by simpa using above)]

/-- The parser reads the result as it is, as it does the literal text. -/
theorem readable_filled (holes : HolesInValues pieces) (clean : readable (literalText pieces) = literalText pieces) :
    readable (filled values pieces) = filled values pieces := by
  obtain ⟨first, breaks, kept⟩ := clean_iff clean
  rw [readable_eq, filled_rdropWhile kept]
  · rw [holes.head?]
    exact first
  · intro byte member
    rcases mem_filled member with inside | plain
    · exact breaks byte inside
    · exact (serialized_kept plain).2

theorem HolesInValues.before (holes : HolesInValues pieces) {before after : List TemplatePiece} (shape : pieces = before ++ after) :
    HolesInValues before := by
  rintro start name rest rfl
  exact holes start name (rest ++ after) (by rw [shape]; simp)

/-- A part of a template in which no query has begun has no references. -/
theorem HolesInValues.filled_eq (holes : HolesInValues pieces) {start rest : List TemplatePiece} (shape : pieces = start ++ rest)
    (free : .byte Byte.questionMark ∉ start) : filled values start = literalText start := by
  refine Piece.flatMap_spell_congr (fun name member => ?_) _ _
  obtain ⟨before, after, rfl⟩ := List.append_of_mem member
  obtain ⟨-, front, middle, value, rfl, -⟩ := holes before name (after ++ rest) (by rw [shape]; simp)
  exact free (by simp)

theorem querySet_separator (scheme : Str) {separator : UInt8} (listed : separator ∈ [Byte.ampersand, Byte.equals]) : querySet scheme separator = false := by
  simp only [List.mem_cons, List.not_mem_nil, or_false] at listed
  unfold querySet
  rcases listed with rfl | rfl <;> cases isSpecialScheme scheme <;> decide

theorem querySet_plain (scheme : Str) (byte : UInt8) (plain : unreserved byte = true ∨ byte ∈ [0x25, 0x2B]) : querySet scheme byte = false := by
  unfold querySet
  rcases plain with plain | listed
  · obtain ⟨above, below, other⟩ := plain_of_unreserved plain
    simp only [List.mem_cons, List.not_mem_nil, or_false, not_or] at other
    have high : ¬byte ≤ Byte.space := UInt8.not_le.mpr above
    have low : ¬0x7F ≤ byte := UInt8.not_le.mpr below
    simp [high, low, other]
  · simp only [List.mem_cons, List.not_mem_nil, or_false] at listed
    rcases listed with rfl | rfl <;> cases isSpecialScheme scheme <;> decide

theorem plain_separator {separator : UInt8} (listed : separator ∈ [Byte.hash, Byte.questionMark, Byte.ampersand, Byte.equals]) :
    unreserved separator = false ∧ separator ∉ [0x25, 0x2B] := by
  simp only [List.mem_cons, List.not_mem_nil, or_false] at listed
  rcases listed with rfl | rfl | rfl | rfl <;> decide

/-! ## The pairs of the query -/

/-- A pair that is not empty has a letter. -/
theorem HolesInValues.byte_mem (holes : HolesInValues pieces) {query pair : List TemplatePiece} (found : queryPieces pieces = some query)
    (member : pair ∈ query.splitOn (.byte Byte.ampersand)) (some_ : pair ≠ []) : ∃ value, .byte value ∈ pair := by
  obtain ⟨-, before, after, shape, start⟩ := List.exists_append_of_mem_splitOn member
  match pair with
  | [] => exact absurd rfl some_
  | .byte value :: rest => exact ⟨value, List.mem_cons_self ..⟩
  | .hole name :: rest =>
    have place : query = before ++ [] ++ .hole name :: (rest ++ after) := by rw [shape, List.append_nil, List.append_assoc, List.cons_append]
    have equals := holes.equals_mem found place start
    cases equals

/-- A key has no reference. -/
theorem HolesInValues.key_plain (holes : HolesInValues pieces) {query pair : List TemplatePiece} (found : queryPieces pieces = some query)
    (member : pair ∈ query.splitOn (.byte Byte.ampersand)) (name : EnvironmentName) : .hole name ∉ (pair.cut (.byte Byte.equals)).1 := by
  intro inside
  obtain ⟨-, before, after, shape, start⟩ := List.exists_append_of_mem_splitOn member
  obtain ⟨part, more, key⟩ := List.append_of_mem inside
  obtain ⟨rest, whole⟩ := List.cut_fst_prefix (.byte Byte.equals) pair
  have place : query = before ++ part ++ .hole name :: (more ++ (rest ++ after)) := by
    rw [shape, ← whole, key]
    simp
  have equals := holes.equals_mem found place start
  apply List.notMem_cut_fst (.byte Byte.equals) pair
  rw [key]
  exact List.mem_append_left _ equals

/-- The parts of the query are parts of the template. -/
theorem infix_of_mem_templatePairs {query : List TemplatePiece} (found : queryPieces pieces = some query) {pair : List TemplatePiece × List TemplatePiece}
    (member : pair ∈ templatePairs pieces) :
    pair.1 <:+: pieces ∧ pair.2 <:+: pieces ∧ ∃ part ∈ query.splitOn (.byte Byte.ampersand), pair.1 = (part.cut (.byte Byte.equals)).1 := by
  rw [templatePairs, found] at member
  obtain ⟨part, listed, rfl⟩ := List.mem_map.mp member
  have inside := (List.mem_filter.mp listed).1
  obtain ⟨-, before, after, shape, -⟩ := List.exists_append_of_mem_splitOn inside
  obtain ⟨front, rest, whole, -⟩ := queryPieces_eq_some found
  have within : part <:+: pieces := ⟨front ++ .byte Byte.questionMark :: before, after ++ rest, by
    rw [whole]
    change query = _ at shape
    rw [shape]
    simp⟩
  obtain ⟨first, second⟩ := List.infix_of_cut (.byte Byte.equals) part
  refine ⟨first.trans within, ?_, part, inside, rfl⟩
  cases cut : (part.cut (.byte Byte.equals)).2 with
  | none => exact List.nil_infix
  | some value => exact (second value cut).trans within

section Pairs

variable {write : EnvironmentName → Str} (free : ∀ separator ∈ [Byte.hash, Byte.questionMark, Byte.ampersand, Byte.equals], ∀ name, separator ∉ write name)

include free

/-- The pairs of an encoded query are the pairs of the template, filled in. -/
theorem rawPairs_encode (holes : HolesInValues pieces) {query : List TemplatePiece} (found : queryPieces pieces = some query) (scheme : Str) :
    (Percent.encode (querySet scheme) (query.flatMap (Piece.spell write))).rawPairs Byte.ampersand Byte.equals =
      (templatePairs pieces).map fun pair =>
        (Percent.encode (querySet scheme) (pair.1.flatMap (Piece.spell write)), Percent.encode (querySet scheme) (pair.2.flatMap (Piece.spell write))) := by
  have keeps {separator : UInt8} (listed : separator ∈ [Byte.ampersand, Byte.equals]) :
      List.KeepsSeparator (fun piece => Percent.encode (querySet scheme) (Piece.spell write piece)) (.byte separator) separator := by
    have among : separator ∈ [Byte.hash, Byte.questionMark, Byte.ampersand, Byte.equals] := List.mem_cons_of_mem _ (List.mem_cons_of_mem _ listed)
    exact (Piece.keepsSeparator (free separator among)).comp (keepsSeparator_encode (querySet_separator scheme listed) (plain_separator among))
  have together (list : List TemplatePiece) : Percent.encode (querySet scheme) (list.flatMap (Piece.spell write)) =
      list.flatMap fun piece => Percent.encode (querySet scheme) (Piece.spell write piece) := List.flatMap_assoc
  have stays (pair : List TemplatePiece) (member : pair ∈ query.splitOn (.byte Byte.ampersand)) (some_ : pair ≠ []) :
      (pair.flatMap fun piece => Percent.encode (querySet scheme) (Piece.spell write piece)) ≠ [] := by
    obtain ⟨value, inside⟩ := holes.byte_mem found member some_
    intro empty
    have nothing := List.flatMap_eq_nil_iff.mp empty _ inside
    rw [Piece.spell, Percent.encode, List.flatMap_singleton] at nothing
    split_ifs at nothing
    cases nothing
  rw [together, (keeps (by decide)).rawPairs_flatMap (keeps (by decide)) stays, templatePairs, found]
  simp only [together, Option.getD_some]

end Pairs

section Expansion

variable {parse : Str → Option Url} {front : Str → Option (Str × Str × Str)} (standard : UrlStandard parse front)

/-- What the parser reads of the output in front of a reference: a URL that ends in a query value, with the front of the literal text. -/
theorem readable_before (expands : ExpandsInQuery parse pieces) {before : List TemplatePiece} {name : EnvironmentName} {after : List TemplatePiece}
    (shape : pieces = before ++ .hole name :: after) :
    ∃ middle last, readable (filled values before) = urlFront (literalText pieces) ++ Byte.questionMark :: (middle ++ Byte.equals :: last) ∧
      Byte.hash ∉ readable (filled values before) ∧ Byte.questionMark ∉ urlFront (literalText pieces) ∧ Byte.ampersand ∉ last := by
  obtain ⟨hash, start, middle, value, same, free, plain⟩ := expands.holes before name after shape
  obtain ⟨first, breaks, -⟩ := clean_iff expands.clean
  have whole : pieces = start ++ .byte Byte.questionMark :: (middle ++ .byte Byte.equals :: (value ++ .hole name :: after)) := by
    rw [shape, same]
    simp
  obtain ⟨more, literal⟩ : ∃ more, literalText pieces = literalText start ++ Byte.questionMark :: more :=
    ⟨_, by rw [whole, literalText, List.flatMap_append]; rfl⟩
  have begins : filled values start = literalText start := expands.holes.filled_eq whole free
  have text : filled values before = literalText start ++ Byte.questionMark :: (filled values middle ++ Byte.equals :: filled values value) := by
    rw [same, ← begins]
    simp [filled, Piece.spell]
  have noMark : Byte.questionMark ∉ literalText start := (Piece.keepsSeparator fun _ => List.not_mem_nil).notMem_flatMap free
  have noHash : Byte.hash ∉ filled values before :=
    (Piece.keepsSeparator fun name => notMem_serialized (plain_separator (by decide)) (values name)).notMem_flatMap hash
  have noAmpersand : Byte.ampersand ∉ filled values value :=
    (Piece.keepsSeparator fun name => notMem_serialized (plain_separator (by decide)) (values name)).notMem_flatMap plain
  have reads : readable (filled values before) = (filled values before).rdropWhile (· ≤ Byte.space) := by
    apply readable_eq
    · intro byte head
      apply first byte
      rw [literal]
      rw [text] at head
      cases starts : literalText start <;> rw [starts] at head <;> exact head
    · intro byte member
      rcases mem_filled member with inside | plain
      · refine breaks byte ?_
        rw [shape, literalText, List.flatMap_append]
        exact List.mem_append_left _ inside
      · exact (serialized_kept plain).2
  have fronts : urlFront (literalText pieces) = literalText start := by
    have noHash' : Byte.hash ∉ literalText start ++ [Byte.questionMark] := by
      rw [text] at noHash
      intro member
      apply noHash
      rcases List.mem_append.mp member with inside | here
      · exact List.mem_append_left _ inside
      · rw [List.mem_singleton.mp here]
        simp
    have split : literalText start ++ Byte.questionMark :: more = (literalText start ++ [Byte.questionMark]) ++ more := by simp
    rw [literal, urlFront, split, List.cut_append_of_notMem noHash']
    simp only [List.append_assoc, List.singleton_append]
    rw [List.cut_append noMark]
  refine ⟨filled values middle, (filled values value).rdropWhile (· ≤ Byte.space), ?_, ?_, fronts ▸ noMark, fun member => ?_⟩
  · rw [reads, text, fronts, ← List.cons_append, ← List.append_assoc, rdropWhile_append_cons _ _ (by decide)]
    simp
  · rw [reads]
    exact fun member => noHash ((List.rdropWhile_prefix _ _).subset member)
  · exact noAmpersand ((List.rdropWhile_prefix _ _).subset member)

include standard

theorem exists_front (expands : ExpandsInQuery parse pieces) : ∃ parts, front (urlFront (literalText pieces)) = some parts := by
  have accepted := expands.accepted
  rw [standard.parse_eq _ (by rw [expands.clean]; exact expands.hierarchical), expands.clean, Option.isSome_map] at accepted
  exact Option.isSome_iff_exists.mp accepted

/-- Every reference is expanded inside a query value. -/
theorem inQueryValue_filled (expands : ExpandsInQuery parse pieces) {before : List TemplatePiece} {name : EnvironmentName} {after : List TemplatePiece}
    (shape : pieces = before ++ .hole name :: after) : inQueryValue parse (filled values before) = true := by
  obtain ⟨middle, last, reads, noHash, noMark, noAmpersand⟩ := readable_before expands shape
  obtain ⟨⟨scheme, authority, path⟩, accepted⟩ := exists_front standard expands
  have cuts : urlFront (readable (filled values before)) = urlFront (literalText pieces) ∧
      urlQuery (readable (filled values before)) = some (middle ++ Byte.equals :: last) ∧ urlFragment (readable (filled values before)) = none := by
    rw [urlFront, urlQuery, urlFragment, List.cut_of_notMem noHash, reads, List.cut_append noMark]
    exact ⟨rfl, rfl, rfl⟩
  have hierarchical : isHierarchical (readable (filled values before)) := by
    rw [isHierarchical, cuts.1]
    exact expands.hierarchical
  have noAmpersand' : Byte.ampersand ∉ Percent.encode (querySet scheme) last :=
    (keepsSeparator_encode (querySet_separator scheme (by decide)) (plain_separator (by decide))).notMem_flatMap noAmpersand
  have encoded : Percent.encode (querySet scheme) (middle ++ Byte.equals :: last) =
      Percent.encode (querySet scheme) middle ++ Byte.equals :: Percent.encode (querySet scheme) last := by
    rw [Percent.encode, List.flatMap_append, List.flatMap_cons, querySet_separator scheme (by decide)]
    rfl
  obtain ⟨part, isPart, inside⟩ :=
    List.mem_getLast_splitOn (Percent.encode (querySet scheme) middle) (show Byte.equals ≠ Byte.ampersand by decide) noAmpersand'
  rw [inQueryValue, standard.parse_eq _ hierarchical, cuts.1, cuts.2.1, cuts.2.2, accepted]
  simp only [Option.map_some, Option.map_none, Option.isNone_none, Option.any_some, encoded, Bool.true_and]
  rw [isPart]
  exact List.elem_eq_true_of_mem inside

omit standard in
/-- The pairs of the expanded query have the decoded pieces with every reference replaced by its value, and the keys of the literal text. -/
theorem pairs_filled (expands : ExpandsInQuery parse pieces) {query : List TemplatePiece} (found : queryPieces pieces = some query) (scheme : Str) (values : EnvironmentName → Str) :
    pairs (Percent.encode (querySet scheme) (filled values query)) =
        (templatePairs pieces).map (fun pair => (Piece.decode values pair.1, Piece.decode values pair.2)) ∧
      (pairs (Percent.encode (querySet scheme) (literalText query))).map Prod.fst = (templatePairs pieces).map fun pair => Piece.decode values pair.1 := by
  have decoded {part : List TemplatePiece} (inside : part <:+: pieces) :
      formDecode (Percent.encode (querySet scheme) (part.flatMap (Piece.spell fun name => formSerialize (values name)))) = Piece.decode values part := by
    rw [formDecode_encode (querySet_plain scheme), Piece.formDecode_fill _ (expands.whole.part_of inside)]
  have filledIn := rawPairs_encode (fun separator listed name => notMem_serialized (plain_separator listed) (values name)) expands.holes found scheme
  have empty := rawPairs_encode (fun _ _ _ => List.not_mem_nil) expands.holes found scheme
  constructor
  · change ((Percent.encode (querySet scheme) (filled values query)).rawPairs Byte.ampersand Byte.equals).map _ = _
    rw [filled, filledIn, List.map_map]
    refine List.map_congr_left fun pair member => ?_
    obtain ⟨first, second, -⟩ := infix_of_mem_templatePairs found member
    simp only [Function.comp_apply, decoded first, decoded second]
  · change (((Percent.encode (querySet scheme) (literalText query)).rawPairs Byte.ampersand Byte.equals).map _).map _ = _
    rw [literalText, empty, List.map_map, List.map_map]
    refine List.map_congr_left fun pair member => ?_
    obtain ⟨first, -, part, inside, key⟩ := infix_of_mem_templatePairs found member
    rw [← decoded first, Piece.flatMap_spell_congr (fun name => key ▸ expands.holes.key_plain found inside name) _ fun _ => []]
    rfl

/-- The tokens are expanded one after the other. -/
theorem foldlM_pieces (expands : ExpandsInQuery parse pieces) (tokens : List TemplateToken) (before : List TemplatePiece)
    (shape : pieces = before ++ templatePieces tokens) :
    tokens.foldlM (interpolateToken parse fun name => .ok (values name)) (filled values before) = .ok (filled values pieces) := by
  induction tokens generalizing before with
  | nil =>
    rw [shape, templatePieces, List.flatMap_nil, List.append_nil]
    rfl
  | cons token tokens ih =>
    have next := ih (before ++ token.pieces) (by rw [shape, templatePieces, List.flatMap_cons, List.append_assoc]; rfl)
    have step : interpolateToken parse (fun name => .ok (values name)) (filled values before) token = .ok (filled values (before ++ token.pieces)) := by
      rw [filled, filled, List.flatMap_append]
      cases token with
      | literal text =>
        have same : (text.map Piece.byte).flatMap (Piece.spell fun name => formSerialize (values name)) = text := by
          rw [List.flatMap_map]
          exact List.flatMap_singleton' text
        rw [TemplateToken.pieces, same]
        rfl
      | escapedDollar => rfl
      | reference name =>
        have value : inQueryValue parse (filled values before) = true := inQueryValue_filled standard expands shape
        rw [filled] at value
        unfold interpolateToken
        dsimp only [Except.bind, bind]
        rw [value]
        simp [TemplateToken.pieces, Piece.spell]
    rw [List.foldlM_cons, step]
    exact next

/-- The expanded template as a URL. -/
theorem expansion_parses (expands : ExpandsInQuery parse pieces) (values : EnvironmentName → Str) :
    ∃ base url, parse (literalText pieces) = some base ∧ parse (filled values pieces) = some url ∧
      url.scheme = base.scheme ∧ url.authority = base.authority ∧ url.path = base.path ∧ url.fragment = base.fragment ∧
      url.query = (queryPieces pieces).map (fun query => Percent.encode (querySet base.scheme) (filled values query)) ∧
      base.query = (queryPieces pieces).map fun query => Percent.encode (querySet base.scheme) (literalText query) := by
  obtain ⟨⟨scheme, authority, path⟩, accepted⟩ := exists_front standard expands
  obtain ⟨front_, query_, fragment_⟩ := url_cut (fun _ => List.not_mem_nil) (fun _ => List.not_mem_nil) pieces
  obtain ⟨front', query', fragment'⟩ := url_cut (fun name => notMem_serialized (plain_separator (by decide)) (values name))
    (fun name => notMem_serialized (plain_separator (by decide)) (values name)) pieces
  have sameFront : urlFront (filled values pieces) = urlFront (literalText pieces) := by
    rw [filled, front', literalText, front_]
    exact Piece.flatMap_spell_congr (fun name => (expands.holes.plain name).1) _ _
  have sameFragment : urlFragment (filled values pieces) = urlFragment (literalText pieces) := by
    rw [filled, fragment', literalText, fragment_]
    cases found : fragmentPieces pieces with
    | none => rfl
    | some fragment => exact congrArg some (Piece.flatMap_spell_congr (fun name => (expands.holes.plain name).2 fragment found) _ _)
  have clean : readable (filled values pieces) = filled values pieces := readable_filled expands.holes expands.clean
  have hierarchical : isHierarchical (filled values pieces) := by
    rw [isHierarchical, sameFront]
    exact expands.hierarchical
  have base := standard.parse_eq (literalText pieces) (by rw [expands.clean]; exact expands.hierarchical)
  have url := standard.parse_eq (filled values pieces) (by rw [clean]; exact hierarchical)
  rw [expands.clean, accepted, literalText, query_, ← literalText] at base
  rw [clean, sameFront, accepted, sameFragment, filled, query', ← filled] at url
  refine ⟨_, _, base, url, rfl, rfl, rfl, rfl, ?_, ?_⟩
  · cases queryPieces pieces <;> rfl
  · cases queryPieces pieces <;> rfl

end Expansion

/-! ## Doubled dollars -/

/-- A text in which every dollar is doubled. -/
def doubleDollars (text : Str) : Str := text.flatMap fun byte => if byte = Byte.dollar then [Byte.dollar, Byte.dollar] else [byte]

theorem doubleDollars_of_notMem {text : Str} (free : Byte.dollar ∉ text) : doubleDollars text = text := by
  have same : doubleDollars text = text.flatMap fun byte => [byte] := by
    refine List.flatMap_congr fun byte member => if_neg ?_
    rintro rfl
    exact free member
  rw [same]
  exact List.flatMap_singleton' text

theorem tokenizeFrom_of_notMem {text : Str} (free : Byte.dollar ∉ text) (offset : ℕ) : tokenizeFrom offset text = .ok [.literal text] := by
  unfold tokenizeFrom
  split
  · next before found =>
    rw [List.cut_of_notMem free] at found
    cases found
    rfl
  · next before behind found =>
    rw [List.cut_of_notMem free] at found
    cases found

theorem tokenizeFrom_escaped {before : Str} (free : Byte.dollar ∉ before) (after : Str) (offset : ℕ) :
    tokenizeFrom offset (before ++ Byte.dollar :: Byte.dollar :: after) =
      (tokenizeFrom (offset + before.length + 2) after).map fun tokens => .literal before :: .escapedDollar :: tokens := by
  conv_lhs => unfold tokenizeFrom
  split
  · next text found =>
    rw [List.cut_append free] at found
    cases found
  · next text behind found =>
    rw [List.cut_append free] at found
    cases found
    dsimp only
    rw [if_pos rfl]
    cases tokenizeFrom (offset + before.length + 2) after <;> rfl

/-- The tokens of such a text are literals and escaped dollars. -/
theorem tokenizeFrom_doubleDollars (parse : Str → Option Url) (lookup : EnvironmentName → Except InterpolateError Str) (text : Str) (offset : ℕ) (out : Str) :
    ∃ tokens, tokenizeFrom offset (doubleDollars text) = .ok tokens ∧ tokens.foldlM (interpolateToken parse lookup) out = .ok (out ++ text) := by
  rcases text.cut_cases Byte.dollar with ⟨free, -⟩ | ⟨before, after, free, rfl, -⟩
  · rw [doubleDollars_of_notMem free]
    exact ⟨_, tokenizeFrom_of_notMem free offset, rfl⟩
  · obtain ⟨tokens, done, folded⟩ := tokenizeFrom_doubleDollars parse lookup after (offset + before.length + 2) (out ++ before ++ [Byte.dollar])
    have shape : doubleDollars (before ++ Byte.dollar :: after) = before ++ Byte.dollar :: Byte.dollar :: doubleDollars after := by
      rw [doubleDollars, List.flatMap_append, ← doubleDollars, doubleDollars_of_notMem free, List.flatMap_cons, if_pos rfl]
      rfl
    refine ⟨.literal before :: .escapedDollar :: tokens, ?_, ?_⟩
    · rw [shape, tokenizeFrom_escaped free, done]
      rfl
    · have whole : out ++ before ++ [Byte.dollar] ++ after = out ++ (before ++ Byte.dollar :: after) := by simp
      rw [← whole, ← folded]
      rfl
termination_by text.length

/-- References in query values are replaced by their values and nothing else changes: the URL has the same scheme, authority, path,
fragment and keys as the literal text, and the decoded value of a pair is the decoded text with every reference replaced by its value.
A text with all dollars doubled expands to itself without a lookup. -/
theorem interpolation_confined {parse : Str → Option Url} {front : Str → Option (Str × Str × Str)} (standard : UrlStandard parse front) :
    (∀ input tokens values, tokenizeTemplate input = .ok tokens → ExpandsInQuery parse (templatePieces tokens) →
      ∃ out base url, interpolateWith parse (fun name => .ok (values name)) input = .ok out ∧
        parse (literalText (templatePieces tokens)) = some base ∧ parse out = some url ∧
        url.scheme = base.scheme ∧ url.authority = base.authority ∧ url.path = base.path ∧ url.fragment = base.fragment ∧
        (pairs (url.query.getD [])).map Prod.fst = (pairs (base.query.getD [])).map Prod.fst ∧
        pairs (url.query.getD []) = (templatePairs (templatePieces tokens)).map fun pair => (Piece.decode values pair.1, Piece.decode values pair.2)) ∧
    ∀ text lookup, interpolateWith parse lookup (doubleDollars text) = .ok text := by
  constructor
  · intro input tokens values tokenized expands
    obtain ⟨base, url, isBase, isUrl, scheme, authority, path, fragment, query, query'⟩ := expansion_parses standard expands values
    refine ⟨filled values (templatePieces tokens), base, url, ?_, isBase, isUrl, scheme, authority, path, fragment, ?_⟩
    · rw [interpolateWith, tokenized]
      exact foldlM_pieces standard expands tokens [] rfl
    · rw [query, query']
      cases found : queryPieces (templatePieces tokens) with
      | none =>
        rw [templatePairs, found]
        exact ⟨rfl, rfl⟩
      | some query =>
        obtain ⟨all, keys⟩ := pairs_filled expands found base.scheme values
        simp only [Option.map_some, Option.getD_some]
        rw [keys, all, List.map_map]
        exact ⟨rfl, rfl⟩
  · intro text lookup
    obtain ⟨tokens, done, folded⟩ := tokenizeFrom_doubleDollars parse lookup text 0 []
    rw [interpolateWith, tokenizeTemplate, done]
    exact folded

theorem tokenizeFrom_reference {before : Str} (free : Byte.dollar ∉ before) (name : EnvironmentName) (closed : Byte.closeBrace ∉ name.text)
    (after : Str) (offset : ℕ) :
    tokenizeFrom offset (before ++ Byte.dollar :: Byte.openBrace :: (name.text ++ Byte.closeBrace :: after)) =
      (tokenizeFrom (offset + before.length + name.text.length + 3) after).map fun tokens => .literal before :: .reference name :: tokens := by
  conv_lhs => unfold tokenizeFrom
  split
  · next text found =>
    rw [List.cut_append free] at found
    cases found
  · next text behind found =>
    rw [List.cut_append free] at found
    cases found
    dsimp only
    rw [if_neg (by decide), if_pos rfl]
    split
    · next other found =>
      rw [List.cut_append closed] at found
      cases found
    · next other rest found =>
      rw [List.cut_append closed] at found
      cases found
      have parsed : EnvironmentName.parse name.text = some name := dif_pos name.valid
      rw [parsed]
      dsimp only
      cases tokenizeFrom (offset + before.length + name.text.length + 3) after <;> rfl

/-! ## A text with a reference at its end -/

section Single

variable {start : Str} {name : EnvironmentName}

theorem tokenizeTemplate_single (free : Byte.dollar ∉ start) (name : EnvironmentName) (closed : Byte.closeBrace ∉ name.text) :
    tokenizeTemplate (start ++ Byte.dollar :: Byte.openBrace :: (name.text ++ [Byte.closeBrace])) =
      .ok [.literal start, .reference name, .literal []] := by
  rw [tokenizeTemplate, tokenizeFrom_reference free name closed, tokenizeFrom_of_notMem List.not_mem_nil]
  rfl

theorem templatePieces_single (start : Str) (name : EnvironmentName) :
    templatePieces [.literal start, .reference name, .literal []] = start.map .byte ++ [.hole name] := by
  simp [templatePieces, TemplateToken.pieces]

theorem literalText_single (start : Str) (name : EnvironmentName) : literalText (start.map .byte ++ [.hole name]) = start := by
  rw [literalText, List.flatMap_append, List.flatMap_map]
  simp [Piece.spell]

/-- In front of a reference is the whole text. -/
theorem eq_start_of_single {before after : List TemplatePiece} {other : EnvironmentName}
    (same : start.map .byte ++ [.hole name] = before ++ .hole other :: after) : before = start.map .byte := by
  rcases List.eq_nil_or_concat' after with rfl | ⟨rest, last, rfl⟩
  · exact (List.append_inj_left' same rfl).symm
  · have inside := List.append_inj_left' (same.trans (List.append_assoc before (.hole other :: rest) [last]).symm) rfl
    have member : .hole other ∈ start.map (@Piece.byte EnvironmentName) := by rw [inside]; simp
    obtain ⟨value, -, same⟩ := List.mem_map.mp member
    cases same

theorem HolesInValues.single (ends : EndsInValue (start.map .byte)) : HolesInValues (start.map .byte ++ [.hole name]) := by
  intro before other after same
  rw [eq_start_of_single same]
  exact ends

/-- With no percent sign among the last two bytes the reference is in no escape. -/
theorem whole_single (last : start.getLast? ≠ some 0x25) (second : start.dropLast.getLast? ≠ some 0x25) :
    Piece.Whole (start.map .byte ++ [.hole name]) := by
  intro before other after same ends
  rw [eq_start_of_single same] at ends
  rcases ends with ⟨front, escape⟩ | ⟨front, digit, escape, -⟩
  · have here := congrArg List.getLast? escape
    rw [List.getLast?_concat, List.getLast?_map] at here
    obtain ⟨byte, isLast, isByte⟩ := Option.map_eq_some_iff.mp here
    cases isByte
    exact last isLast
  · have here := congrArg (fun pieces => pieces.dropLast.getLast?) escape
    rw [List.append_cons, List.dropLast_concat, List.getLast?_concat, ← List.map_dropLast, List.getLast?_map] at here
    obtain ⟨byte, isLast, isByte⟩ := Option.map_eq_some_iff.mp here
    cases isByte
    exact second isLast

end Single

namespace ConfinedToken

/-- Scheme, authority and path of a text with an authority. -/
def front (text : Str) : Option (Str × Str × Str) :=
  match text.cut 0x3A with
  | (scheme, some (0x2F :: 0x2F :: rest)) => some (scheme, (rest.cut 0x2F).1, ((rest.cut 0x2F).2.map (0x2F :: ·)).getD [])
  | _ => none

def parse (text : Str) : Option Url :=
  (front (urlFront (readable text))).map fun (scheme, authority, path) =>
    ⟨scheme, authority, path, (urlQuery (readable text)).map (Percent.encode (querySet scheme)), (urlFragment (readable text)).map (Percent.encode fragmentSet)⟩

theorem standard : UrlStandard parse front := ⟨fun _ _ => rfl⟩

def name : EnvironmentName := ⟨ascii "T", by decide⟩

end ConfinedToken

/-- A token that has separators and a space of its own. -/
theorem interpolation_confined_token : ∃ (parse : Str → Option Url) (front : Str → Option (Str × Str × Str)) (out : Str) (url : Url),
    UrlStandard parse front ∧ interpolateWith parse (fun _ => .ok (ascii "a&b c")) (ascii "s3://b?k=1&t=${T}") = .ok out ∧ parse out = some url ∧
      url.scheme = ascii "s3" ∧ pairs (url.query.getD []) = [(ascii "k", ascii "1"), (ascii "t", ascii "a&b c")] := by
  obtain ⟨parse, isParse⟩ : ∃ parse, parse = ConfinedToken.parse := ⟨_, rfl⟩
  have standard : UrlStandard parse ConfinedToken.front := isParse ▸ ConfinedToken.standard
  obtain ⟨start, isStart⟩ : ∃ start, start = ascii "s3://b?k=1&t=" := ⟨_, rfl⟩
  have tokenized : tokenizeTemplate (ascii "s3://b?k=1&t=${T}") = .ok [.literal start, .reference ConfinedToken.name, .literal []] := by
    rw [isStart, ← tokenizeTemplate_single (by decide) _ (by decide)]
    rfl
  have shape := templatePieces_single start ConfinedToken.name
  have literal := literalText_single start ConfinedToken.name
  have isBase : parse start = some ⟨ascii "s3", ascii "b", [], some (ascii "k=1&t="), none⟩ := by
    rw [isParse, isStart]
    decide
  have expands : ExpandsInQuery parse (start.map .byte ++ [.hole ConfinedToken.name]) := by
    refine ⟨⟨?_, ?_, .single ?_, whole_single ?_ ?_⟩, ?_⟩
    · rw [literal, isStart, isHierarchical]
      decide
    · rw [literal, isBase]
      rfl
    · rw [isStart]
      exact ⟨by decide, (ascii "s3://b").map .byte, (ascii "k=1&t").map .byte, [], by decide, by decide, by decide⟩
    · rw [isStart]
      decide
    · rw [isStart]
      decide
    · rw [literal, isStart]
      decide
  obtain ⟨out, base, url, expanded, isBase', isUrl, scheme, -, -, -, -, all⟩ := (interpolation_confined standard).1 _ _ (fun _ => ascii "a&b c") tokenized (shape ▸ expands)
  rw [shape, literal, isBase] at isBase'
  refine ⟨parse, ConfinedToken.front, out, url, standard, expanded, isUrl, ?_, ?_⟩
  · rw [scheme, ← Option.some.inj isBase']
  · have cut : templatePairs (start.map .byte ++ [.hole ConfinedToken.name]) =
        [([.byte 0x6B], [.byte 0x31]), ([.byte 0x74], [.hole ConfinedToken.name])] := by
      rw [isStart]
      decide
    rw [all, shape, cut]
    simp only [List.map_cons, List.map_nil, Piece.decode, List.append_nil]
    rfl

/-- A tab in the literal text is not in the URL, so the first value is `ac` where the template says `a`, tab, `c`. -/
theorem literal_tab_is_dropped : ∃ (parse : Str → Option Url) (front : Str → Option (Str × Str × Str)) (tokens : List TemplateToken) (out : Str) (url : Url),
    UrlStandard parse front ∧ tokenizeTemplate (ascii "s3://b?k=a\tc&t=${T}") = .ok tokens ∧ ReferencesInValues parse (templatePieces tokens) ∧
      interpolateWith parse (fun _ => .ok (ascii "x")) (ascii "s3://b?k=a\tc&t=${T}") = .ok out ∧ parse out = some url ∧
      pairs (url.query.getD []) ≠
        (templatePairs (templatePieces tokens)).map fun pair => (Piece.decode (fun _ => ascii "x") pair.1, Piece.decode (fun _ => ascii "x") pair.2) := by
  obtain ⟨start, isStart⟩ : ∃ start, start = ascii "s3://b?k=a\tc&t=" := ⟨_, rfl⟩
  have tokenized : tokenizeTemplate (ascii "s3://b?k=a\tc&t=${T}") = .ok [.literal start, .reference ConfinedToken.name, .literal []] := by
    rw [isStart, ← tokenizeTemplate_single (by decide) _ (by decide)]
    rfl
  have isBase : ConfinedToken.parse start = some ⟨ascii "s3", ascii "b", [], some (ascii "k=ac&t="), none⟩ := by
    rw [isStart]
    decide
  have references : ReferencesInValues ConfinedToken.parse (start.map .byte ++ [.hole ConfinedToken.name]) := by
    refine ⟨?_, ?_, .single ?_, whole_single ?_ ?_⟩
    · rw [literalText_single, isStart, isHierarchical]
      decide
    · rw [literalText_single, isBase]
      rfl
    · rw [isStart]
      exact ⟨by decide, (ascii "s3://b").map .byte, (ascii "k=a\tc&t").map .byte, [], by decide, by decide, by decide⟩
    · rw [isStart]
      decide
    · rw [isStart]
      decide
  have serialized : Percent.formSerialize (ascii "x") = ascii "x" := by decide
  refine ⟨ConfinedToken.parse, ConfinedToken.front, _, start ++ ascii "x", ⟨ascii "s3", ascii "b", [], some (ascii "k=ac&t=x"), none⟩,
    ConfinedToken.standard, tokenized, ?_, ?_, ?_, ?_⟩
  · rw [templatePieces_single]
    exact references
  · have inside : inQueryValue ConfinedToken.parse start = true := by
      rw [inQueryValue, isBase]
      decide
    rw [interpolateWith, tokenized]
    simp [interpolateToken, inside, serialized, bind, Except.bind, pure, Except.pure]
  · rw [isStart]
    decide
  · have cut : templatePairs (start.map .byte ++ [.hole ConfinedToken.name]) =
        [([.byte 0x6B], [.byte 0x61, .byte 0x09, .byte 0x63]), ([.byte 0x74], [.hole ConfinedToken.name])] := by
      rw [isStart]
      decide
    have read : (ascii "k=ac&t=x").rawPairs 0x26 0x3D = [([0x6B], [0x61, 0x63]), ([0x74], [0x78])] := by decide
    have two : formDecode [0x61, 0x63] = [0x61, 0x63] := by simp [formDecode, Percent.decode, plusToSpace]
    have three : Piece.decode (fun _ : EnvironmentName => ascii "x") [.byte 0x61, .byte 0x09, .byte 0x63] = [0x61, 0x09, 0x63] := by
      simp [Piece.decode, plusToSpace]
    rw [templatePieces_single, cut, Option.getD_some, pairs, read]
    intro same
    have first : formDecode [0x61, 0x63] = Piece.decode (fun _ : EnvironmentName => ascii "x") [.byte 0x61, .byte 0x09, .byte 0x63] :=
      congrArg Prod.snd (List.cons.inj same).1
    rw [two, three] at first
    exact absurd first (by decide)

end Gat
