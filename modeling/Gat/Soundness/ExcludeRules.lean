import Gat.Model.ExcludeBody
import Gat.Soundness.Exclusions
import Gat.ToMathlib.GitIgnore

/-! # What patterns and rules ignore

A path is covered when a line of the configuration ignores it, whether its pattern became a byte range or went to the
engine. The rule of a path spells it byte for byte behind an anchor, so it ignores the path with what is below it and
nothing else.
-/

open List

namespace Gat

open AncestorFree

/-! ## The ignore engine -/

/-- The documented precedence: among the patterns that match, the last one decides. -/
def IgnoreSearch.Documented (search : IgnoreSearch) : Prop :=
  ∀ patterns path isDir, search patterns path isDir = (GitIgnore.decides patterns path isDir).map GitIgnore.Rule.negated

theorem foldl_latch {α : Type} (hit : α → Bool) (list : List α) (start : Bool) :
    list.foldl (fun found item => if hit item then true else found) start = (start || list.any hit) := by
  induction list generalizing start with
  | nil => simp
  | cons item list ih =>
    rw [foldl_cons, ih, any_cons]
    cases hit item <;> simp

/-- The directories above a path end before one of its separators. -/
theorem exists_separator_iff {path : Str} {property : Str → Prop} :
    (∃ index ∈ range path.length, path[index]? = some Byte.slash ∧ property (path.take index)) ↔
      ∃ directory, IsAncestor Byte.slash directory path ∧ property directory := by
  constructor
  · rintro ⟨index, -, found, holds⟩
    refine ⟨path.take index, ?_, holds⟩
    obtain ⟨inside, letter⟩ := List.getElem?_eq_some_iff.mp found
    exact ⟨path.drop (index + 1), by rw [← letter, append_assoc, singleton_append, ← drop_eq_getElem_cons inside, take_append_drop]⟩
  · rintro ⟨directory, ⟨rest, rfl⟩, holds⟩
    refine ⟨directory.length, mem_range.mpr (by simp), by simp, ?_⟩
    rwa [append_assoc, take_left]

theorem isIgnored_iff {search : IgnoreSearch} (documented : search.Documented) {patterns : List Str}
    (positive : ∀ line ∈ patterns, line.head? ≠ some GitIgnore.negation) (path : Str) :
    GitIgnoreMatcher.isIgnored search patterns path = true ↔ ∃ line ∈ patterns, GitIgnore.Ignores line path := by
  let hit (path : Str) (isDir : Bool) : Prop := ∃ line ∈ patterns, ∃ rule, GitIgnore.parse line = some rule ∧ rule.matchesPath path isDir = true
  have answer (path : Str) (isDir : Bool) : ((search patterns path isDir).map not = some true ∧ hit path isDir) ∨
      ((search patterns path isDir).map not = none ∧ ¬hit path isDir) := by
    rw [documented]
    rcases GitIgnore.decides_of_positive positive path isDir with ⟨found, holds⟩ | ⟨found, fails⟩
    · exact .inl ⟨by rw [found]; rfl, holds⟩
    · exact .inr ⟨by rw [found]; rfl, fails⟩
  -- the loop remembers whether some directory above matched
  have loop : (fun (ignored : Bool) (index : ℕ) =>
      if path[index]? = some Byte.slash then ((search patterns (path.take index) true).map not).getD ignored else ignored) =
      fun ignored index => if path[index]? = some Byte.slash ∧ ((search patterns (path.take index) true).map not).isSome = true then true else ignored := by
    funext ignored index
    by_cases slash : path[index]? = some Byte.slash
    · rcases answer (path.take index) true with ⟨found, -⟩ | ⟨found, -⟩ <;> simp [slash, found]
    · simp [slash]
  have above : (range path.length).foldl (fun (ignored : Bool) (index : ℕ) =>
      if path[index]? = some Byte.slash then ((search patterns (path.take index) true).map not).getD ignored else ignored) false = true ↔
      ∃ directory, IsAncestor Byte.slash directory path ∧ hit directory true := by
    have latch := foldl_latch (fun index => decide (path[index]? = some Byte.slash ∧ ((search patterns (path.take index) true).map not).isSome = true))
      (range path.length) false
    simp only [decide_eq_true_eq] at latch
    rw [loop, latch, Bool.false_or, any_eq_true]
    simp only [decide_eq_true_eq]
    refine Iff.trans (@exists_separator_iff path fun directory => ((search patterns directory true).map not).isSome = true) ?_
    refine exists_congr fun directory => and_congr_right fun _ => ?_
    rcases answer directory true with ⟨found, holds⟩ | ⟨found, fails⟩
    · exact iff_of_true (by rw [found]; rfl) holds
    · exact iff_of_false (by rw [found]; exact nofun) fails
  have split : (∃ line ∈ patterns, GitIgnore.Ignores line path) ↔ hit path false ∨ ∃ directory, IsAncestor Byte.slash directory path ∧ hit directory true := by
    constructor
    · rintro ⟨line, member, rule, parsed, -, hit | ⟨directory, above, hit⟩⟩
      · exact .inl ⟨line, member, rule, parsed, hit⟩
      · exact .inr ⟨directory, above, line, member, rule, parsed, hit⟩
    · rintro (⟨line, member, rule, parsed, hit⟩ | ⟨directory, above, line, member, rule, parsed, hit⟩)
      · exact ⟨line, member, rule, parsed, GitIgnore.negated_of_parse parsed (positive line member), .inl hit⟩
      · exact ⟨line, member, rule, parsed, GitIgnore.negated_of_parse parsed (positive line member), .inr ⟨directory, above, hit⟩⟩
  rw [split]
  unfold GitIgnoreMatcher.isIgnored
  dsimp only
  rcases answer path false with ⟨found, holds⟩ | ⟨found, fails⟩
  · rw [found]
    exact iff_of_true rfl (.inl holds)
  · rw [found, Option.getD_none, above]
    exact (or_iff_right fails).symm

/-! ## Rules of single paths -/

/-- `escapeExact` on one byte. -/
def escapeByte (byte : UInt8) : Str :=
  if byte = Byte.carriageReturn then ascii "[\r]"
  else (if byte ∈ [GitIgnore.escape, GitIgnore.asterisk, GitIgnore.question, GitIgnore.bracket, GitIgnore.closing] then [Byte.backslash] else []) ++ [byte]

theorem escapeExact_ascii : ∀ value : Fin 128, escapeExact (Char.ofNat value.val) = escapeByte (UInt8.ofNat value.val) := by decide +kernel

theorem escapeByte_of_not_ascii {byte : UInt8} (high : ¬Utf8.IsAscii byte) : escapeByte byte = [byte] := by
  have other {special : UInt8} (low : Utf8.IsAscii special) : byte ≠ special := by
    rintro rfl
    exact high low
  rw [escapeByte, if_neg (other (by decide)), if_neg, nil_append]
  simp only [mem_cons, not_mem_nil, or_false, not_or]
  exact ⟨other (by decide), other (by decide), other (by decide), other (by decide), other (by decide)⟩

theorem flatMap_escapeExact {text : Str} (valid : Utf8.Valid text) : (Utf8.chars text).flatMap escapeExact = text.flatMap escapeByte := by
  have one (char : Char) : escapeExact char = (String.utf8EncodeChar char).flatMap escapeByte := by
    rcases Utf8.encodeChar_cases char with ⟨byte, low, rfl, encoded⟩ | high
    · have small : byte.toNat < 128 := UInt8.lt_iff_toNat_lt.mp low
      have same := escapeExact_ascii ⟨byte.toNat, small⟩
      rw [UInt8.ofNat_toNat] at same
      rw [encoded, flatMap_singleton, same]
    · have same : (String.utf8EncodeChar char).flatMap escapeByte = String.utf8EncodeChar char := by
        conv_rhs => rw [← flatMap_singleton' (String.utf8EncodeChar char)]
        exact flatMap_congr fun byte member => escapeByte_of_not_ascii (high byte member)
      have other (special : UInt8) (low : Utf8.IsAscii special) : char ≠ Char.ofNat special.toNat := by
        rintro rfl
        rw [Utf8.encodeChar_of_ascii low] at high
        exact high special (mem_singleton_self _) low
      rw [same, escapeExact, if_neg (show char ≠ '\r' from other Byte.carriageReturn (by decide)), if_neg, nil_append]
      simp only [mem_cons, not_mem_nil, or_false, not_or]
      exact ⟨other GitIgnore.escape (by decide), other GitIgnore.asterisk (by decide), other GitIgnore.question (by decide),
        other GitIgnore.bracket (by decide), other GitIgnore.closing (by decide)⟩
  conv_rhs => rw [← Utf8.flatMap_chars valid, flatMap_assoc]
  exact flatMap_congr fun char _ => one char

theorem mem_escapeByte (byte : UInt8) : byte ∈ escapeByte byte := by
  unfold escapeByte
  split_ifs with same
  · subst same
    decide
  · exact mem_append_right [Byte.backslash] (mem_singleton_self _)
  · exact mem_append_right [] (mem_singleton_self _)

/-- Text that does not end with a space is spelled by its escapes. -/
theorem spells_escapeByte {text : Str} (solid : text.getLast? ≠ some GitIgnore.space) : GitIgnore.Spells (text.flatMap escapeByte) text := by
  induction text with
  | nil => exact .nil
  | cons byte text ih =>
    have rest : GitIgnore.Spells (text.flatMap escapeByte) text := by
      cases text with
      | nil => exact .nil
      | cons next text =>
        rw [getLast?_cons_cons] at solid
        exact ih solid
    rw [flatMap_cons, escapeByte]
    split_ifs with returned special
    · subst returned
      exact .oneOf (by decide) rest
    · exact .escaped returned rest
    · refine .plain (fun listed => ?_) (fun same => ?_) rest
      · simp only [mem_cons, not_mem_nil, or_false] at listed special
        rcases listed with same | same | same | same | same
        · exact special (.inl same)
        · exact special (.inr (.inr (.inl same)))
        · exact special (.inr (.inr (.inr (.inl same))))
        · exact special (.inr (.inl same))
        · exact returned same
      · -- the last byte is not a space, and its escape holds it
        cases text with
        | nil => exact absurd (congrArg some same) solid
        | cons next text =>
          have last := getLast?_eq_some_getLast (cons_ne_nil next text)
          rw [getLast?_cons_cons, last] at solid
          exact ⟨_, mem_flatMap.mpr ⟨_, getLast_mem (cons_ne_nil next text), mem_escapeByte _⟩, fun blank => solid (congrArg some blank)⟩

theorem spells_spaces (count : ℕ) : GitIgnore.Spells (replicate count (ascii "\\ ")).flatten (replicate count GitIgnore.space) := by
  induction count with
  | zero => exact .nil
  | succ count ih => exact .escaped (by decide) ih

/-- A text is its trimmed part and the spaces behind it. -/
theorem trimEndMatches_append (byte : UInt8) (text : Str) :
    trimEndMatches byte text ++ replicate (text.length - (trimEndMatches byte text).length) byte = text := by
  have split : text.rdropWhile (· = byte) ++ text.rtakeWhile (· = byte) = text := rdropWhile_append_rtakeWhile
  have tail : text.rtakeWhile (· = byte) = replicate (text.length - (trimEndMatches byte text).length) byte := by
    refine eq_replicate_iff.mpr ⟨?_, fun other member => by simpa using mem_rtakeWhile_imp member⟩
    have total := congrArg length split
    rw [length_append] at total
    unfold trimEndMatches
    omega
  rw [← tail]
  exact split

def exactRule (path : Str) : Str := appendExactExcludePattern [] path

theorem appendExactExcludePattern_eq (escaped path : Str) : appendExactExcludePattern escaped path = escaped ++ exactRule path := by
  simp [exactRule, appendExactExcludePattern]

/-- A rule spells its path behind the anchor. -/
theorem exactRule_spells (path : GatPath) :
    ∃ spelled, exactRule path.text = GitIgnore.separator :: spelled ∧ GitIgnore.Spells spelled path.text := by
  have split := trimEndMatches_append GitIgnore.space path.text
  obtain ⟨head, isHead⟩ : ∃ head, head = trimEndMatches GitIgnore.space path.text := ⟨_, rfl⟩
  obtain ⟨count, isCount⟩ : ∃ count, count = path.text.length - head.length := ⟨_, rfl⟩
  rw [← isHead, ← isCount] at split
  have valid : Utf8.Valid head := by
    cases count with
    | zero =>
      rw [replicate_zero, append_nil] at split
      exact split ▸ path.utf8
    | succ count =>
      rw [replicate_succ] at split
      exact (Utf8.Valid.split_ascii (by decide) (split ▸ path.utf8)).1
  have solid : head.getLast? ≠ some GitIgnore.space := by
    intro blank
    have some' : head ≠ [] := by
      rintro rfl
      cases blank
    subst isHead
    rw [getLast?_eq_some_getLast some'] at blank
    exact rdropWhile_last_not (fun byte : UInt8 => decide (byte = GitIgnore.space)) path.text some' (decide_eq_true (Option.some.inj blank))
  refine ⟨head.flatMap escapeByte ++ (replicate count (ascii "\\ ")).flatten, ?_, ?_⟩
  · unfold exactRule appendExactExcludePattern
    dsimp only
    rw [show trimEndMatches 0x20 path.text = head from isHead.symm, ← isCount, flatMap_escapeExact valid]
    rfl
  · have whole := (spells_escapeByte solid).append (spells_spaces count)
    rwa [split] at whole

/-- A canonical path does not end with a separator. -/
theorem GatPath.getLast?_ne_slash (path : GatPath) : path.text.getLast? ≠ some Byte.slash := by
  intro ends
  obtain ⟨front, same⟩ := getLast?_eq_some_iff.mp ends
  have canonical := path.isCanonical
  rw [same] at canonical
  exact (LockFormat.isCanonical_join_iff.mp canonical).2.1 rfl

/-- A rule ignores its path and what is below it. -/
theorem exactRule_ignores_iff (path : GatPath) (other : Str) :
    GitIgnore.Ignores (exactRule path.text) other ↔ other = path.text ∨ IsAncestor Byte.slash path.text other := by
  obtain ⟨spelled, rule, spells⟩ := exactRule_spells path
  rw [rule]
  exact spells.ignores_iff path.getLast?_ne_slash path.isCanonical.1

theorem exactRule_inj {first second : GatPath} (same : exactRule first.text = exactRule second.text) : first = second := by
  have here := (exactRule_ignores_iff first first.text).mpr (.inl rfl)
  have there := (exactRule_ignores_iff second second.text).mpr (.inl rfl)
  rw [same, exactRule_ignores_iff] at here
  rw [← same, exactRule_ignores_iff] at there
  have short {ancestor path : Str} (above : IsAncestor Byte.slash ancestor path) : ancestor.length < path.length := by
    have long := above.length_le
    rw [length_append, length_singleton] at long
    exact long
  rcases here with equal | below
  · exact GatPath.ext equal
  · rcases there with equal | above
    · exact GatPath.ext equal.symm
    · exact absurd (short below) (short above).not_gt

/-! ## Coverage -/

section Coverage

variable {search : IgnoreSearch} (documented : search.Documented) {patterns : List GitIgnorePattern}

/-- Some configured line ignores the path. -/
def Covered (patterns : List GitIgnorePattern) (path : GatPath) : Prop := ∃ pattern ∈ patterns, GitIgnore.Ignores pattern.text path.text

/-- Text without special bytes spells itself. -/
theorem spells_self {text : Str} (plain : ∀ byte ∈ text,
    byte ∉ [GitIgnore.escape, GitIgnore.question, GitIgnore.bracket, GitIgnore.asterisk, GitIgnore.carriage] ∧ byte ≠ GitIgnore.space) :
    GitIgnore.Spells text text := by
  induction text with
  | nil => exact .nil
  | cons byte text ih =>
    obtain ⟨⟨ordinary, solid⟩, rest⟩ := forall_mem_cons.mp plain
    exact .plain ordinary (fun same => absurd same solid) (ih rest)

/-- A literal directory ignores what is below it. -/
theorem literalDirectory_ignores_iff {pattern : GitIgnorePattern} {directory : GatPath} (literal : literalDirectory pattern = some directory) (path : Str) :
    GitIgnore.Ignores pattern.text path ↔ IsAncestor Byte.slash directory.text path := by
  obtain ⟨framed, plain⟩ := literalDirectory_eq_some_iff.mp literal
  have spells : GitIgnore.Spells directory.text directory.text := by
    refine spells_self fun byte member => ?_
    have other {special : UInt8} (low : Utf8.IsAscii special) (isSpecial : isPatternSyntax (Char.ofNat special.toNat) = true) : byte ≠ special := by
      rintro rfl
      exact absurd (plain _ (Utf8.mem_chars_of_ascii directory.utf8 low member)) (by rw [isSpecial]; decide)
    simp only [mem_cons, not_mem_nil, or_false, not_or]
    exact ⟨⟨other (by decide) (by decide), other (by decide) (by decide), other (by decide) (by decide), other (by decide) (by decide),
      other (by decide) (by decide)⟩,
      other (by decide) (by decide)⟩
  rw [framed]
  exact spells.ignores_directory_iff

include documented

/-- The plan covers what the configured lines ignore. -/
theorem covers_iff {path : GatPath} : (IgnoreCoveragePlan.ofPatterns search patterns).covers path = true ↔ Covered patterns path := by
  have positive : ∀ line ∈ (patterns.filter fun pattern => (literalDirectory pattern).isNone).map GitIgnorePattern.text,
      line.head? ≠ some GitIgnore.negation := forall_mem_map.mpr fun pattern _ => pattern.notNegated
  have residual : (IgnoreCoveragePlan.ofPatterns search patterns).residualMatches path = true ↔
      ∃ pattern ∈ patterns, literalDirectory pattern = none ∧ GitIgnore.Ignores pattern.text path.text := by
    unfold IgnoreCoveragePlan.ofPatterns IgnoreCoveragePlan.new IgnoreCoveragePlan.residualMatches
    dsimp only
    by_cases none' : (patterns.filter fun pattern => (literalDirectory pattern).isNone) = []
    · rw [if_pos none']
      refine iff_of_false nofun ?_
      rintro ⟨pattern, member, unspelled, -⟩
      exact filter_eq_nil_iff.mp none' pattern member (by rw [unspelled]; rfl)
    · rw [if_neg none', Option.any_some, isIgnored_iff documented positive]
      simp only [mem_map, mem_filter, Option.isNone_iff_eq_none]
      constructor
      · rintro ⟨line, ⟨pattern, ⟨member, unspelled⟩, rfl⟩, ignores⟩
        exact ⟨pattern, member, unspelled, ignores⟩
      · rintro ⟨pattern, member, unspelled, ignores⟩
        exact ⟨_, ⟨pattern, ⟨member, unspelled⟩, rfl⟩, ignores⟩
  have excluded : (IgnoreCoveragePlan.ofPatterns search patterns).excluded.contains path = true ↔
      ∃ pattern ∈ patterns, ∃ directory, literalDirectory pattern = some directory ∧ IsAncestor Byte.slash directory.text path.text := by
    refine DesiredPathExclusions.contains_new.trans ?_
    simp only [mem_filterMap]
    constructor
    · rintro ⟨directory, ⟨pattern, member, literal⟩, below⟩
      exact ⟨pattern, member, directory, literal, below⟩
    · rintro ⟨pattern, member, directory, literal, below⟩
      exact ⟨directory, ⟨pattern, member, literal⟩, below⟩
  rw [IgnoreCoveragePlan.covers, Bool.or_eq_true, excluded, residual]
  constructor
  · rintro (⟨pattern, member, directory, literal, below⟩ | ⟨pattern, member, -, ignores⟩)
    · exact ⟨pattern, member, (literalDirectory_ignores_iff literal _).mpr below⟩
    · exact ⟨pattern, member, ignores⟩
  · rintro ⟨pattern, member, ignores⟩
    cases literal : literalDirectory pattern with
    | none => exact .inr ⟨pattern, member, literal, ignores⟩
    | some directory => exact .inl ⟨pattern, member, directory, literal, (literalDirectory_ignores_iff literal _).mp ignores⟩

end Coverage

end Gat
