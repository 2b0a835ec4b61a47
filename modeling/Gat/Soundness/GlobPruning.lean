import Gat.Model.Globs
import Gat.Proofs.LockTree
import Gat.Soundness.LexicalNormalization

/-! # Glob pruning keeps every match

The bound and the directory test look at parts of a pattern only. Both follow from how the tokens of the pattern match: the
letters before the first metacharacter stand for themselves, and a pattern that matches below a directory has a beginning that
matches the directory, which is the text before a separator unless the pattern ends with `**`.
-/

namespace Gat

open AncestorFree

/-- Text before the first metacharacter has none. -/
theorem chars_plain {text : Str} (valid : Utf8.Valid text) (plain : firstMetaIndex text = none) :
    ∀ letter ∈ Utf8.chars text, letter ∉ Glob.metas := by
  intro letter member isMeta
  have encoded := Utf8.encodeChar_subset valid member
  rw [firstMetaIndex, List.findIdx?_eq_none_iff] at plain
  have absent {byte : UInt8} (spelled : String.utf8EncodeChar letter = [byte]) : byte ∉ ascii "*?[" := by
    have present := plain byte (encoded (by rw [spelled]; exact List.mem_singleton_self byte))
    exact of_decide_eq_false present
  simp only [Glob.metas, List.mem_cons, List.not_mem_nil, or_false] at isMeta
  rcases isMeta with rfl | rfl | rfl
  · exact absent (show _ = [0x2A] by decide) (by decide)
  · exact absent (show _ = [0x3F] by decide) (by decide)
  · exact absent (show _ = [0x5B] by decide) (by decide)

/-- What the text of a pattern fixes of a matched text. -/
theorem globBound_admits {inClass : List Char → Char → Bool} {tokens : List Glob.Token} {normalized path : Str}
    (valid : Utf8.Valid normalized) (text : Utf8.Valid path) (parses : Glob.Parses true (Utf8.chars normalized) tokens)
    (hit : Glob.Matches inClass tokens (Utf8.chars path)) : (globBound normalized).Admits path := by
  unfold globBound
  cases found : firstMetaIndex normalized with
  | none =>
    rw [← List.append_nil (Utf8.chars normalized)] at parses
    have same := (parses.fixed (chars_plain valid found) hit).2 rfl
    change path = normalized
    rw [← Utf8.flatMap_chars text, same, Utf8.flatMap_chars valid]
  | some index =>
    obtain ⟨below, isMeta, earlier⟩ := List.findIdx?_eq_some_iff_getElem.mp found
    have cut : normalized = normalized.take index ++ normalized[index] :: normalized.drop (index + 1) := by
      rw [List.getElem_cons_drop, List.take_append_drop]
    have single : Utf8.IsAscii normalized[index] := by
      have asciis : ∀ byte ∈ ascii "*?[", Utf8.IsAscii byte := Utf8.forall_mem_of_all (by decide)
      exact asciis _ (of_decide_eq_true isMeta)
    obtain ⟨before, after⟩ := Utf8.Valid.split_ascii single (cut ▸ valid)
    have plain : firstMetaIndex (normalized.take index) = none := by
      refine List.findIdx?_eq_none_iff.mpr fun byte member => ?_
      obtain ⟨position, inside, rfl⟩ := List.getElem_of_mem member
      rw [List.length_take] at inside
      rw [List.getElem_take]
      exact eq_false_of_ne_true (earlier position (by omega))
    have letters : Utf8.chars normalized = Utf8.chars (normalized.take index) ++ Utf8.chars (normalized[index] :: normalized.drop (index + 1)) := by
      rw [← Utf8.chars_append before (after.cons_ascii single), ← cut]
    obtain ⟨rest, starts⟩ := ((letters ▸ parses).fixed (chars_plain before plain) hit).1
    have admits : normalized.take index <+: path := by
      refine ⟨rest.flatMap String.utf8EncodeChar, ?_⟩
      rw [← Utf8.flatMap_chars text, ← starts, List.flatMap_append, Utf8.flatMap_chars before]
    cases index with
    | zero => trivial
    | succ index => exact admits

theorem chars_slash {text : Str} (valid : Utf8.Valid text) : Utf8.chars (Byte.slash :: text) = '/' :: Utf8.chars text := by
  have encoded : ('/' :: Utf8.chars text).flatMap String.utf8EncodeChar = Byte.slash :: text := by
    rw [List.flatMap_cons, Utf8.flatMap_chars valid]
    rfl
  rw [← encoded, Utf8.chars_flatMap]

section Pruning

variable {Pattern PatternError : Type} {engine : GlobEngine Pattern PatternError} {inClass : List Char → Char → Bool}
  {raw : Str} {glob : GatGlobPatternInner Pattern}

namespace GatGlobPatternInner

/-- What a parsed pattern holds. -/
structure Compiled (engine : GlobEngine Pattern PatternError) (glob : GatGlobPatternInner Pattern) : Prop where
  utf8 : Utf8.Valid glob.normalized
  firstMeta : glob.firstMeta = firstMetaIndex glob.normalized
  compiled : engine.new glob.normalized = .ok glob.compiled

theorem compiled_of_parse (valid : Utf8.Valid raw) (parsed : parse engine raw = .ok glob) : Compiled engine glob := by
  unfold parse at parsed
  rw [Outcome.bind_eq_ok_iff] at parsed
  obtain ⟨normalized, mapped, parsed⟩ := parsed
  obtain ⟨utf8, firstMeta⟩ := normalizeGlobPatternWithMeta_ok valid (LockTree.mapErr_eq_ok_iff.mp mapped)
  unfold fromNormalized at parsed
  cases compiled : engine.new normalized.pattern with
  | error source =>
    rw [compiled] at parsed
    exact absurd parsed (Outcome.fail_ne_ok _ _)
  | ok pattern =>
    rw [compiled] at parsed
    obtain rfl := Except.ok.inj parsed
    exact ⟨utf8, firstMeta, compiled⟩

theorem Compiled.bound_eq (compiled : Compiled engine glob) : glob.bound = globBound glob.normalized := by
  rw [bound, compiled.firstMeta]
  rfl

theorem Compiled.isMatch_iff (compiled : Compiled engine glob) (documented : engine.Documented inClass) {path : Str} (text : Utf8.Valid path) :
    glob.isMatch engine path = true ↔ ∃ tokens, Glob.Parses true (Utf8.chars glob.normalized) tokens ∧ Glob.Matches inClass tokens (Utf8.chars path) :=
  documented.matching _ _ _ _ compiled.utf8 text compiled.compiled rfl rfl rfl

/-- The matcher with its bound, as selections use it. -/
def Compiled.toPattern (compiled : Compiled engine glob) (documented : engine.Documented inClass) : GatGlobPattern where
  normalized := glob.normalized
  utf8 := compiled.utf8
  compiled path := decide (Utf8.Valid path) && glob.isMatch engine path
  bounded path accepted := by
    obtain ⟨text, hit⟩ := Bool.and_eq_true_iff.mp accepted
    have valid := of_decide_eq_true text
    obtain ⟨tokens, parses, covered⟩ := (compiled.isMatch_iff documented valid).mp hit
    exact globBound_admits compiled.utf8 valid parses covered

theorem Compiled.toPattern_agrees (compiled : Compiled engine glob) (documented : engine.Documented inClass) {path : Str} (text : Utf8.Valid path) :
    (compiled.toPattern documented).compiled path = glob.isMatch engine path ∧ (compiled.toPattern documented).bound = glob.bound := by
  refine ⟨?_, compiled.bound_eq.symm⟩
  change (decide (Utf8.Valid path) && _) = _
  rw [decide_eq_true text, Bool.true_and]

/-- The text before a separator of the pattern matches a directory that its tokens match. -/
theorem Compiled.canMatch_of_before (compiled : Compiled engine glob) (documented : engine.Documented inClass) {directory : Str}
    (text : Utf8.Valid directory) {before after : List Char} {tokens : List Glob.Token}
    (split : Utf8.chars glob.normalized = before ++ '/' :: after) (parses : Glob.Parses true before tokens)
    (hit : Glob.Matches inClass tokens (Utf8.chars directory)) : glob.canMatchDescendant engine directory = true := by
  have normalized : glob.normalized = before.flatMap String.utf8EncodeChar ++ Byte.slash :: after.flatMap String.utf8EncodeChar := by
    rw [← Utf8.flatMap_chars compiled.utf8, split, List.flatMap_append]
    rfl
  have parsed : Glob.Parses true (Utf8.chars (before.flatMap String.utf8EncodeChar)) tokens := by rwa [Utf8.chars_flatMap]
  have utf8 : Utf8.Valid (before.flatMap String.utf8EncodeChar) := ⟨before, rfl⟩
  obtain ⟨pattern, new⟩ := (documented.accepts _ utf8).mpr ⟨tokens, parsed⟩
  have listed : pattern ∈ glob.directoryPrefixes engine := by
    refine List.mem_filterMap.mpr ⟨(before.flatMap String.utf8EncodeChar).length, ?_, ?_⟩
    · rw [List.mem_findIdxs_iff_exists_getElem_pos]
      exact ⟨by simp [normalized], by simp [normalized]⟩
    · rw [normalized, List.take_left, new]
      rfl
  have matched := (documented.matching _ _ directory matchOptions utf8 text new rfl rfl rfl).mpr ⟨tokens, parsed, hit⟩
  unfold canMatchDescendant
  split_ifs
  · rfl
  · rw [Bool.or_eq_true]
    exact Or.inl (List.any_eq_true.mpr ⟨pattern, listed, matched⟩)

/-- A pattern that ends with `**` and matches a directory matches below it. -/
theorem Compiled.canMatch_of_last (compiled : Compiled engine glob) (documented : engine.Documented inClass) {directory : Str}
    (text : Utf8.Valid directory) {before : List Char} {tokens : List Glob.Token}
    (split : Utf8.chars glob.normalized = before ++ ['*', '*']) (opens : before = [] ∨ before.getLast? = some '/')
    (parses : Glob.Parses true (Utf8.chars glob.normalized) tokens)
    (hit : Glob.Matches inClass tokens (Utf8.chars directory)) : glob.canMatchDescendant engine directory = true := by
  have normalized : glob.normalized = before.flatMap String.utf8EncodeChar ++ ascii "**" := by
    rw [← Utf8.flatMap_chars compiled.utf8, split, List.flatMap_append]
    rfl
  have final : (glob.normalized.splitOn Byte.slash).getLast? = some (ascii "**") := by
    rcases opens with rfl | opens
    · rw [normalized]
      rfl
    · obtain ⟨earlier, rfl⟩ := List.getLast?_eq_some_iff.mp opens
      rw [normalized, List.flatMap_append, List.append_assoc]
      change ((earlier.flatMap String.utf8EncodeChar ++ Byte.slash :: ascii "**").splitOn Byte.slash).getLast? = _
      rw [List.splitOn_append_cons_self, List.getLast?_append]
      rfl
  unfold canMatchDescendant
  split_ifs
  · rfl
  · rw [final, decide_eq_true rfl, (compiled.isMatch_iff documented text).mpr ⟨tokens, parses, hit⟩, Bool.and_self, Bool.or_true]

end GatGlobPatternInner

/-- For every pattern that the parser accepts and every path that it matches, the path lies within the bound of the pattern, and
the directory test passes the root and every directory above the path. -/
theorem glob_pruning_keeps_matches (documented : engine.Documented inClass) (valid : Utf8.Valid raw)
    (parsed : GatGlobPatternInner.parse engine raw = .ok glob) {path : GatPath} (hit : glob.isMatch engine path.text = true) :
    glob.bound.Admits path.text ∧ glob.canMatchDescendant engine [] = true ∧
      ∀ directory, IsAncestor Byte.slash directory path.text → glob.canMatchDescendant engine directory = true := by
  have compiled := GatGlobPatternInner.compiled_of_parse valid parsed
  obtain ⟨tokens, parses, covered⟩ := (compiled.isMatch_iff documented path.utf8).mp hit
  refine ⟨?_, rfl, ?_⟩
  · rw [compiled.bound_eq]
    exact globBound_admits compiled.utf8 path.utf8 parses covered
  · rintro directory ⟨below, whole⟩
    rw [List.append_assoc, List.singleton_append] at whole
    obtain ⟨text, rest⟩ := Utf8.Valid.split_ascii (by decide) (whole ▸ path.utf8)
    have letters : Utf8.chars path.text = Utf8.chars directory ++ '/' :: Utf8.chars below := by
      rw [← whole, Utf8.chars_append text (rest.cons_ascii (by decide)), chars_slash rest]
    rcases parses.covers (letters ▸ covered) with ⟨before, after, first, split, parsed, above⟩ | ⟨before, split, opens, above⟩
    · exact compiled.canMatch_of_before documented text split parsed above
    · exact compiled.canMatch_of_last documented text split (opens.imp_left And.left) parses above

end Pruning

/-! ## An engine -/

/-- The engine that parses a pattern into tokens and matches along them. -/
def tokenEngine : GlobEngine (List Glob.Token) Unit where
  new text := ((Glob.tokenize (Utf8.chars text).length true (Utf8.chars text)).map Except.ok).getD (.error ())
  matchesWith tokens path _ := Glob.accepts Glob.inLetters tokens (Utf8.chars path)

theorem tokenEngine_new_iff {text : Str} {tokens : List Glob.Token} :
    tokenEngine.new text = .ok tokens ↔ Glob.Parses true (Utf8.chars text) tokens := by
  rw [← Glob.tokenize_eq_some_iff le_rfl, tokenEngine]
  dsimp only
  cases Glob.tokenize (Utf8.chars text).length true (Utf8.chars text) with
  | none => exact iff_of_false nofun nofun
  | some parsed => exact ⟨fun same => congrArg some (Except.ok.inj same), fun same => congrArg Except.ok (Option.some.inj same)⟩

theorem tokenEngine_documented : tokenEngine.Documented Glob.inLetters where
  accepts text _ := exists_congr fun _ => tokenEngine_new_iff
  matching text pattern path options _ _ new _ _ _ := by
    have parses := tokenEngine_new_iff.mp new
    change Glob.accepts Glob.inLetters pattern (Utf8.chars path) = true ↔ _
    rw [Glob.accepts_iff]
    constructor
    · intro hit
      exact ⟨pattern, parses, hit⟩
    · rintro ⟨tokens, parsed, hit⟩
      have same : tokens = pattern := Except.ok.inj ((tokenEngine_new_iff.mpr parsed).symm.trans new)
      exact same ▸ hit

theorem chars_ascii {literal : String} (encoded : literal.toList.flatMap String.utf8EncodeChar = ascii literal) :
    Utf8.chars (ascii literal) = literal.toList := by
  rw [← encoded, Utf8.chars_flatMap]

/-- A pattern with a class and a recursive component passes the directories above its match. -/
theorem glob_pruning_keeps_matches_class :
    ∃ glob : GatGlobPatternInner (List Glob.Token), GatGlobPatternInner.parse tokenEngine (ascii "d[ab]//**/*.bin") = .ok glob ∧
      glob.bound.Admits (ascii "da/x/y.bin") ∧ glob.canMatchDescendant tokenEngine (ascii "da/x") = true := by
  obtain ⟨path, isPath⟩ : ∃ path : GatPath, path.text = ascii "da/x/y.bin" :=
    ⟨⟨ascii "da/x/y.bin", Utf8.Valid.of_ascii (Utf8.forall_mem_of_all (by decide)), rfl⟩, rfl⟩
  have valid : Utf8.Valid (ascii "d[ab]//**/*.bin") := Utf8.Valid.of_ascii (Utf8.forall_mem_of_all (by decide))
  have pattern : Utf8.chars (ascii "d[ab]/**/*.bin") = "d[ab]/**/*.bin".toList := chars_ascii (by decide)
  obtain ⟨tokens, isTokens⟩ : ∃ tokens, tokens = (Glob.tokenize 14 true "d[ab]/**/*.bin".toList).getD [] := ⟨_, rfl⟩
  have new : tokenEngine.new (ascii "d[ab]/**/*.bin") = .ok tokens := by
    have enough : "d[ab]/**/*.bin".toList.length ≤ 14 := by decide
    rw [tokenEngine_new_iff, pattern, ← Glob.tokenize_eq_some_iff enough, isTokens]
    decide
  have parsed : GatGlobPatternInner.parse tokenEngine (ascii "d[ab]//**/*.bin") = .ok ⟨ascii "d[ab]/**/*.bin", some 1, tokens⟩ := by
    change GatGlobPatternInner.fromNormalized tokenEngine (ascii "d[ab]/**/*.bin") (some 1) = _
    rw [GatGlobPatternInner.fromNormalized, new]
  have hit : GatGlobPatternInner.isMatch tokenEngine ⟨ascii "d[ab]/**/*.bin", some 1, tokens⟩ path.text = true := by
    change Glob.accepts Glob.inLetters tokens (Utf8.chars path.text) = true
    rw [isPath, chars_ascii (by decide), isTokens]
    decide
  obtain ⟨admits, -, above⟩ := glob_pruning_keeps_matches tokenEngine_documented valid parsed hit
  rw [isPath] at admits above
  exact ⟨_, parsed, admits, above _ ⟨ascii "y.bin", by decide⟩⟩

end Gat
