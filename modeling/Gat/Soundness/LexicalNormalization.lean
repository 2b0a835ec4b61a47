import Gat.Model.LexicalScan
import Gat.Model.Selection
import Gat.Proofs.LockCodec

/-! # Normalization gives exactly the canonical paths

The scan hands every component between separators to one step, whatever their number. The step keeps the copied
components joined by single separators and the first metacharacter where it lands, so normalized text is canonical, and
canonical text has nothing to drop.
-/

namespace Gat

open LockFormat

namespace LexicalScan

variable {display : Str} {track : Bool} {state : NormalizedGlobPattern}

/-! ## The scan as a fold over components -/

/-- The metacharacter that is pending at the end of a component. -/
def pendingOf (track : Bool) (state : NormalizedGlobPattern) (component : Str) : Option ℕ :=
  if track ∧ state.firstMeta = none then component.findIdx? isGlobMeta else none

/-- One component, scanned and copied. -/
def pushScanned (display : Str) (track : Bool) (state : NormalizedGlobPattern) (component : Str) : Outcome LexicalPathError NormalizedGlobPattern :=
  pushComponent component display (pendingOf track state component) state

theorem pendingOf_nil : pendingOf track state [] = none := by
  unfold pendingOf
  split_ifs <;> rfl

/-- One more byte makes a metacharacter pending when none is yet. -/
theorem pendingOf_concat (component : Str) (byte : UInt8) :
    pendingOf track state (component ++ [byte]) =
      if isGlobMeta byte ∧ track ∧ state.firstMeta = none ∧ pendingOf track state component = none then some component.length
      else pendingOf track state component := by
  unfold pendingOf
  by_cases tracked : track ∧ state.firstMeta = none
  · simp only [if_pos tracked, List.findIdx?_append, List.findIdx?_singleton]
    cases found : component.findIdx? isGlobMeta with
    | some index => simp
    | none => by_cases isMeta : isGlobMeta byte <;> simp [isMeta, tracked]
  · simp only [if_neg tracked]
    rw [if_neg]
    rintro ⟨-, isTracked, none, -⟩
    exact tracked ⟨isTracked, none⟩

theorem isAscii_of_isSeparator {byte : UInt8} (separator : isSeparator byte = true) : Utf8.IsAscii byte := by
  simp only [isSeparator, Bool.or_eq_true, decide_eq_true_eq] at separator
  rcases separator with rfl | rfl <;> decide

theorem scan_eq {before component rest : Str} (valid : Utf8.Valid (component ++ rest)) (plain : ∀ byte ∈ component, isSeparator byte = false) :
    scan (before ++ (component ++ rest)) display track before.length (pendingOf track state component) state rest
        (before.length + component.length) =
      ((component ++ rest).splitOnP isSeparator).foldlM (pushScanned display track) state := by
  induction rest generalizing before component state with
  | nil =>
    rw [List.append_nil] at valid
    rw [scan, List.append_nil, Str.Spans.sliceFrom_eq valid, Outcome.ok_bind, List.splitOnP_eq_singleton plain, List.foldlM_cons]
    change pushScanned display track state component = _
    cases pushScanned display track state component <;> rfl
  | cons byte rest ih =>
    rw [scan]
    by_cases separator : isSeparator byte = true
    · have ascii := isAscii_of_isSeparator separator
      obtain ⟨-, restValid⟩ := Utf8.Valid.split_ascii ascii valid
      have spans : Str.Spans (before ++ (component ++ byte :: rest)) before.length component := by
        refine ⟨before, byte :: rest, rfl, rfl, Utf8.isBoundary_append valid, ?_⟩
        rw [← List.append_assoc, ← List.length_append]
        exact Utf8.isBoundary_before_ascii ascii
      rw [if_pos separator, spans.slice_eq, Outcome.ok_bind, List.splitOnP_append_cons_of_forall_mem plain byte separator, List.foldlM_cons]
      refine congrArg (pushScanned display track state component >>= ·) (funext fun next => ?_)
      have nothing : ∀ byte ∈ ([] : Str), isSeparator byte = false := nofun
      have later := @ih next (before ++ component ++ [byte]) [] restValid nothing
      simpa only [pendingOf_nil, List.nil_append, List.append_assoc, List.singleton_append, List.length_append, List.length_cons,
        List.length_nil, Nat.add_zero, Nat.zero_add, Nat.add_assoc] using later
    · have further : ∀ letter ∈ component ++ [byte], isSeparator letter = false := by
        simpa [or_imp, forall_and] using ⟨plain, Bool.eq_false_iff.mpr separator⟩
      have later := @ih state before (component ++ [byte]) (by simpa using valid) further
      rw [pendingOf_concat, List.append_assoc, List.singleton_append, List.length_append, List.length_singleton, ← Nat.add_assoc] at later
      rw [if_neg separator, ← later, Nat.add_sub_cancel_left]
      split_ifs <;> rfl

theorem normalizeLexical_eq {raw : Str} (valid : Utf8.Valid raw) :
    normalizeLexical raw display track =
      if raw.head?.any isSeparator then Outcome.fail (.notRelative display)
      else (raw.splitOnP isSeparator).foldlM (pushScanned display track) ⟨[], none⟩ := by
  have whole := @scan_eq display track ⟨[], none⟩ [] [] raw valid nofun
  rw [pendingOf_nil] at whole
  exact congrArg _ whole

/-! ## What the fold collects -/

/-- A component that is dropped. -/
def dropped (component : Str) : Bool := component = [] || component = ascii "."

/-- The state after the passed components: what was copied, joined by separators, and its first metacharacter. -/
structure Joined (track : Bool) (copied : List Str) (state : NormalizedGlobPattern) : Prop where
  pattern : state.pattern = [Byte.slash].intercalate copied
  nonempty : ∀ component ∈ copied, component ≠ []
  firstMeta : state.firstMeta = if track then firstMetaIndex state.pattern else none

theorem joined_nil : Joined track [] ⟨[], none⟩ where
  pattern := rfl
  nonempty := nofun
  firstMeta := by split_ifs <;> rfl

theorem intercalate_concat {copied : List Str} (some : copied ≠ []) (component : Str) :
    [Byte.slash].intercalate (copied ++ [component]) = [Byte.slash].intercalate copied ++ [Byte.slash] ++ component := by
  induction copied with
  | nil => exact absurd rfl some
  | cons first copied ih =>
    cases copied with
    | nil => simp [List.intercalate_cons_cons]
    | cons second copied =>
      simp only [List.cons_append, List.intercalate_cons_cons] at ih ⊢
      rw [ih (List.cons_ne_nil _ _)]
      simp only [List.append_assoc]

theorem intercalate_eq_nil_iff {copied : List Str} (nonempty : ∀ component ∈ copied, component ≠ []) :
    [Byte.slash].intercalate copied = [] ↔ copied = [] := by
  refine ⟨fun empty => ?_, fun none => by rw [none]; rfl⟩
  cases copied with
  | nil => rfl
  | cons first copied =>
    rw [List.forall_mem_cons] at nonempty
    cases copied with
    | nil => exact absurd (by simpa using empty) nonempty.1
    | cons second copied => simp [List.intercalate_cons_cons] at empty

theorem Joined.push {copied : List Str} (joined : Joined track copied state) {component : Str} (kept : dropped component = false)
    (inside : component ≠ ascii "..") :
    ∃ next, pushScanned display track state component = .ok next ∧ Joined track (copied ++ [component]) next := by
  have ordinary : ¬(component = [] ∨ component = ascii ".") := by simpa [dropped] using kept
  obtain ⟨separated, isSeparated⟩ : ∃ separated, separated = if state.pattern = [] then [] else state.pattern ++ [Byte.slash] := ⟨_, rfl⟩
  have whole : separated ++ component = [Byte.slash].intercalate (copied ++ [component]) := by
    rw [isSeparated, joined.pattern]
    split_ifs with empty
    · rw [(intercalate_eq_nil_iff joined.nonempty).mp empty, List.nil_append, List.nil_append, List.intercalate_singleton]
    · rw [intercalate_concat fun none => empty ((intercalate_eq_nil_iff joined.nonempty).mpr none)]
  -- a separator is no metacharacter
  have metas : separated.findIdx? isGlobMeta = firstMetaIndex state.pattern := by
    rw [isSeparated]
    split_ifs with none
    · rw [none]
      rfl
    · rw [List.findIdx?_append]
      exact Option.or_none
  refine ⟨⟨separated ++ component, state.firstMeta <|> (pendingOf track state component).map (separated.length + ·)⟩, ?_, ?_⟩
  · rw [pushScanned, pushComponent, if_neg ordinary, if_neg inside, isSeparated]
  · refine ⟨whole, fun other member => ?_, ?_⟩
    · rcases List.mem_append.mp member with earlier | same
      · exact joined.nonempty other earlier
      · rw [List.mem_singleton.mp same]
        exact fun none => ordinary (Or.inl none)
    · have split : firstMetaIndex (separated ++ component) =
          (firstMetaIndex state.pattern).or ((component.findIdx? isGlobMeta).map (· + separated.length)) := by
        rw [← metas]
        exact List.findIdx?_append
      dsimp only
      rw [joined.firstMeta, pendingOf, joined.firstMeta, split]
      cases track with
      | false => rfl
      | true =>
        cases firstMetaIndex state.pattern with
        | some index => rfl
        | none => simp [Nat.add_comm]

theorem foldlM_pushScanned {components copied : List Str} (joined : Joined track copied state) :
    ascii ".." ∈ components ∧ components.foldlM (pushScanned display track) state = Outcome.fail (.parentTraversal display) ∨
      ascii ".." ∉ components ∧ ∃ final, components.foldlM (pushScanned display track) state = .ok final ∧
        Joined track (copied ++ components.filter fun component => !dropped component) final := by
  induction components generalizing copied state with
  | nil => exact Or.inr ⟨List.not_mem_nil, state, rfl, by simpa using joined⟩
  | cons component components ih =>
    rw [List.foldlM_cons]
    by_cases parent : component = ascii ".."
    · refine Or.inl ⟨parent ▸ List.mem_cons_self, ?_⟩
      have climbs : pushScanned display track state component = Outcome.fail (.parentTraversal display) := by
        rw [pushScanned, pushComponent, parent]
        rfl
      rw [climbs]
      rfl
    have here (others : List Str) : ascii ".." ∈ component :: others ↔ ascii ".." ∈ others := by
      rw [List.mem_cons, or_iff_right (Ne.symm parent)]
    rw [here, List.filter_cons]
    cases drops : dropped component with
    | true =>
      have skips : pushScanned display track state component = .ok state := by
        rw [pushScanned, pushComponent, if_pos (by simpa [dropped] using drops)]
      rw [skips]
      exact ih joined
    | false =>
      obtain ⟨next, pushed, joined⟩ := joined.push drops parent
      rw [pushed]
      have rest := ih joined
      rwa [List.append_assoc, List.singleton_append] at rest

/-- The components of a text are texts without separators. -/
theorem of_mem_splitOnP {component rest : Str} (valid : Utf8.Valid (component ++ rest)) (plain : ∀ byte ∈ component, isSeparator byte = false) :
    ∀ piece ∈ (component ++ rest).splitOnP isSeparator, Utf8.Valid piece ∧ ∀ byte ∈ piece, isSeparator byte = false := by
  induction rest generalizing component with
  | nil =>
    rw [List.append_nil] at valid ⊢
    rw [List.splitOnP_eq_singleton plain]
    exact fun piece member => List.mem_singleton.mp member ▸ ⟨valid, plain⟩
  | cons byte rest ih =>
    by_cases separator : isSeparator byte = true
    · obtain ⟨before, after⟩ := Utf8.Valid.split_ascii (isAscii_of_isSeparator separator) valid
      rw [List.splitOnP_append_cons_of_forall_mem plain byte separator]
      exact List.forall_mem_cons.mpr ⟨⟨before, plain⟩, @ih [] after nofun⟩
    · rw [List.append_cons] at valid ⊢
      exact ih valid (by simpa [or_imp, forall_and] using ⟨plain, Bool.eq_false_iff.mpr separator⟩)

theorem splitOnP_congr {α : Type} {first second : α → Bool} {items : List α} (same : ∀ item ∈ items, first item = second item) :
    items.splitOnP first = items.splitOnP second := by
  induction items with
  | nil => rfl
  | cons item items ih =>
    rw [List.forall_mem_cons] at same
    rw [List.splitOnP_cons_eq_if_modifyHead, List.splitOnP_cons_eq_if_modifyHead, same.1, ih same.2]

end LexicalScan

/-! ## Canonical paths -/

/-- The components of a text that normalization copies. -/
def copiedComponents (raw : Str) : List Str := (raw.splitOnP isSeparator).filter fun component => !LexicalScan.dropped component

theorem mem_copiedComponents {raw component : Str} (valid : Utf8.Valid raw) (member : component ∈ copiedComponents raw) :
    Utf8.Valid component ∧ component ≠ [] ∧ component ≠ ascii "." ∧ Byte.slash ∉ component ∧ Byte.backslash ∉ component := by
  obtain ⟨listed, kept⟩ := List.mem_filter.mp member
  obtain ⟨text, plain⟩ := @LexicalScan.of_mem_splitOnP [] raw valid nofun component listed
  simp only [LexicalScan.dropped, Bool.not_eq_true', Bool.or_eq_false_iff, decide_eq_false_iff_not] at kept
  exact ⟨text, kept.1, kept.2, fun slash => absurd (plain _ slash) (by decide), fun backslash => absurd (plain _ backslash) (by decide)⟩

/-- Joining texts gives a text. -/
theorem valid_intercalate {components : List Str} (valid : ∀ component ∈ components, Utf8.Valid component) :
    Utf8.Valid ([Byte.slash].intercalate components) := by
  induction components with
  | nil => exact Utf8.Valid.nil
  | cons first components ih =>
    rw [List.forall_mem_cons] at valid
    cases components with
    | nil => simpa using valid.1
    | cons second components =>
      rw [List.intercalate_cons_cons, List.append_assoc, List.singleton_append]
      exact valid.1.append (Utf8.Valid.cons_ascii (by decide) (ih valid.2))

/-- A path normalizes to its copied components, unless it is rooted, climbs or names the root. -/
theorem GatPath.normalize_cases {raw : Str} (valid : Utf8.Valid raw) :
    (∃ error, GatPath.normalize raw = Outcome.fail error) ∧
        (raw.head?.any isSeparator ∨ ascii ".." ∈ raw.splitOnP isSeparator ∨ copiedComponents raw = []) ∨
      ascii ".." ∉ raw.splitOnP isSeparator ∧ copiedComponents raw ≠ [] ∧
        GatPath.normalize raw = .ok ([Byte.slash].intercalate (copiedComponents raw)) := by
  unfold GatPath.normalize normalizeRelativeStr
  rw [LexicalScan.normalizeLexical_eq valid]
  split_ifs with rooted
  · exact Or.inl ⟨⟨_, rfl⟩, Or.inl rooted⟩
  rcases @LexicalScan.foldlM_pushScanned raw false _ (raw.splitOnP isSeparator) [] LexicalScan.joined_nil with ⟨parent, climbs⟩ | ⟨inside, final, done, joined⟩
  · rw [climbs]
    exact Or.inl ⟨⟨_, rfl⟩, Or.inr (Or.inl parent)⟩
  · rw [done]
    have pattern : final.pattern = [Byte.slash].intercalate (copiedComponents raw) := joined.pattern
    have empty_iff : final.pattern = [] ↔ copiedComponents raw = [] := by
      rw [pattern]
      exact LexicalScan.intercalate_eq_nil_iff joined.nonempty
    by_cases empty : final.pattern = []
    · refine Or.inl ⟨⟨.emptyPath raw, ?_⟩, Or.inr (Or.inr (empty_iff.mp empty))⟩
      simp only [Outcome.ok_bind, if_pos empty, Outcome.pure_eq_ok]
    · refine Or.inr ⟨inside, fun none => empty (empty_iff.mpr none), ?_⟩
      rw [← pattern]
      simp only [Outcome.ok_bind, if_neg empty, Outcome.pure_eq_ok]

theorem normalize_isCanonical {raw path : Str} (valid : Utf8.Valid raw) (normalized : GatPath.normalize raw = .ok path) :
    Utf8.Valid path ∧ IsCanonical path := by
  rcases GatPath.normalize_cases valid with ⟨⟨error, failed⟩, -⟩ | ⟨inside, some, done⟩
  · rw [failed] at normalized
    exact absurd normalized (Outcome.fail_ne_ok _ _)
  rw [done] at normalized
  cases normalized
  have copied {component : Str} (member : component ∈ copiedComponents raw) := mem_copiedComponents valid member
  refine ⟨valid_intercalate fun component member => (copied member).1, ?_, ?_⟩
  · exact fun empty => some ((LexicalScan.intercalate_eq_nil_iff fun component member => (copied member).2.1).mp empty)
  · rw [List.splitOn_intercalate _ (fun component member => (copied member).2.2.2.1) some]
    intro component member
    exact ⟨(copied member).2.1, (copied member).2.2.1, fun parent => inside (parent ▸ List.mem_of_mem_filter member), (copied member).2.2.2.2⟩

/-- Canonical text has nothing to drop. -/
theorem normalize_of_isCanonical {path : Str} (valid : Utf8.Valid path) (canonical : IsCanonical path) : GatPath.normalize path = .ok path := by
  have components : path.splitOnP isSeparator = path.splitOn Byte.slash := by
    refine LexicalScan.splitOnP_congr fun byte member => ?_
    have other : byte ≠ Byte.backslash := fun same => canonical.no_backslash (same ▸ member)
    simp [isSeparator, other, BEq.beq]
  have copied : copiedComponents path = path.splitOn Byte.slash := by
    rw [copiedComponents, components]
    refine List.filter_eq_self.mpr fun component member => ?_
    simp [LexicalScan.dropped, (canonical.2 component member).1, (canonical.2 component member).2.1]
  rcases GatPath.normalize_cases valid with ⟨-, rooted | parent | none⟩ | ⟨-, -, done⟩
  · have unrooted := validateCanonicalStr_eq_ok_iff.mpr canonical
    unfold validateCanonicalStr at unrooted
    split_ifs at unrooted with empty slash
    · simp at unrooted
    · simp at unrooted
    · rw [Option.any_eq_true] at rooted
      obtain ⟨byte, head, separator⟩ := rooted
      simp only [isSeparator, Bool.or_eq_true, decide_eq_true_eq] at separator
      rcases separator with rfl | rfl
      · exact absurd head slash
      · exact absurd (List.mem_of_mem_head? head) canonical.no_backslash
  · exact absurd rfl (canonical.2 _ (components ▸ parent)).2.2.1
  · exact absurd (copied ▸ none) (List.splitOn_ne_nil _ _)
  · rw [done, copied, List.intercalate_splitOn]

/-- Follow one component from a depth below a root; the root itself has no parent. -/
def descend (depth : ℕ) (component : Str) : Option ℕ :=
  if component = [] ∨ component = ascii "." then some depth
  else if component = ascii ".." then if depth = 0 then none else some (depth - 1)
  else some (depth + 1)

/-- Ordinary components only descend. -/
theorem foldlM_descend {components : List Str} (ordinary : ∀ component ∈ components, component ≠ [] ∧ component ≠ ascii "." ∧ component ≠ ascii "..")
    (depth : ℕ) : components.foldlM descend depth = some (depth + components.length) := by
  induction components generalizing depth with
  | nil => rfl
  | cons component components ih =>
    rw [List.forall_mem_cons] at ordinary
    have down : descend depth component = some (depth + 1) := by
      rw [descend, if_neg (not_or.mpr ⟨ordinary.1.1, ordinary.1.2.1⟩), if_neg ordinary.1.2.2]
    rw [List.foldlM_cons, down, Option.bind_eq_bind, Option.bind_some, ih ordinary.2, List.length_cons]
    congr 1
    omega

/-- A normalized glob pattern is text with the offset of its first metacharacter. -/
theorem normalizeGlobPatternWithMeta_ok {raw : Str} (valid : Utf8.Valid raw) {pattern : NormalizedGlobPattern}
    (normalized : normalizeGlobPatternWithMeta raw = .ok pattern) :
    Utf8.Valid pattern.pattern ∧ pattern.firstMeta = firstMetaIndex pattern.pattern := by
  unfold normalizeGlobPatternWithMeta at normalized
  rw [LexicalScan.normalizeLexical_eq valid] at normalized
  split_ifs at normalized with rooted
  · exact absurd normalized (Outcome.fail_ne_ok _ _)
  rcases @LexicalScan.foldlM_pushScanned raw true _ (raw.splitOnP isSeparator) [] LexicalScan.joined_nil with ⟨-, climbs⟩ | ⟨-, final, done, joined⟩
  · rw [climbs] at normalized
    exact absurd normalized (Outcome.fail_ne_ok _ _)
  · rw [done] at normalized
    cases normalized
    refine ⟨?_, joined.firstMeta⟩
    rw [joined.pattern]
    exact valid_intercalate fun component member => (mem_copiedComponents valid member).1

/-- For every text, normalizing a path fails or gives canonical text, and canonical text is exactly what normalizes to itself. So
normalization is idempotent, and its results are nonempty, not rooted, free of backslashes and of empty, `.` and `..` components, and stay
below the root. For a glob pattern the reported offset is that of the first metacharacter of the normalized text. -/
theorem normalization_agrees_with_validation {raw : Str} (valid : Utf8.Valid raw) :
    ((∃ error, GatPath.normalize raw = Outcome.fail error) ∨ ∃ path, GatPath.normalize raw = .ok path ∧ validateCanonicalStr path = .ok ()) ∧
      (validateCanonicalStr raw = .ok () ↔ GatPath.normalize raw = .ok raw) ∧
      (∀ path, GatPath.normalize raw = .ok path → GatPath.normalize path = .ok path ∧ path ≠ [] ∧ path.head? ≠ some Byte.slash ∧
        Byte.backslash ∉ path ∧ (∀ component ∈ path.splitOn Byte.slash, component ≠ [] ∧ component ≠ ascii "." ∧ component ≠ ascii "..") ∧
        (path.splitOn Byte.slash).foldlM descend 0 = some (path.splitOn Byte.slash).length) ∧
      ∀ pattern, normalizeGlobPatternWithMeta raw = .ok pattern → pattern.firstMeta = firstMetaIndex pattern.pattern := by
  refine ⟨?_, ?_, fun path normalized => ?_, fun pattern normalized => ?_⟩
  · rcases GatPath.normalize_cases valid with ⟨failed, -⟩ | ⟨-, -, done⟩
    · exact Or.inl failed
    · exact Or.inr ⟨_, done, validateCanonicalStr_eq_ok_iff.mpr (normalize_isCanonical valid done).2⟩
  · rw [validateCanonicalStr_eq_ok_iff]
    exact ⟨normalize_of_isCanonical valid, fun same => (normalize_isCanonical valid same).2⟩
  · obtain ⟨text, canonical⟩ := normalize_isCanonical valid normalized
    have ordinary : ∀ component ∈ path.splitOn Byte.slash, component ≠ [] ∧ component ≠ ascii "." ∧ component ≠ ascii ".." :=
      fun component member => ⟨(canonical.2 component member).1, (canonical.2 component member).2.1, (canonical.2 component member).2.2.1⟩
    refine ⟨normalize_of_isCanonical text canonical, canonical.1, fun rooted => ?_, canonical.no_backslash, ordinary, ?_⟩
    · have strict := validateCanonicalStr_eq_ok_iff.mpr canonical
      rw [validateCanonicalStr, if_neg canonical.1, if_pos rooted] at strict
      exact Outcome.fail_ne_ok _ _ strict
    · rw [foldlM_descend ordinary, Nat.zero_add]
  · exact (normalizeGlobPatternWithMeta_ok valid normalized).2

/-- A pattern with both separators keeps its metacharacter in the last component. -/
theorem normalization_agrees_with_validation_pattern :
    normalizeGlobPatternWithMeta (ascii ".\\data//*.bin") = .ok ⟨ascii "data/*.bin", some 5⟩ ∧ some 5 = firstMetaIndex (ascii "data/*.bin") := by
  have valid : Utf8.Valid (ascii ".\\data//*.bin") := Utf8.Valid.of_ascii (Utf8.forall_mem_of_all (by decide))
  have normalized : normalizeGlobPatternWithMeta (ascii ".\\data//*.bin") = .ok ⟨ascii "data/*.bin", some 5⟩ := rfl
  exact ⟨normalized, (normalization_agrees_with_validation valid).2.2.2 _ normalized⟩

end Gat
