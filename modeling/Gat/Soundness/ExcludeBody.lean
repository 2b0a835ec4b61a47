import Gat.Proofs.StateStore
import Gat.Soundness.ExcludeRules
import Gat.Soundness.ManagedBlock
import Mathlib.Data.List.Destutter

/-! # The managed exclusions are faithful to the lock

Every source yields the tracked paths that are not covered, once and in order. The lines of the body are the configured
patterns, one rule for each of these paths, and a comment for a path that no line can hold. None of them is a marker, and
they are the same lines under either convention for line ends.
-/

open List

namespace Gat

open AncestorFree

/-- The lines of a file without their terminators. -/
def fileLines (text : Str) : List Str := (text.splitInclusive Byte.lineFeed).map stripTerminator

def patternLine (pattern : GitIgnorePattern) : Str :=
  (if pattern.text = BEGIN ∨ pattern.text = END then ascii "# " else []) ++ pattern.text

section Lines

variable (printable : Char → Bool)

def commentLine (path : Str) : Str := ascii "# No exact Git exclusion for LF path: " ++ debugStr printable path

def pathLine (path : GatPath) : Str := if Byte.lineFeed ∈ path.text then commentLine printable path.text else exactRule path.text

/-- The lines for patterns and for paths that no pattern covers. -/
def bodyLines (patterns : List GitIgnorePattern) (paths : List GatPath) : List Str := patterns.map patternLine ++ paths.map (pathLine printable)

end Lines

/-! ## Single lines -/

section Single

variable {printable : Char → Bool}

theorem singleLine_patternLine (pattern : GitIgnorePattern) : SingleLine (patternLine pattern) := by
  obtain ⟨noReturn, noFeed⟩ := pattern.singleLine
  have free {byte : UInt8} (absent : byte ∉ pattern.text) (other : byte ∉ ascii "# ") : byte ∉ patternLine pattern := by
    unfold patternLine
    split_ifs
    · exact fun member => (mem_append.mp member).elim other absent
    · exact absent
  exact ⟨free noFeed (by decide), fun last => free noReturn (by decide) (mem_of_getLast? last)⟩

theorem singleLine_exactRule {path : GatPath} (free : Byte.lineFeed ∉ path.text) : SingleLine (exactRule path.text) := by
  obtain ⟨spelled, rule, spells⟩ := exactRule_spells path
  have whole := spells.plain_separator
  rw [← rule] at whole
  refine ⟨fun member => ?_, whole.getLast?_ne_carriage⟩
  rcases mem_append.mp (whole.subset member) with inside | escapes
  · exact (mem_cons.mp inside).elim (by decide) free
  · exact absurd escapes (by decide)

theorem lineFeed_notMem_escapeDebug (char : Char) : Byte.lineFeed ∉ escapeDebug printable char := by
  have hex (digit : ℕ) (small : digit < 16) : hexDigit (UInt8.ofNat digit) ≠ Byte.lineFeed := by
    revert digit
    decide
  unfold escapeDebug
  split_ifs with null tab returned feed backslash quote shown
  iterate 6 decide
  · intro member
    rcases Utf8.encodeChar_cases char with ⟨byte, -, rfl, encoded⟩ | high
    · rw [encoded, mem_singleton] at member
      subst member
      exact absurd rfl feed
    · exact high _ member (by decide)
  · intro member
    rcases mem_append.mp member with member | close
    · rcases mem_append.mp member with open' | digits
      · exact absurd open' (by decide)
      · obtain ⟨digit, listed, same⟩ := mem_map.mp digits
        exact hex digit (Nat.digits_lt_base (by decide) (mem_reverse.mp listed)) same
    · exact absurd close (by decide)

theorem singleLine_commentLine (path : Str) : SingleLine (commentLine printable path) where
  free := by
    intro member
    unfold commentLine debugStr at member
    simp only [mem_append, mem_flatMap] at member
    rcases member with frame | (open' | ⟨char, -, escaped⟩) | close
    · exact absurd frame (by decide)
    · exact absurd open' (by decide)
    · exact lineFeed_notMem_escapeDebug char escaped
    · exact absurd close (by decide)
  bare := by
    unfold commentLine debugStr
    rw [← append_assoc, show ascii "\"" = [0x22] from rfl, getLast?_concat]
    decide

end Single

/-! ## The lines of a body -/

section Body

variable {printable : Char → Bool} {patterns : List GitIgnorePattern} {paths : List GatPath}

theorem singleLine_bodyLines : ∀ line ∈ bodyLines printable patterns paths, SingleLine line := by
  refine forall_mem_append.mpr ⟨forall_mem_map.mpr fun pattern _ => singleLine_patternLine pattern, forall_mem_map.mpr fun path _ => ?_⟩
  unfold pathLine
  split_ifs with feed
  · exact singleLine_commentLine path.text
  · exact singleLine_exactRule feed

/-- Text of terminated lines. -/
def terminate (lines : List Str) (eol : Eol) : Str := (lines.map (· ++ eol.asStr)).flatten

theorem convert_terminate {lines : List Str} (single : ∀ line ∈ lines, SingleLine line) (eol : Eol) :
    eol.convert (terminate lines .lf) = terminate lines eol := by
  rw [terminate, Eol.convert_flatten, map_map, terminate]
  refine congrArg flatten (map_congr_left fun line member => ?_)
  exact Eol.convert_terminated eol (single line member).free

theorem splitInclusive_terminate {lines : List Str} (single : ∀ line ∈ lines, SingleLine line) (eol : Eol) :
    (terminate lines eol).splitInclusive Byte.lineFeed = lines.map (· ++ eol.asStr) := by
  have cut : Pieces Byte.lineFeed (lines.map (· ++ eol.asStr) ++ []) :=
    Pieces.append (forall_mem_map.mpr fun line member => (single line member).terminated eol) .nil
  rw [append_nil] at cut
  exact cut.splitInclusive_flatten

theorem fileLines_terminate {lines : List Str} (single : ∀ line ∈ lines, SingleLine line) (eol : Eol) : fileLines (terminate lines eol) = lines := by
  rw [fileLines, splitInclusive_terminate single, map_map]
  conv_rhs => rw [← map_id lines]
  exact map_congr_left fun line member => (single line member).stripTerminator eol

/-- Rendering writes one line for each pattern and each path. -/
theorem foldl_pushPath (paths : List GatPath) (start : ExcludeBody) :
    paths.foldl (fun body path => body.pushPath printable path.text) start =
      ⟨start.body ++ terminate (paths.map (pathLine printable)) .lf, start.count + (paths.filter fun path => Byte.lineFeed ∉ path.text).length⟩ := by
  induction paths generalizing start with
  | nil => simp [terminate]
  | cons path paths ih =>
    rw [foldl_cons, ih, ExcludeBody.pushPath]
    by_cases feed : Byte.lineFeed ∈ path.text
    · rw [if_pos feed, filter_cons_of_neg (by simpa using feed)]
      simp [terminate, pathLine, feed, commentLine, Eol.asStr]
    · rw [if_neg feed, filter_cons_of_pos (by simpa using feed), appendExactExcludePattern_eq]
      simp [terminate, pathLine, feed, Eol.asStr, Nat.add_assoc, Nat.add_comm 1]

theorem new_eq (patterns : List GitIgnorePattern) : ExcludeBody.new patterns = ⟨terminate (patterns.map patternLine) .lf, patterns.length⟩ := by
  have fold (start : ExcludeBody) : patterns.foldl (fun result pattern =>
      ⟨result.body ++ (if pattern.text = BEGIN ∨ pattern.text = END then ascii "# " else []) ++ pattern.text ++ [Byte.lineFeed], result.count + 1⟩) start =
      (⟨start.body ++ terminate (patterns.map patternLine) .lf, start.count + patterns.length⟩ : ExcludeBody) := by
    induction patterns generalizing start with
    | nil => simp [terminate]
    | cons pattern patterns ih =>
      rw [foldl_cons, ih]
      simp [terminate, patternLine, Eol.asStr, Nat.add_assoc, Nat.add_comm 1]
  rw [ExcludeBody.new, fold]
  simp

/-- The body for paths that no pattern covers. -/
def renderPaths (printable : Char → Bool) (patterns : List GitIgnorePattern) (paths : List GatPath) : ExcludeBody :=
  paths.foldl (fun body path => body.pushPath printable path.text) (ExcludeBody.new patterns)

theorem renderPaths_eq : renderPaths printable patterns paths =
    ⟨terminate (bodyLines printable patterns paths) .lf, patterns.length + (paths.filter fun path => Byte.lineFeed ∉ path.text).length⟩ := by
  rw [renderPaths, new_eq, foldl_pushPath, bodyLines, terminate, terminate, terminate, map_append, flatten_append]

theorem patternLine_ne_marker (pattern : GitIgnorePattern) : patternLine pattern ≠ BEGIN ∧ patternLine pattern ≠ END := by
  unfold patternLine
  split_ifs with marker
  · rcases marker with same | same <;> rw [same] <;> decide
  · exact not_or.mp marker

theorem head?_exactRule (path : Str) : (exactRule path).head? = some Byte.slash := rfl

theorem head?_commentLine (path : Str) : (commentLine printable path).head? = some GitIgnore.comment := rfl

theorem pathLine_ne_marker (path : GatPath) : pathLine printable path ≠ BEGIN ∧ pathLine printable path ≠ END := by
  unfold pathLine
  split_ifs
  · have third : (commentLine printable path.text).take 3 = ascii "# N" := rfl
    constructor <;> intro same <;> rw [same] at third <;> exact absurd third (by decide)
  · constructor <;> intro same <;> exact absurd (same ▸ head?_exactRule path.text) (by decide)

theorem blockBody_renderPaths : BlockBody BEGIN END (renderPaths printable patterns paths).body := by
  have single : ∀ line ∈ bodyLines printable patterns paths, SingleLine line := singleLine_bodyLines
  rw [renderPaths_eq]
  refine ⟨closed_of_terminated (forall_mem_map.mpr fun line member => (single line member).terminated .lf), fun line member => ?_⟩
  rw [splitInclusive_terminate single] at member
  obtain ⟨line, listed, rfl⟩ := mem_map.mp member
  rw [(single line listed).stripTerminator]
  rcases mem_append.mp listed with member | member
  · obtain ⟨pattern, -, rfl⟩ := mem_map.mp member
    exact patternLine_ne_marker pattern
  · obtain ⟨path, -, rfl⟩ := mem_map.mp member
    exact pathLine_ne_marker path

/-- A line for a pattern ignores what the pattern ignores. -/
theorem patternLine_ignores {pattern : GitIgnorePattern} {path : Str} (ignores : GitIgnore.Ignores pattern.text path) :
    GitIgnore.Ignores (patternLine pattern) path := by
  unfold patternLine
  split_ifs with marker
  · obtain ⟨rule, parsed, -⟩ := ignores
    have comments : pattern.text.head? = some GitIgnore.comment := by rcases marker with same | same <;> rw [same] <;> rfl
    rw [GitIgnore.parse_of_comment comments] at parsed
    cases parsed
  · exact ignores

/-- Only the line of a path is its rule. -/
theorem pathLine_eq_exactRule_iff {path other : GatPath} (free : Byte.lineFeed ∉ path.text) :
    pathLine printable other = exactRule path.text ↔ other = path := by
  constructor
  · intro same
    unfold pathLine at same
    split_ifs at same
    · have head : (commentLine printable other.text).head? = some GitIgnore.comment := head?_commentLine other.text
      rw [same, head?_exactRule] at head
      exact absurd head (by decide)
    · exact exactRule_inj same
  · rintro rfl
    exact if_neg free

/-- A path that no pattern covers has one rule. -/
theorem count_exactRule {path : GatPath} (distinct : paths.Nodup) (member : path ∈ paths) (free : Byte.lineFeed ∉ path.text)
    (uncovered : ¬Covered patterns path) : (bodyLines printable patterns paths).count (exactRule path.text) = 1 := by
  have absent : exactRule path.text ∉ patterns.map patternLine := by
    intro listed
    obtain ⟨pattern, configured, same⟩ := mem_map.mp listed
    unfold patternLine at same
    split_ifs at same
    · have head : (exactRule path.text).head? = some GitIgnore.comment := by rw [← same]; rfl
      exact absurd (head.symm.trans (head?_exactRule path.text)) (by decide)
    · refine uncovered ⟨pattern, configured, ?_⟩
      rw [nil_append] at same
      exact same ▸ (exactRule_ignores_iff path path.text).mpr (.inl rfl)
  have once : (paths.map (pathLine printable)).count (exactRule path.text) = paths.count path := by
    rw [count, countP_map, count]
    refine countP_congr fun other _ => ?_
    rw [Function.comp_apply, beq_iff_eq, beq_iff_eq, pathLine_eq_exactRule_iff free]
  rw [bodyLines, count_append, count_eq_zero_of_not_mem absent, once, count_eq_one_of_mem distinct member]

end Body

/-! ## Three sources -/

/-- The paths that a session takes for tracked. -/
def DesiredMutationSession.Tracks (session : DesiredMutationSession) (path : GatPath) : Prop :=
  match session.fullLock with
  | some lock => path ∈ lock.entries.map Entry.path
  | none => (session.store.desiredAt path).isSome

section Sources

/-- A sorted list without repetitions is ascending. -/
theorem destutter_of_sorted {α : Type} [LinearOrder α] [DecidableEq α] {list : List α} (sorted : list.Pairwise (· ≤ ·)) :
    (list.destutter (· ≠ ·)).Pairwise (· < ·) ∧ ∀ item, item ∈ list.destutter (· ≠ ·) ↔ item ∈ list := by
  rw [sorted.destutter_eq_dedup]
  refine ⟨?_, fun item => mem_dedup⟩
  have ordered := sorted.sublist (dedup_sublist list)
  exact (ordered.and (nodup_dedup list)).imp fun ⟨least, different⟩ => lt_of_le_of_ne least different

variable {search : IgnoreSearch} (documented : search.Documented) (printable : Char → Bool) {patterns : List GitIgnorePattern}
  {tracked : GatPath → Prop} {paths : List GatPath} (ascending : paths.Pairwise (· < ·))
  (listed : ∀ path, path ∈ paths ↔ tracked path ∧ ¬Covered patterns path)

include documented ascending listed

theorem bodyFromLock_eq {lock : Lock} (entries : ∀ path, path ∈ lock.entries.map Entry.path ↔ tracked path) :
    bodyFromLock search printable patterns lock = renderPaths printable patterns paths := by
  obtain ⟨plan, isPlan⟩ : ∃ plan, plan = IgnoreCoveragePlan.ofPatterns search patterns := ⟨_, rfl⟩
  obtain ⟨exact', isExact⟩ : ∃ exact', exact' = (lock.entries.filter fun entry => !plan.covers entry.path).map fun entry => entry.path.text := ⟨_, rfl⟩
  obtain ⟨sorted, isSorted⟩ : ∃ sorted, sorted = if exact'.Pairwise (· ≤ ·) then exact' else exact'.mergeSort := ⟨_, rfl⟩
  have inOrder : sorted.Pairwise (· ≤ ·) ∧ ∀ text, text ∈ sorted ↔ text ∈ exact' := by
    rw [isSorted]
    split_ifs with already
    · exact ⟨already, fun text => Iff.rfl⟩
    · exact ⟨pairwise_mergeSort' _ _, fun text => mem_mergeSort⟩
  have members (text : Str) : text ∈ exact' ↔ text ∈ paths.map GatPath.text := by
    simp only [isExact, mem_map, mem_filter, Bool.not_eq_true', ← Bool.not_eq_true, isPlan, covers_iff documented, listed, ← entries]
    constructor
    · rintro ⟨entry, ⟨member, uncovered⟩, rfl⟩
      exact ⟨entry.path, ⟨⟨entry, member, rfl⟩, uncovered⟩, rfl⟩
    · rintro ⟨path, ⟨⟨entry, member, rfl⟩, uncovered⟩, rfl⟩
      exact ⟨entry, ⟨member, uncovered⟩, rfl⟩
  obtain ⟨distinct, same⟩ := destutter_of_sorted inOrder.1
  have texts : sorted.destutter (· ≠ ·) = paths.map GatPath.text := by
    refine distinct.eq_of_mem_iff (pairwise_map.mpr ascending) fun text => ?_
    rw [same, inOrder.2, members]
  unfold bodyFromLock renderExact
  dsimp only
  rw [← isPlan, ← isExact, ← isSorted, texts, foldl_map]
  rfl

variable {ε : Type}

omit documented ascending listed in
/-- A visit renders the paths that the residual patterns leave. -/
theorem foldlM_residual (plan : IgnoreCoveragePlan) (visited : List GatPath) (start : ExcludeBody) :
    (visited.foldlM (fun body path => .ok (if plan.residualMatches path then body else body.pushPath printable path.text)) start : Except ε ExcludeBody) =
      .ok ((visited.filter fun path => !plan.residualMatches path).foldl (fun body path => body.pushPath printable path.text) start) := by
  induction visited generalizing start with
  | nil => rfl
  | cons path visited ih =>
    rw [foldlM_cons]
    refine (ih _).trans ?_
    cases hit : plan.residualMatches path with
    | false => rw [filter_cons_of_pos (by rw [hit]; rfl), foldl_cons, if_neg Bool.false_ne_true]
    | true => rw [filter_cons_of_neg (by rw [hit]; decide), if_pos rfl]

/-- The residual patterns take out the rest of what the plan covers. -/
theorem bodyFromPaths_eq {visited : List GatPath} (sorted : visited.Pairwise (· < ·))
    (outside : ∀ path, path ∈ visited ↔ tracked path ∧ (IgnoreCoveragePlan.ofPatterns search patterns).excluded.contains path = false)
    {visitPaths : DesiredPathExclusions → (ExcludeBody → GatPath → Except ε ExcludeBody) → ExcludeBody → Except ε ExcludeBody}
    (visits : ∀ visit state, visitPaths (IgnoreCoveragePlan.ofPatterns search patterns).excluded visit state = visited.foldlM visit state) :
    bodyFromPaths search printable patterns visitPaths = .ok (renderPaths printable patterns paths) := by
  obtain ⟨plan, isPlan⟩ : ∃ plan, plan = IgnoreCoveragePlan.ofPatterns search patterns := ⟨_, rfl⟩
  have remaining : (visited.filter fun path => !plan.residualMatches path) = paths := by
    refine (sorted.filter _).eq_of_mem_iff ascending fun path => ?_
    rw [mem_filter, outside, listed, ← covers_iff documented, IgnoreCoveragePlan.covers, ← isPlan, Bool.or_eq_true, not_or, Bool.not_eq_true,
      Bool.not_eq_true, Bool.not_eq_true', and_assoc]
  unfold bodyFromPaths
  dsimp only
  rw [visits, ← isPlan, foldlM_residual, remaining]
  rfl

theorem bodyFromStore_eq {store : StateTable} (rows : ∀ path, (store.desiredAt path).isSome ↔ tracked path) :
    (bodyFromStore search printable patterns store : Except ε ExcludeBody) = .ok (renderPaths printable patterns paths) := by
  refine bodyFromPaths_eq documented printable ascending listed (StateTable.pairwise_desiredPaths.filter _) (fun path => ?_)
    fun visit state => StateTable.visitDesiredPathsExcluding_eq _ state
  rw [mem_filter, StateTable.mem_desiredPaths, rows, Bool.not_eq_true']

/-- A session reads the lock that it retains, or the store. -/
theorem bodyFromMutation_eq {session : DesiredMutationSession}
    (reads : ∀ path, tracked path ↔ session.Tracks path) :
    (bodyFromMutation search printable patterns session : Except ε ExcludeBody) = .ok (renderPaths printable patterns paths) := by
  obtain ⟨fullLock, store⟩ := session
  cases fullLock with
  | none => exact bodyFromStore_eq documented printable ascending listed fun path => (reads path).symm
  | some lock =>
    obtain ⟨distinct, same⟩ := destutter_of_sorted (pairwise_mergeSort' (· ≤ ·)
      ((lock.entries.map Entry.path).filter fun path => !(IgnoreCoveragePlan.ofPatterns search patterns).excluded.contains path))
    refine bodyFromPaths_eq documented printable ascending listed distinct (fun path => ?_) fun visit state => rfl
    rw [same, mem_mergeSort, mem_filter, reads, Bool.not_eq_true']
    rfl

end Sources

/-- For every lock, with its entries in any order and any number, and every list of ignore patterns, the lock, a store with the same desired
paths and a session that retains a lock of the same paths or reads that store render the same body. None of its lines is a marker. The paths
that get a rule are those without a line feed that no configured pattern ignores; each of them has one line, whose rule ignores the path, what
is below it and nothing else. Every other line is that of a configured pattern or a comment for a path with a line feed, the count is that of
the patterns and the rules, and every tracked path without a line feed is ignored by some line. A file in either style has the same lines. -/
theorem exclude_body_faithful {search : IgnoreSearch} (documented : search.Documented) (printable : Char → Bool) (patterns : List GitIgnorePattern)
    {lock : Lock} {store : StateTable} {session : DesiredMutationSession}
    (stored : ∀ path, (store.desiredAt path).isSome ↔ path ∈ lock.entries.map Entry.path)
    (retained : ∀ path, path ∈ lock.entries.map Entry.path ↔ session.Tracks path) :
    let body := bodyFromLock search printable patterns lock
    (∀ ε : Type, (bodyFromStore search printable patterns store : Except ε ExcludeBody) = .ok body ∧
      (bodyFromMutation search printable patterns session : Except ε ExcludeBody) = .ok body) ∧
    BlockBody BEGIN END body.body ∧
    (∃ ruled : List GatPath, ruled.Pairwise (· < ·) ∧
      (∀ path, path ∈ ruled ↔ path ∈ lock.entries.map Entry.path ∧ Byte.lineFeed ∉ path.text ∧ ¬Covered patterns path) ∧
      body.count = patterns.length + ruled.length ∧
      ∀ eol : Eol,
        (∀ path ∈ ruled, (fileLines (eol.convert body.body)).count (exactRule path.text) = 1) ∧
        (∀ line ∈ fileLines (eol.convert body.body), (∃ pattern ∈ patterns, line = patternLine pattern) ∨ (∃ path ∈ ruled, line = exactRule path.text) ∨
          ∃ path ∈ lock.entries.map Entry.path, Byte.lineFeed ∈ path.text ∧ line = commentLine printable path.text ∧ GitIgnore.parse line = none) ∧
        ∀ path ∈ lock.entries.map Entry.path, Byte.lineFeed ∉ path.text →
          ∃ line ∈ fileLines (eol.convert body.body), GitIgnore.Ignores line path.text) ∧
    ∀ (path : GatPath) (other : Str), GitIgnore.Ignores (exactRule path.text) other ↔ other = path.text ∨ IsAncestor Byte.slash path.text other := by
  intro body
  -- the tracked paths that no pattern covers, in order
  obtain ⟨plan, isPlan⟩ : ∃ plan, plan = IgnoreCoveragePlan.ofPatterns search patterns := ⟨_, rfl⟩
  obtain ⟨ascending, same⟩ := destutter_of_sorted (pairwise_mergeSort' (· ≤ ·) ((lock.entries.map Entry.path).filter fun path => !plan.covers path))
  obtain ⟨paths, isPaths⟩ : ∃ paths, paths = (((lock.entries.map Entry.path).filter fun path => !plan.covers path).mergeSort (· ≤ ·)).destutter (· ≠ ·) :=
    ⟨_, rfl⟩
  rw [← isPaths] at ascending same
  have listed (path : GatPath) : path ∈ paths ↔ path ∈ lock.entries.map Entry.path ∧ ¬Covered patterns path := by
    rw [same, mem_mergeSort, mem_filter, ← covers_iff documented, ← isPlan, Bool.not_eq_true', Bool.not_eq_true]
  have rendered : body = renderPaths printable patterns paths := bodyFromLock_eq documented printable ascending listed fun path => Iff.rfl
  have single : ∀ line ∈ bodyLines printable patterns paths, SingleLine line := singleLine_bodyLines
  have lines (eol : Eol) : fileLines (eol.convert body.body) = bodyLines printable patterns paths := by
    rw [rendered, renderPaths_eq, convert_terminate single, fileLines_terminate single]
  refine ⟨fun ε => ?_, ?_, ⟨paths.filter fun path => Byte.lineFeed ∉ path.text, ascending.filter _, fun path => ?_, ?_, fun eol => ⟨?_, ?_, ?_⟩⟩,
    exactRule_ignores_iff⟩
  · rw [rendered]
    exact ⟨bodyFromStore_eq documented printable ascending listed stored, bodyFromMutation_eq documented printable ascending listed retained⟩
  · rw [rendered]
    exact blockBody_renderPaths
  · rw [mem_filter, listed, decide_eq_true_eq]
    tauto
  · rw [rendered, renderPaths_eq]
  · intro path member
    obtain ⟨member, free⟩ := mem_filter.mp member
    rw [lines]
    exact count_exactRule ascending.nodup member (of_decide_eq_true free) ((listed path).mp member).2
  · intro line member
    rw [lines] at member
    rcases mem_append.mp member with member | member
    · obtain ⟨pattern, configured, rfl⟩ := mem_map.mp member
      exact .inl ⟨pattern, configured, rfl⟩
    · obtain ⟨path, found, rfl⟩ := mem_map.mp member
      unfold pathLine
      split_ifs with feed
      · exact .inr (.inr ⟨path, ((listed path).mp found).1, feed, rfl, GitIgnore.parse_of_comment (head?_commentLine path.text)⟩)
      · exact .inr (.inl ⟨path, mem_filter.mpr ⟨found, decide_eq_true feed⟩, rfl⟩)
  · intro path member free
    rw [lines]
    by_cases covered : Covered patterns path
    · obtain ⟨pattern, configured, ignores⟩ := covered
      exact ⟨patternLine pattern, mem_append_left _ (mem_map_of_mem configured), patternLine_ignores ignores⟩
    · refine ⟨pathLine printable path, mem_append_right _ (mem_map_of_mem ((listed path).mpr ⟨member, covered⟩)), ?_⟩
      rw [pathLine, if_neg free]
      exact (exactRule_ignores_iff path path.text).mpr (.inl rfl)

/-- An engine with the documented precedence. -/
def orderedSearch : IgnoreSearch := fun patterns path isDir => (GitIgnore.decides patterns path isDir).map GitIgnore.Rule.negated

/-- A path below a literal directory and one with a trailing space, tracked twice and out of order. -/
theorem exclude_body_faithful_trailing : ∃ (lock : Lock) (store : StateTable) (patterns : List GitIgnorePattern) (path : GatPath),
    path.text = ascii "m\r " ∧ path ∈ lock.entries.map Entry.path ∧
      (bodyFromStore orderedSearch (fun _ => true) patterns store : Except Empty ExcludeBody) =
        .ok (bodyFromLock orderedSearch (fun _ => true) patterns lock) ∧
      BlockBody BEGIN END (bodyFromLock orderedSearch (fun _ => true) patterns lock).body ∧
      exactRule path.text = ascii "/m[\r]\\ " ∧ ∀ other, GitIgnore.Ignores (exactRule path.text) other ↔ other = path.text ∨ IsAncestor Byte.slash path.text other := by
  let path : GatPath := ⟨ascii "m\r ", Utf8.Valid.of_ascii (Utf8.forall_mem_of_all (by decide)), rfl⟩
  let below : GatPath := ⟨ascii "d/f", Utf8.Valid.of_ascii (Utf8.forall_mem_of_all (by decide)), rfl⟩
  let pattern : GitIgnorePattern :=
    ⟨ascii "/d/", Utf8.Valid.of_ascii (Utf8.forall_mem_of_all (by decide)), ⟨by decide, by decide⟩, by decide⟩
  let oid : Oid := ⟨replicate 32 0, length_replicate⟩
  let entries : List Entry := [⟨path, oid⟩, ⟨below, oid⟩, ⟨path, oid⟩]
  let store : StateTable := StateTable.upsertEntries .empty (fun _ => .replicate 32 0) LockShardLevels.FLAT entries
  have stored (other : GatPath) : (store.desiredAt other).isSome ↔ other ∈ entries.map Entry.path := by
    by_cases inside : other ∈ entries.map Entry.path
    · obtain ⟨entry, -, -, found⟩ := StateTable.desiredAt_upsertEntries_of_mem .empty inside
      exact iff_of_true (by rw [found]; rfl) inside
    · refine iff_of_false ?_ inside
      rw [StateTable.desiredAt_upsertEntries_of_not_mem .empty inside]
      exact nofun
  have documented : orderedSearch.Documented := fun _ _ _ => rfl
  let session : DesiredMutationSession := ⟨some ⟨entries.reverse⟩, store⟩
  have retained (other : GatPath) : other ∈ (⟨entries⟩ : Lock).entries.map Entry.path ↔ session.Tracks other := by
    change _ ↔ other ∈ entries.reverse.map Entry.path
    rw [map_reverse, mem_reverse]
  obtain ⟨same, plain, -, ignores⟩ := exclude_body_faithful documented (fun _ => true) [pattern] stored retained
  exact ⟨⟨entries⟩, store, [pattern], path, rfl, mem_cons_self, (same Empty).1, plain, by decide, ignores path⟩

end Gat
