import Gat.Proofs.ExcludeSync

/-! # A sync accepts only the current exclusions

The record of a store is linked to the world by what determines its values: the bytes that a stat proof was taken from,
the text behind a hash and the desired paths behind a fingerprint. Only a rebuild writes a new fingerprint, and it writes
the count, the identity and the proof of one body with it; a refreshed proof is that of a file with the same block. So the
link survives every other change of the file, and a recorded fingerprint that matches again stands for the current body.
-/

open List

namespace Gat

open ManagedBlock

structure ExcludeWorld where
  store : ExcludeStore
  leaf : InfoExcludeLeaf

/-- A lock refresh, a sync under configured patterns, the render of a mutation, a removal, or an edit of the file. -/
inductive ExcludeAction where
  | refresh (table : StateTable) (desired : List.Vector UInt8 32)
  | sync (patterns : List GitIgnorePattern) (faults : StoreFaults) (fs : ExcludeFs)
  | render (body : ExcludeBody) (dryRun : Bool) (fs : ExcludeFs)
  | removeBlock (fs : ExcludeFs)
  | edit (leaf : InfoExcludeLeaf)

variable (blake3 : ContentHash) (search : IgnoreSearch) (printable : Char → Bool)

def ExcludeAction.apply (world : ExcludeWorld) : ExcludeAction → ExcludeWorld
  | refresh table desired => ⟨{ world.store with table, desiredFingerprint := desired }, world.leaf⟩
  | sync patterns faults fs =>
    let after := (syncFromStoreFastPath blake3 search printable patterns faults fs world.store world.leaf).1
    ⟨after.1, after.2⟩
  | render body dryRun fs => ⟨world.store, (renderWithProof blake3 fs body dryRun world.leaf).1⟩
  | removeBlock fs => ⟨world.store, (removeManagedBlock fs world.leaf).1⟩
  | edit leaf => ⟨world.store, leaf⟩

/-- What is taken for granted about evidence: a proof matches only the bytes that it was taken from, a desired fingerprint
stands for one list of paths, and the texts that are hashed do not collide. -/
structure ExcludeEvidence (blake3 : ContentHash) where
  bytesAt : StatProof → Option Str
  pathsAt : List.Vector UInt8 32 → List GatPath
  Hashed : Str → Prop
  collisionFree : ∀ first second, Hashed first → Hashed second → blake3 first = blake3 second → first = second

variable {blake3} (evidence : ExcludeEvidence blake3)

namespace ExcludeEvidence

/-- The stat of a file stands for its bytes. -/
def Honest : InfoExcludeLeaf → Prop
  | .regular contents stat => evidence.bytesAt stat = some contents
  | .unreadable stat => evidence.bytesAt stat = none
  | .missing => True
  | .special => True

/-- What a sync takes for granted. A text in memory is shorter than the address space. -/
structure AssumesSync (patterns : List GitIgnorePattern) (fs : ExcludeFs) (world : ExcludeWorld) : Prop where
  addressable : Addressable patterns
  races : ∀ remaining leaf, evidence.Honest leaf → evidence.Honest (fs.race remaining leaf)
  input : evidence.Hashed (fingerprintInput world.store.desiredFingerprint patterns)
  body : ∀ body, (bodyFromStore search printable patterns world.store.table : Except Empty ExcludeBody) = .ok body →
    evidence.Hashed body.body ∧ body.body.length < 2 ^ 63
  block : ∀ contents stat inner, world.leaf = .regular contents stat →
    (extractBody BEGIN END contents : Outcome InfoExcludeError (Option Str)) = .ok (some inner) → evidence.Hashed inner

/-- What a step takes for granted. -/
def Assumes (action : ExcludeAction) (world : ExcludeWorld) : Prop :=
  evidence.Honest (action.apply blake3 search printable world).leaf ∧
    match action with
    | .refresh table desired => evidence.pathsAt desired = table.desiredPaths
    | .sync patterns _ fs => evidence.AssumesSync search printable patterns fs world
    | _ => True

/-- Worlds after allowed steps from a store without a record. -/
inductive Reached (allowed : ExcludeAction → ExcludeWorld → Prop) : ExcludeWorld → Prop
  | start {world : ExcludeWorld} (unrecorded : world.store.record = .empty) (honest : evidence.Honest world.leaf)
    (paths : evidence.pathsAt world.store.desiredFingerprint = world.store.table.desiredPaths) : Reached allowed world
  | step {world : ExcludeWorld} (reached : Reached allowed world) (action : ExcludeAction)
    (assumed : evidence.Assumes search printable action world) (allows : allowed action world) :
    Reached allowed (action.apply blake3 search printable world)

end ExcludeEvidence

/-- The text that a render starts from. -/
def InfoExcludeLeaf.text : InfoExcludeLeaf → Option Str
  | missing => some []
  | regular contents _ => some contents
  | unreadable _ => none
  | special => none

/-- The file shows a body, and around it the text of a file that stood there. -/
def Faithful (fs : ExcludeFs) (leaf : InfoExcludeLeaf) (body : Str) (after : InfoExcludeLeaf) : Prop :=
  ∃ contents stat existing stood, after = .regular contents stat ∧ Shows body existing contents ∧
    Stands fs.race CONCURRENT_MODIFICATION_RETRIES leaf stood ∧ stood.text = some existing

/-! ## Bodies of paths -/

/-- The body of a list of desired paths. -/
def rebuiltBody (search : IgnoreSearch) (printable : Char → Bool) (patterns : List GitIgnorePattern) (paths : List GatPath) : ExcludeBody :=
  renderPaths printable patterns (paths.filter fun path => !(IgnoreCoveragePlan.ofPatterns search patterns).covers path)

variable {search printable} {patterns : List GitIgnorePattern}

variable (blake3 search printable) in
/-- The text that a sync replaces and records. It has none when it fails before, accepts the recorded block or finds nothing to change. -/
def installedText (patterns : List GitIgnorePattern) (faults : StoreFaults) (fs : ExcludeFs) (store : ExcludeStore) (leaf : InfoExcludeLeaf) :
    Option Str :=
  if faults.fingerprint ∨ faults.record ∨ faults.rows ∨ faults.output then none
  else if store.record.fingerprint = some (fingerprint blake3 store.desiredFingerprint patterns) ∧
      verifyInfoExclude blake3 store.record leaf ≠ .ok .stale then none
  else replacedText fs (renderMutation (rebuiltBody search printable patterns store.table.desiredPaths).body) CONCURRENT_MODIFICATION_RETRIES leaf

variable (blake3 search printable) in
/-- No sync replaces text in which the terminator of an install completes a pair. -/
def ExcludeAction.Harmless : ExcludeAction → ExcludeWorld → Prop
  | .sync patterns faults fs, world => ∀ text, installedText blake3 search printable patterns faults fs world.store world.leaf = some text → ¬Completes text
  | _, _ => True

theorem bodyFromStore_eq_rebuilt {ε : Type} (table : StateTable) :
    (bodyFromStore search printable patterns table : Except ε ExcludeBody) = .ok (rebuiltBody search printable patterns table.desiredPaths) := by
  unfold bodyFromStore bodyFromPaths
  dsimp only
  rw [StateTable.visitDesiredPathsExcluding_eq, foldlM_residual, filter_filter]
  refine congrArg Except.ok (congrArg (fun paths => renderPaths printable patterns paths) (filter_congr fun path _ => ?_))
  rw [IgnoreCoveragePlan.covers, Bool.not_or, Bool.and_comm]

theorem blockBody_rebuilt (paths : List GatPath) : BlockBody BEGIN END (rebuiltBody search printable patterns paths).body := blockBody_renderPaths

/-- A body has no more rules than bytes. -/
theorem count_le_length (paths : List GatPath) : (renderPaths printable patterns paths).count ≤ (renderPaths printable patterns paths).body.length := by
  have lines (list : List Str) : list.length ≤ (terminate list .lf).length := by
    induction list with
    | nil => exact Nat.zero_le _
    | cons line list ih =>
      rw [terminate, map_cons, flatten_cons, length_append, length_append, length_cons]
      rw [terminate] at ih
      change list.length + 1 ≤ line.length + 1 + _
      omega
  rw [renderPaths_eq]
  refine le_trans ?_ (lines _)
  rw [bodyLines, length_append, length_map, length_map]
  exact Nat.add_le_add_left (length_filter_le _ _) _

/-! ## The record -/

theorem Shows.self {body existing contents : Str} (shows : Shows body existing contents) : Shows body contents contents := by
  obtain ⟨before, opening, inner, closing, after, pair, style, -⟩ := shows
  exact ⟨before, opening, inner, closing, after, pair, style, .inl ⟨before, opening, inner, closing, after, pair, rfl, rfl⟩⟩

namespace ExcludeEvidence

variable (search printable)

/-- A recorded fingerprint stands for one body, with its count, its identity and a file that shows it. -/
def Recorded (record : ExcludeRecord) : Prop :=
  ∀ found, record.fingerprint = some found → ∃ desired patterns, Addressable patterns ∧ evidence.Hashed (fingerprintInput desired patterns) ∧
    found = fingerprint blake3 desired patterns ∧
    let body := rebuiltBody search printable patterns (evidence.pathsAt desired)
    evidence.Hashed body.body ∧ record.count = body.count ∧ record.blockIdentity = some (blake3 body.body) ∧
      ∀ proof, record.proof = some proof → ∃ contents, evidence.bytesAt proof = some contents ∧ Shows body.body contents contents

structure Linked (world : ExcludeWorld) : Prop where
  honest : evidence.Honest world.leaf
  paths : evidence.pathsAt world.store.desiredFingerprint = world.store.table.desiredPaths
  recorded : evidence.Recorded search printable world.store.record

end ExcludeEvidence

section Steps

variable {fs : ExcludeFs} {faults : StoreFaults} {store : ExcludeStore} {leaf : InfoExcludeLeaf} {evidence}

/-- A rebuild that returns renders the body and records it; any other keeps the store. -/
theorem rebuildExclude_cases :
    let body := rebuiltBody search printable patterns store.table.desiredPaths
    let result := rebuildExclude blake3 search printable patterns faults fs store leaf
    (result.1.1 = store ∧ ∀ status, result.2 ≠ .ok status) ∨
      faults.rows = false ∧ faults.output = false ∧ ∃ update after, mutateInfoExclude fs false (renderMutation body.body) leaf = (after, .ok update) ∧
        result = (({ store with record := ⟨some (fingerprint blake3 store.desiredFingerprint patterns), saturateI64 body.count,
          some (blake3 body.body), update.proof⟩ }, after), .ok ⟨update.changed, body.count⟩) := by
  intro body result
  obtain ⟨whole, isWhole⟩ : ∃ whole, whole = result := ⟨_, rfl⟩
  rw [← isWhole]
  change whole = rebuildExclude blake3 search printable patterns faults fs store leaf at isWhole
  unfold rebuildExclude at isWhole
  by_cases rows : faults.rows = true
  · rw [if_pos rows] at isWhole
    subst isWhole
    exact .inl ⟨rfl, nofun⟩
  rw [if_neg rows, bodyFromStore_eq_rebuilt] at isWhole
  dsimp only at isWhole
  cases mutated : mutateInfoExclude fs false (renderMutation body.body) leaf with
  | mk after outcome =>
    have rendered : renderWithProof blake3 fs body false leaf =
        (after, outcome.map fun update => (⟨update.changed, body.count⟩, blake3 body.body, update)) := by
      rw [renderWithProof, mutated]
    rw [rendered] at isWhole
    cases outcome with
    | error fault =>
      cases fault with
      | panic =>
        subst isWhole
        exact .inl ⟨rfl, nofun⟩
      | error fault =>
        subst isWhole
        exact .inl ⟨rfl, nofun⟩
    | ok update =>
      by_cases output : faults.output = true
      · have kept : whole = ((store, after), Outcome.fail .state) := isWhole.trans (if_pos output)
        subst kept
        exact .inl ⟨rfl, nofun⟩
      · exact .inr ⟨Bool.not_eq_true _ ▸ rows, Bool.not_eq_true _ ▸ output, update, after, rfl, isWhole.trans (if_neg output)⟩

/-- A verification that accepts found the recorded proof or the recorded block. -/
theorem verifyInfoExclude_current {record : ExcludeRecord} {refreshed : Option StatProof}
    (accepted : verifyInfoExclude blake3 record leaf = .ok (.current refreshed)) :
    (refreshed = none ∧ ∃ proof, record.proof = some proof ∧ leaf.observe = some proof) ∨
      ∃ contents stat inner, leaf = .regular contents stat ∧ refreshed = some stat ∧
        (extractBody BEGIN END contents : Outcome InfoExcludeError (Option Str)) = .ok (some inner) ∧ record.blockIdentity = some (blake3 inner) := by
  unfold verifyInfoExclude at accepted
  by_cases proved : record.proof.isSome = true ∧ leaf.observe = record.proof
  · rw [if_pos proved] at accepted
    cases accepted
    obtain ⟨proof, found⟩ := Option.isSome_iff_exists.mp proved.1
    exact .inl ⟨rfl, proof, found, proved.2.trans found⟩
  rw [if_neg proved] at accepted
  cases leaf with
  | missing => cases accepted
  | unreadable stat => cases accepted
  | special => cases accepted
  | regular contents stat =>
    simp only [acquire] at accepted
    cases extracted : (extractBody BEGIN END contents : Outcome InfoExcludeError (Option Str)) with
    | error fault =>
      rw [extracted] at accepted
      cases accepted
    | ok block =>
      rw [extracted] at accepted
      change Except.ok _ = _ at accepted
      split_ifs at accepted with same
      · cases accepted
        cases block with
        | none => cases same.1
        | some inner => exact .inr ⟨contents, stat, inner, rfl, rfl, extracted, same.2.symm⟩
      · cases accepted

/-- Text without a pair has no block to extract. -/
theorem exists_firstPair_of_extractBody {contents inner : Str}
    (extracted : (extractBody BEGIN END contents : Outcome InfoExcludeError (Option Str)) = .ok (some inner)) :
    ∃ before opening lines closing after, ManagedBlock.FirstPair BEGIN END (contents.splitInclusive Byte.lineFeed) before opening lines closing after ∧
      lines.flatten = inner := by
  by_cases paired : HasPair BEGIN END contents
  · obtain ⟨before, opening, lines, closing, after, pair⟩ := paired.exists_firstPair markers_exclude.distinct
    rw [pair.extractBody_eq markers_exclude] at extracted
    exact ⟨before, opening, lines, closing, after, pair, Option.some.inj (Except.ok.inj extracted)⟩
  · rw [extractBody, markerOffsets, (not_completePair_iff markers_exclude.distinct).mp paired, ite_self] at extracted
    cases extracted

theorem Stands.honest {race : ℕ → InfoExcludeLeaf → InfoExcludeLeaf} (races : ∀ remaining leaf, evidence.Honest leaf → evidence.Honest (race remaining leaf))
    {remaining : ℕ} {leaf stood : InfoExcludeLeaf} (stands : Stands race remaining leaf stood) (honest : evidence.Honest leaf) : evidence.Honest stood := by
  induction stands with
  | here => exact honest
  | raced _ ih => exact ih (races _ _ honest)

/-- A file that shows the proof of some bytes has these bytes. -/
theorem ExcludeEvidence.Honest.eq_regular {contents : Str} {proof : StatProof} (honest : evidence.Honest leaf) (observed : leaf.observe = some proof)
    (bytes : evidence.bytesAt proof = some contents) : leaf = .regular contents proof := by
  cases leaf with
  | missing => cases observed
  | special => cases observed
  | unreadable stat =>
    obtain rfl := Option.some.inj observed
    cases (show evidence.bytesAt stat = none from honest).symm.trans bytes
  | regular others stat =>
    obtain rfl := Option.some.inj observed
    obtain rfl := Option.some.inj ((show evidence.bytesAt stat = some others from honest).symm.trans bytes)
    rfl

/-- The file that is replaced has the text that was read. -/
theorem text_of_isCurrent {seen current : InfoExcludeLeaf} {source : ExcludeSource} (honest : evidence.Honest seen) (honest' : evidence.Honest current)
    (read : acquire seen = .ok source) (fresh : source.isCurrent current = true) : current.text = some source.contents := by
  cases seen with
  | unreadable stat => cases read
  | special => cases read
  | missing =>
    cases read
    obtain rfl := of_decide_eq_true fresh
    rfl
  | regular contents stat =>
    cases read
    have observed : current.observe = some stat := of_decide_eq_true fresh
    rw [honest'.eq_regular observed honest]
    rfl

theorem Shows.ne_nil {body existing contents : Str} (shows : Shows body existing contents) : contents ≠ [] := by
  rintro rfl
  obtain ⟨before, opening, inner, closing, after, pair, -⟩ := shows
  have whole := congrArg length pair.whole
  simp [splitInclusive] at whole

/-- A render that returns leaves a file that shows its body. -/
theorem render_faithful {body : Str} {after : InfoExcludeLeaf} {update : InfoExcludeUpdate} (contained : BlockBody BEGIN END body)
    (honest : evidence.Honest leaf) (races : ∀ remaining leaf, evidence.Honest leaf → evidence.Honest (fs.race remaining leaf))
    (honestAfter : evidence.Honest after)
    (harmless : ∀ text, replacedText fs (renderMutation body) CONCURRENT_MODIFICATION_RETRIES leaf = some text → ¬Completes text)
    (done : mutateInfoExclude fs false (renderMutation body) leaf = (after, .ok update)) :
    Faithful fs leaf body after ∧
      ∀ proof, update.proof = some proof → ∃ contents, evidence.bytesAt proof = some contents ∧ Shows body contents contents := by
  obtain ⟨seen, current, source, mutation, stands, stands', read, fresh, derived, mutated, replaced⟩ := mutateFrom_ok done
  have harmless' : ¬Completes source.contents := by
    intro completes
    have apart := completes.upsert_ne body
    unfold renderMutation at derived
    cases upserted : (upsert BEGIN END source.contents body : Outcome InfoExcludeError Str) with
    | error fault =>
      rw [upserted] at derived
      cases derived
    | ok updated =>
      rw [upserted] at derived apart
      have replaces : InfoExcludeMutation.replace updated = mutation := (if_neg fun same => apart (congrArg Except.ok same)).symm.trans (Except.ok.inj derived)
      exact harmless _ (replaced updated replaces.symm rfl) completes
  obtain ⟨updated, upserted, shows⟩ := upsert_shows contained harmless'
  have mutation_eq : mutation = if updated = source.contents then .unchanged else .replace updated := by
    rw [renderMutation, upserted] at derived
    exact (Except.ok.inj derived).symm
  have text := text_of_isCurrent (stands.honest races honest) (stands'.honest races honest) read fresh
  cases mutated with
  | unchanged =>
    have same : updated = source.contents := by
      by_contra other
      rw [if_neg other] at mutation_eq
      cases mutation_eq
    rw [same] at shows
    cases after with
    | missing =>
      cases read
      exact absurd rfl shows.ne_nil
    | regular contents stat =>
      cases read
      exact ⟨⟨contents, stat, contents, current, rfl, shows, stands', text⟩, nofun⟩
    | unreadable stat => cases read
    | special => cases read
  | dry _ isDry => cases isDry
  | @replaced contents stat written =>
    have same : contents = updated := by
      split_ifs at mutation_eq
      exact InfoExcludeMutation.replace.inj mutation_eq
    subst same
    refine ⟨⟨contents, stat, source.contents, current, rfl, shows, stands', text⟩, fun proof found => ?_⟩
    obtain rfl := Option.some.inj found
    exact ⟨contents, honestAfter, shows.self⟩
  | removed =>
    split_ifs at mutation_eq

end Steps

/-! ## Runs -/

section Runs

variable {fs : ExcludeFs} {faults : StoreFaults} {world : ExcludeWorld} {evidence}

/-- What a sync leaves: the rows, a record that is linked and, when it returns, the count and a file with the body of the rows and patterns. -/
structure ExcludeEvidence.Syncs (evidence : ExcludeEvidence blake3) (search : IgnoreSearch) (printable : Char → Bool)
    (patterns : List GitIgnorePattern) (fs : ExcludeFs) (world : ExcludeWorld)
    (result : (ExcludeStore × InfoExcludeLeaf) × Outcome ExcludesError SyncStatus) : Prop where
  table : result.1.1.table = world.store.table
  desired : result.1.1.desiredFingerprint = world.store.desiredFingerprint
  recorded : evidence.Recorded search printable result.1.1.record
  shows : ∀ status, result.2 = .ok status →
    status.count = (rebuiltBody search printable patterns world.store.table.desiredPaths).count ∧
      Faithful fs world.leaf (rebuiltBody search printable patterns world.store.table.desiredPaths).body result.1.2

/-- A sync that stops before it writes leaves the store. -/
theorem ExcludeEvidence.Linked.stops (linked : evidence.Linked search printable world) (leaf : InfoExcludeLeaf) {failed : Outcome ExcludesError SyncStatus}
    (fails : ∀ status, failed ≠ .ok status) : evidence.Syncs search printable patterns fs world ((world.store, leaf), failed) :=
  ⟨rfl, rfl, linked.recorded, fun status returned => absurd returned (fails status)⟩

/-- A rebuild records the body that it installs. -/
theorem rebuild_spec (linked : evidence.Linked search printable world) (assumed : evidence.AssumesSync search printable patterns fs world)
    (harmless : faults.rows = false → faults.output = false → ∀ text,
      replacedText fs (renderMutation (rebuiltBody search printable patterns world.store.table.desiredPaths).body) CONCURRENT_MODIFICATION_RETRIES
        world.leaf = some text → ¬Completes text)
    (honestAfter : evidence.Honest (rebuildExclude blake3 search printable patterns faults fs world.store world.leaf).1.2) :
    evidence.Syncs search printable patterns fs world (rebuildExclude blake3 search printable patterns faults fs world.store world.leaf) := by
  obtain ⟨hashed, fits⟩ := assumed.body _ (bodyFromStore_eq_rebuilt _)
  rcases @rebuildExclude_cases blake3 search printable patterns fs faults world.store world.leaf with
    ⟨kept, failed⟩ | ⟨rows, output, update, after, rendered, done⟩
  · exact ⟨by rw [kept], by rw [kept], by rw [kept]; exact linked.recorded, fun status returned => absurd returned (failed status)⟩
  · rw [done] at honestAfter ⊢
    obtain ⟨faithful, proofs⟩ := render_faithful (blockBody_rebuilt _) linked.honest assumed.races honestAfter (harmless rows output) rendered
    refine ⟨rfl, rfl, fun found recorded => ?_, fun status returned => ?_⟩
    · obtain rfl := Option.some.inj recorded
      have small := (count_le_length _).trans_lt fits
      refine ⟨world.store.desiredFingerprint, patterns, assumed.addressable, assumed.input, rfl, ?_⟩
      rw [linked.paths]
      exact ⟨hashed, Nat.min_eq_left (Nat.le_pred_of_lt small), rfl, proofs⟩
    · cases returned
      exact ⟨rfl, faithful⟩

/-- A recorded fingerprint that matches again stands for the body of the current rows and patterns. -/
theorem ExcludeEvidence.Linked.current (linked : evidence.Linked search printable world) (assumed : evidence.AssumesSync search printable patterns fs world)
    (matched : world.store.record.fingerprint = some (fingerprint blake3 world.store.desiredFingerprint patterns)) :
    let body := rebuiltBody search printable patterns world.store.table.desiredPaths
    evidence.Hashed body.body ∧ world.store.record.count = body.count ∧ world.store.record.blockIdentity = some (blake3 body.body) ∧
      ∀ proof, world.store.record.proof = some proof → ∃ contents, evidence.bytesAt proof = some contents ∧ Shows body.body contents contents := by
  obtain ⟨desired, patterns', addressable, input, same, recorded⟩ := linked.recorded _ matched
  obtain ⟨rfl, rfl⟩ := fingerprintInput_inj assumed.addressable addressable (evidence.collisionFree _ _ assumed.input input same)
  rwa [linked.paths] at recorded

/-- A file with the recorded block shows its body. -/
theorem shows_of_extractBody {contents body : Str}
    (extracted : (extractBody BEGIN END contents : Outcome InfoExcludeError (Option Str)) = .ok (some body)) : Shows body contents contents := by
  obtain ⟨before, opening, lines, closing, after, pair, same⟩ := exists_firstPair_of_extractBody extracted
  exact ⟨before, opening, lines, closing, after, pair, ⟨.lf, same⟩, .inl ⟨before, opening, lines, closing, after, pair, rfl, rfl⟩⟩

/-- A sync keeps the record linked, and when it returns the file shows the body of the current rows and patterns. -/
theorem sync_spec (linked : evidence.Linked search printable world) (assumed : evidence.AssumesSync search printable patterns fs world)
    (harmless : ∀ text, installedText blake3 search printable patterns faults fs world.store world.leaf = some text → ¬Completes text)
    (honestAfter : evidence.Honest (syncFromStoreFastPath blake3 search printable patterns faults fs world.store world.leaf).1.2) :
    evidence.Syncs search printable patterns fs world (syncFromStoreFastPath blake3 search printable patterns faults fs world.store world.leaf) := by
  rw [syncFromStoreFastPath] at honestAfter ⊢
  by_cases failing : faults.fingerprint = true ∨ faults.record = true
  · rw [if_pos failing]
    exact linked.stops _ nofun
  rw [if_neg failing] at honestAfter ⊢
  -- both tiers that rebuild have a record that is not accepted
  have rebuilds (unaccepted : ¬(world.store.record.fingerprint = some (fingerprint blake3 world.store.desiredFingerprint patterns) ∧
      verifyInfoExclude blake3 world.store.record world.leaf ≠ .ok .stale)) :
      evidence.Honest (rebuildExclude blake3 search printable patterns faults fs world.store world.leaf).1.2 →
        evidence.Syncs search printable patterns fs world (rebuildExclude blake3 search printable patterns faults fs world.store world.leaf) :=
    rebuild_spec linked assumed fun rows output => by
      rwa [installedText, if_neg, if_neg unaccepted] at harmless
      simpa [rows, output] using failing
  by_cases matched : world.store.record.fingerprint = some (fingerprint blake3 world.store.desiredFingerprint patterns)
  · rw [if_pos matched] at honestAfter ⊢
    obtain ⟨hashed, count, identity, proofs⟩ := linked.current assumed matched
    cases verified : verifyInfoExclude blake3 world.store.record world.leaf with
    | error fault => cases fault <;> exact linked.stops _ nofun
    | ok verification =>
      rw [verified] at honestAfter
      cases verification with
      | stale => exact rebuilds (fun accepted => accepted.2 verified) honestAfter
      | current refreshed =>
        rcases verifyInfoExclude_current verified with ⟨rfl, proof, found, observed⟩ | ⟨contents, stat, inner, leaf, rfl, extracted, recordedIdentity⟩
        · refine ⟨rfl, rfl, linked.recorded, fun status returned => ?_⟩
          cases returned
          obtain ⟨contents, bytes, shows⟩ := proofs proof found
          have leaf := linked.honest.eq_regular observed bytes
          exact ⟨count, contents, proof, contents, _, leaf, shows, .here _ _, by rw [leaf]; rfl⟩
        · obtain rfl : inner = (rebuiltBody search printable patterns world.store.table.desiredPaths).body := by
            refine evidence.collisionFree _ _ (assumed.block contents stat inner leaf extracted) hashed ?_
            exact Option.some.inj (recordedIdentity.symm.trans identity)
          have shows := shows_of_extractBody extracted
          dsimp only
          by_cases refresh : faults.refresh = true
          · rw [if_pos refresh]
            exact linked.stops _ nofun
          rw [if_neg refresh]
          refine ⟨rfl, rfl, fun found again => ?_, fun status returned => ?_⟩
          · obtain rfl := Option.some.inj (matched.symm.trans again)
            refine ⟨_, patterns, assumed.addressable, assumed.input, rfl, ?_⟩
            rw [linked.paths]
            refine ⟨hashed, count, identity, fun proof refreshed => ?_⟩
            obtain rfl := Option.some.inj refreshed
            exact ⟨contents, (leaf ▸ linked.honest : evidence.Honest (.regular contents stat)), shows⟩
          · cases returned
            exact ⟨count, contents, stat, contents, _, leaf, shows, .here _ _, by rw [leaf]; rfl⟩
  · rw [if_neg matched] at honestAfter ⊢
    exact rebuilds (fun accepted => matched accepted.1) honestAfter

/-- Every harmless step keeps the record linked. -/
theorem ExcludeEvidence.Reached.linked (reached : evidence.Reached search printable (ExcludeAction.Harmless blake3 search printable) world) :
    evidence.Linked search printable world := by
  induction reached with
  | start unrecorded honest paths =>
    refine ⟨honest, paths, fun found recorded => ?_⟩
    rw [unrecorded] at recorded
    cases recorded
  | @step world _ action assumed harmless ih =>
    obtain ⟨honest, assumed⟩ := assumed
    cases action with
    | refresh table desired => exact ⟨honest, assumed, ih.recorded⟩
    | sync patterns faults fs =>
      obtain ⟨table, desired, recorded, -⟩ := sync_spec ih assumed harmless honest
      refine ⟨honest, ?_, recorded⟩
      change evidence.pathsAt (syncFromStoreFastPath blake3 search printable patterns faults fs world.store world.leaf).1.1.desiredFingerprint =
        (syncFromStoreFastPath blake3 search printable patterns faults fs world.store world.leaf).1.1.table.desiredPaths
      rw [table, desired]
      exact ih.paths
    | render body dryRun fs => exact ⟨honest, ih.paths, ih.recorded⟩
    | removeBlock fs => exact ⟨honest, ih.paths, ih.recorded⟩
    | edit leaf => exact ⟨honest, ih.paths, ih.recorded⟩

end Runs

/-- What a sync that returns stands for: its count is that of the body of the current rows and patterns, and the first block of the file is
that body in some style, with the text around it as it stood. -/
def Accepted (blake3 : ContentHash) (search : IgnoreSearch) (printable : Char → Bool) (patterns : List GitIgnorePattern) (faults : StoreFaults)
    (fs : ExcludeFs) (world : ExcludeWorld) : Prop :=
  ∀ after status, syncFromStoreFastPath blake3 search printable patterns faults fs world.store world.leaf = (after, .ok status) →
    ∃ body, (bodyFromStore search printable patterns world.store.table : Except Empty ExcludeBody) = .ok body ∧ after.1.table = world.store.table ∧
      status.count = body.count ∧ Faithful fs world.leaf body.body after.2

/-- In every run of lock refreshes, pattern changes, syncs, renders, removals and edits, failures and racing writers included, in which no
sync replaces text of the user in which the terminator of an install completes a pair, a sync that returns by stat proof, by block identity or by
rebuild leaves the current body. -/
theorem exclude_fast_path_current {blake3 : ContentHash} {search : IgnoreSearch} {printable : Char → Bool} (evidence : ExcludeEvidence blake3)
    {world : ExcludeWorld} (reached : evidence.Reached search printable (ExcludeAction.Harmless blake3 search printable) world) {patterns : List GitIgnorePattern}
    {faults : StoreFaults} {fs : ExcludeFs} (assumed : evidence.Assumes search printable (.sync patterns faults fs) world)
    (harmless : ExcludeAction.Harmless blake3 search printable (.sync patterns faults fs) world) : Accepted blake3 search printable patterns faults fs world := by
  intro after status done
  obtain ⟨table, -, -, accepted⟩ := @sync_spec blake3 search printable evidence patterns fs faults world reached.linked assumed.2 harmless assumed.1
  rw [done] at table accepted
  obtain ⟨count, faithful⟩ := accepted status rfl
  exact ⟨_, bodyFromStore_eq_rebuilt _, table, count, faithful⟩

namespace SampleExclude

def matcher : IgnoreSearch := fun _ _ _ => none

def letters : Char → Bool := fun _ => true

def desired : List.Vector UInt8 32 := .replicate 32 0

def faults : StoreFaults := ⟨false, false, false, false, false⟩

/-- No other program writes, and a replaced file gets the stat. -/
def writing (stat : StatProof) : ExcludeFs := ⟨fun _ leaf => leaf, some stat, true⟩

/-- Some files, and the two texts that a sync of a body without patterns hashes. -/
def known (files : List (StatProof × Str)) (paths : List GatPath) (body : Str)
    (apart : ContentHash.sample body ≠ ContentHash.sample (fingerprintInput desired [])) : ExcludeEvidence .sample where
  bytesAt stat := (files.find? fun file => file.1 = stat).map Prod.snd
  pathsAt _ := paths
  Hashed text := text = body ∨ text = fingerprintInput desired []
  collisionFree := by
    rintro first second (rfl | rfl) (rfl | rfl) same
    · rfl
    · exact absurd same apart
    · exact absurd same.symm apart
    · rfl

end SampleExclude

/-! ## A block that is installed, edited around and accepted -/

namespace EditedAround

open SampleExclude

def tracked : StateTable := StateTable.upsertEntries .empty .sample LockShardLevels.FLAT [⟨.a, .filled 1⟩]

def body : Str := ascii "/a\n"

def user : Str := ascii "user\n"

def installed : Str := user ++ BEGIN ++ ascii "\n" ++ body ++ END ++ ascii "\n"

def edited : Str := installed ++ ascii "more\n"

def first : StatProof := ⟨5, 0, 0⟩

def second : StatProof := ⟨35, 1, 0⟩

def third : StatProof := ⟨40, 2, 0⟩

theorem apart : ContentHash.sample body ≠ ContentHash.sample (fingerprintInput desired []) := by decide

def grounds : ExcludeEvidence .sample := known [(first, user), (second, installed), (third, edited)] [.a] body apart

def untouched : ExcludeWorld := ⟨⟨tracked, desired, .empty⟩, .regular user first⟩

def sync : ExcludeAction := .sync [] faults (writing second)

/-- A sync, and a line of the user behind its block. -/
def world : ExcludeWorld :=
  ExcludeAction.apply .sample matcher letters (sync.apply .sample matcher letters untouched) (.edit (.regular edited third))

/-- A sync under the same conditions. -/
def result (some' : ExcludeWorld) : (ExcludeStore × InfoExcludeLeaf) × Outcome ExcludesError SyncStatus :=
  syncFromStoreFastPath .sample matcher letters [] faults (writing second) some'.store some'.leaf

def replaced (some' : ExcludeWorld) : Option Str :=
  installedText .sample matcher letters [] faults (writing second) some'.store some'.leaf

/-- The first sync installs the block behind the text of the user, the second accepts it. -/
theorem syncs :
    (replaced untouched = some user ∧ (result untouched).1.2 = .regular installed second ∧ (result untouched).2 = .ok ⟨true, 1⟩) ∧
      (replaced world = none ∧ (result world).1.2 = .regular edited third ∧ (result world).2 = .ok ⟨false, 1⟩ ∧
        (result world).1.1.record.proof = some third ∧ world.store.table = tracked ∧ world.store.desiredFingerprint = desired) ∧
      rebuiltBody matcher letters [] tracked.desiredPaths = ⟨body, 1⟩ := by
  decide +kernel

theorem blocks : (extractBody BEGIN END (user ++ separator user) : Outcome InfoExcludeError (Option Str)) = .ok none ∧
    (extractBody BEGIN END user : Outcome InfoExcludeError (Option Str)) = .ok none ∧
    (extractBody BEGIN END edited : Outcome InfoExcludeError (Option Str)) = .ok (some body) := by
  decide +kernel

/-- Both syncs see the one tracked path. -/
theorem assumesSync {some' : ExcludeWorld} (table : some'.store.table = tracked) (fingerprint : some'.store.desiredFingerprint = desired)
    (block : ∀ contents stat inner, some'.leaf = .regular contents stat →
      (extractBody BEGIN END contents : Outcome InfoExcludeError (Option Str)) = .ok (some inner) → inner = body) :
    grounds.AssumesSync matcher letters [] (writing second) some' where
  addressable _ member := absurd member List.not_mem_nil
  races _ _ honest := honest
  input := .inr (by rw [fingerprint])
  body body' rendered := by
    rw [bodyFromStore_eq_rebuilt, table, syncs.2.2] at rendered
    cases rendered
    exact ⟨.inl rfl, by decide⟩
  block contents stat inner leaf extracted := .inl (block contents stat inner leaf extracted)

theorem assumed_first : grounds.Assumes matcher letters sync untouched := by
  refine ⟨?_, assumesSync rfl rfl fun contents stat inner leaf extracted => ?_⟩
  · change grounds.Honest (result untouched).1.2
    rw [syncs.1.2.1]
    rfl
  · cases leaf
    cases blocks.2.1.symm.trans extracted

theorem harmless_first : ExcludeAction.Harmless .sample matcher letters sync untouched := by
  intro text found completes
  obtain rfl := Option.some.inj (syncs.1.1.symm.trans found)
  obtain ⟨before, opening, inner, closing, after, pair⟩ := completes.2.exists_firstPair markers_exclude.distinct
  cases (pair.extractBody_eq markers_exclude).symm.trans blocks.1

theorem reached : grounds.Reached matcher letters (ExcludeAction.Harmless .sample matcher letters) world := by
  have start : grounds.Reached matcher letters (ExcludeAction.Harmless .sample matcher letters) untouched := .start rfl rfl (by decide)
  have honest : grounds.Honest (.regular edited third) := rfl
  have installed := start.step sync assumed_first harmless_first
  exact installed.step (.edit (.regular edited third)) ⟨honest, trivial⟩ trivial

end EditedAround

open SampleExclude EditedAround in
/-- After an install and an edit outside the block the next sync accepts the block by its identity, and records the new stat. -/
theorem exclude_fast_path_current_edited :
    (result untouched).2 = .ok ⟨true, 1⟩ ∧ (result world).2 = .ok ⟨false, 1⟩ ∧ (result world).1.1.record.proof = some third ∧
      Accepted .sample matcher letters [] faults (writing second) world := by
  obtain ⟨⟨-, -, installed⟩, ⟨none, leaf, returned, recorded, table, fingerprint⟩, -⟩ := syncs
  refine ⟨installed, returned, recorded, exclude_fast_path_current grounds reached ⟨?_, ?_⟩ ?_⟩
  · change grounds.Honest (result world).1.2
    rw [leaf]
    rfl
  · refine assumesSync table fingerprint fun contents stat inner isLeaf extracted => ?_
    cases isLeaf
    exact Option.some.inj (Except.ok.inj (extracted.symm.trans blocks.2.2))
  · intro text found
    cases none.symm.trans found

/-! ## An unfinished pair -/

namespace Unfinished

open SampleExclude

/-- An opening marker and a closing marker that ends in a bare carriage return. -/
def contents : Str := BEGIN ++ ascii "\nx\n" ++ END ++ [Byte.carriageReturn]

def installed : Str := contents ++ ascii "\n" ++ BEGIN ++ ascii "\n" ++ END ++ ascii "\n"

def earlier : StatProof := ⟨30, 0, 0⟩

def later : StatProof := ⟨59, 1, 0⟩

theorem apart : ContentHash.sample [] ≠ ContentHash.sample (fingerprintInput desired []) := by decide

def grounds : ExcludeEvidence .sample := known [(earlier, contents), (later, installed)] [] [] apart

/-- Nothing is tracked. -/
def world : ExcludeWorld := ⟨⟨.empty, desired, .empty⟩, .regular contents earlier⟩

theorem bodyFromStore_bare : (bodyFromStore matcher letters [] .empty : Except Empty ExcludeBody) = .ok ⟨[], 0⟩ := bodyFromStore_eq_rebuilt _

def result : (ExcludeStore × InfoExcludeLeaf) × Outcome ExcludesError SyncStatus :=
  syncFromStoreFastPath .sample matcher letters [] faults (writing later) world.store world.leaf

theorem installs : (result.1.2 = .regular installed later ∧ result.2 = .ok ⟨true, 0⟩) ∧
    (extractBody BEGIN END contents : Outcome InfoExcludeError (Option Str)) = .ok none ∧
    (extractBody BEGIN END installed : Outcome InfoExcludeError (Option Str)) = .ok (some (ascii "x\n")) := by
  decide +kernel

theorem assumed : grounds.Assumes matcher letters (.sync [] faults (writing later)) world := by
  refine ⟨?_, fun _ member => absurd member List.not_mem_nil, fun _ _ honest => honest, .inr rfl, fun body rendered => ?_,
    fun text stat inner isLeaf extracted => ?_⟩
  · change grounds.Honest result.1.2
    rw [installs.1.1]
    rfl
  · obtain rfl := Except.ok.inj (bodyFromStore_bare.symm.trans rendered)
    exact ⟨.inl rfl, by decide⟩
  · cases isLeaf
    cases installs.2.1.symm.trans extracted

end Unfinished

open SampleExclude Unfinished in
/-- The text of the user has no closing marker line until a line feed is put behind it. Its block stands before the one that the sync installs
and records. -/
theorem exclude_fast_path_shows_stale : ¬∀ (blake3 : ContentHash) (search : IgnoreSearch) (printable : Char → Bool) (evidence : ExcludeEvidence blake3)
    (world : ExcludeWorld), evidence.Reached search printable (fun _ _ => True) world →
      ∀ (patterns : List GitIgnorePattern) (faults : StoreFaults) (fs : ExcludeFs), evidence.Assumes search printable (.sync patterns faults fs) world →
        Accepted blake3 search printable patterns faults fs world := by
  intro claimed
  have returned : result = (result.1, .ok ⟨true, 0⟩) := by rw [← installs.1.2]
  obtain ⟨body, rendered, -, -, found, stat, existing, stood, isFound, ⟨before, opening, inner, closing, after, pair, ⟨eol, shown⟩, -⟩, -⟩ :=
    claimed .sample matcher letters grounds world (.start rfl rfl rfl) [] faults (writing later) assumed _ _ returned
  obtain rfl := Except.ok.inj (bodyFromStore_bare.symm.trans rendered)
  rw [installs.1.1] at isFound
  obtain ⟨rfl, -⟩ := InfoExcludeLeaf.regular.inj isFound
  have blocked := installs.2.2
  rw [pair.extractBody_eq markers_exclude, shown] at blocked
  cases eol <;> cases blocked

end Gat
