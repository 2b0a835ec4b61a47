import Gat.Proofs.CacheSweep
import Gat.Proofs.Gc

/-! # A collection never deletes a kept object

The sweep is given the keep set, and the keep set is the set of marked objects. A collection without an override only
gets to the sweep when nothing is missing, and then what is marked is what the locks reference. Marking can fail or be
cancelled at any place, and a sweep can stop at any call: what is to be kept stays.
-/

namespace Gat

section Decisions

variable {cancellation : Cancellation} {options : GcOptions} {keep : Finset Oid} {uncertain : Bool} {file : CachePlace × CacheLeaf}

theorem decideObject_eq_delete_iff {oid : Oid} :
    decideObject cancellation options keep uncertain oid = .ok .delete ↔
      cancellation.atDecision oid = false ∧ oid ∉ keep ∧ (uncertain = true → options.unsafeOverride = true) := by
  unfold decideObject
  by_cases cancelled : cancellation.atDecision oid
  · simp [cancelled]
  by_cases kept : oid ∈ keep
  · simp [cancelled, kept]
  by_cases refused : uncertain = true ∧ ¬options.unsafeOverride = true
  · simp [cancelled, kept, refused.1, refused.2]
  · rw [if_neg cancelled, if_neg kept, if_neg refused]
    simpa [cancelled, kept] using refused

/-- What a collection gives up is the place of an object that is not kept. -/
theorem doomed_decideObject_iff {dryRun : Bool} : doomed dryRun (decideObject cancellation options keep uncertain) file = true ↔
    dryRun = false ∧ ∃ oid, file.1 = objectKey oid ∧ cancellation.atDecision oid = false ∧ oid ∉ keep ∧
      (uncertain = true → options.unsafeOverride = true) := by
  unfold doomed
  rw [Bool.and_eq_true, Bool.not_eq_true', Option.any_eq_true]
  refine and_congr_right fun _ => exists_congr fun oid => and_congr canonicalOid_eq_some_iff ?_
  rw [← decideObject_eq_delete_iff]
  rcases decideObject cancellation options keep uncertain oid with error | (_ | _ | _) <;> simp

end Decisions

section Local

variable {kernel : Kernel} {blake3 : ContentHash} {repo : GcRepository} {peers : GcPeers} {options : GcOptions}
  {order : InspectionOrder} {concurrency : ℕ+} {cancellation : Cancellation} {faults : SweepFaults} {cache : Option CacheNamespace}

variable (kernel blake3 order concurrency cancellation faults cache) in
/-- A collection that does not get to the sweep changes nothing, and every other one sweeps with the marked objects. -/
theorem gcLocal_cases (regular : GcRegular repo peers options) :
    (∃ fault, gcLocal kernel blake3 repo peers order concurrency cancellation options faults cache = (cache, .error fault)) ∨
      ∃ keep uncertain, cancellation.afterMarking = false ∧ (∀ oid, oid ∈ keep ↔ GcMarks repo peers options oid) ∧
        (uncertain = false ↔ GcComplete repo peers options) ∧
        (options.dryRun = false → options.unsafeOverride = false → GcComplete repo peers options) ∧
        let swept := sweepObjects faults options.dryRun (decideObject cancellation options keep uncertain) cache
        let done := gcLocal kernel blake3 repo peers order concurrency cancellation options faults cache
        done.1 = swept.1 ∧ ((∃ report, done.2 = .ok report) ↔ ∃ stats, swept.2 = .ok stats) := by
  unfold gcLocal
  cases computed : computeKeepSet kernel blake3 repo peers order concurrency cancellation options .localCache with
  | error fault => exact Or.inl ⟨fault, rfl⟩
  | ok result =>
    obtain ⟨keep, shallow, incomplete⟩ := result
    obtain ⟨uncancelled, marks, complete, strict⟩ := computeKeepSet_ok regular computed
    refine Or.inr ⟨keep, shallow || incomplete ≠ 0, uncancelled, marks, ?_, strict, ?_⟩
    · rw [← complete]
      simp
    · dsimp only
      rcases (sweepObjects faults options.dryRun (decideObject cancellation options keep (shallow || incomplete ≠ 0)) cache).2 with
        (error | error) | stats
      · exact ⟨rfl, iff_of_false nofun nofun⟩
      · exact ⟨rfl, iff_of_false nofun nofun⟩
      · exact ⟨rfl, iff_of_true ⟨_, rfl⟩ ⟨_, rfl⟩⟩

variable (kernel blake3 order concurrency cancellation faults cache) in
/-- Files that are given up are those of unmarked objects; all others stay, wherever the collection stops. -/
theorem gcLocal_retains (regular : GcRegular repo peers options) :
    (cacheFiles (gcLocal kernel blake3 repo peers order concurrency cancellation options faults cache).1).Sublist (cacheFiles cache) ∧
      (∀ file ∈ cacheFiles cache, (∀ oid, file.1 = objectKey oid → GcMarks repo peers options oid) →
        file ∈ cacheFiles (gcLocal kernel blake3 repo peers order concurrency cancellation options faults cache).1) ∧
      (∀ path, HasOther cache path → HasOther (gcLocal kernel blake3 repo peers order concurrency cancellation options faults cache).1 path) := by
  rcases gcLocal_cases kernel blake3 order concurrency cancellation faults cache regular with ⟨fault, stopped⟩ | ⟨keep, uncertain, -, marks, -, -, swept, -⟩
  · rw [stopped]
    exact ⟨List.Sublist.refl _, fun file member _ => member, fun path => id⟩
  · have spares := sweepObjects_spares faults options.dryRun (decideObject cancellation options keep uncertain) cache
    rw [swept]
    refine ⟨spares.shrunk, fun file member marked => spares.retained.subset (List.mem_filter.mpr ⟨member, ?_⟩), fun path =>
      sweepObjects_hasOther⟩
    rw [Bool.not_eq_true', Bool.eq_false_iff, Ne, doomed_decideObject_iff]
    rintro ⟨-, oid, place, -, unkept, -⟩
    exact unkept ((marks oid).mpr (marked oid place))

/-- A collection that changes a cache without an override has seen everything, and was not cancelled before the sweep. -/
theorem gcLocal_changed (regular : GcRegular repo peers options)
    (changed : cacheFiles (gcLocal kernel blake3 repo peers order concurrency cancellation options faults cache).1 ≠ cacheFiles cache) :
    cancellation.afterMarking = false ∧ options.dryRun = false ∧
      (options.unsafeOverride = false → GcComplete repo peers options) := by
  rcases gcLocal_cases kernel blake3 order concurrency cancellation faults cache regular with ⟨fault, stopped⟩ | ⟨keep, uncertain, uncancelled, -, -, strict, swept, -⟩
  · rw [stopped] at changed
    exact absurd rfl changed
  · have real : options.dryRun = false := by
      by_contra dry
      rw [swept, Bool.eq_true_of_not_eq_false dry, sweepObjects_dryRun] at changed
      exact changed rfl
    exact ⟨uncancelled, real, strict real⟩

open scoped Classical in
/-- A collection that runs to its end without an override has deleted exactly the objects that no lock references. -/
theorem gcLocal_exact (regular : GcRegular repo peers options) (real : options.dryRun = false) (strict : options.unsafeOverride = false)
    {report : GcReport}
    (done : (gcLocal kernel blake3 repo peers order concurrency cancellation options faults cache).2 = .ok report) :
    GcComplete repo peers options ∧
      cacheFiles (gcLocal kernel blake3 repo peers order concurrency cancellation options faults cache).1 =
        (cacheFiles cache).filter fun file => ∀ oid, file.1 = objectKey oid → GcReferences repo peers options oid := by
  rcases gcLocal_cases kernel blake3 order concurrency cancellation faults cache regular with ⟨fault, stopped⟩ | ⟨keep, uncertain, -, marks, certain, complete, swept, ended⟩
  · rw [stopped] at done
    cases done
  · have whole := complete real strict
    have sure := certain.mpr whole
    obtain ⟨stats, sweep⟩ := ended.mp ⟨report, done⟩
    have spares := sweepObjects_spares faults options.dryRun (decideObject cancellation options keep uncertain) cache
    rw [sweep] at spares
    obtain ⟨decided, exact⟩ := spares.complete rfl
    refine ⟨whole, swept ▸ exact.trans (List.filter_congr fun file member => ?_)⟩
    rw [Bool.eq_iff_iff, Bool.not_eq_true', Bool.eq_false_iff, Ne, doomed_decideObject_iff, decide_eq_true_iff]
    constructor
    · intro stays oid place
      rw [← whole.marks_iff, ← marks]
      by_contra unkept
      refine stays ⟨real, oid, place, ?_, unkept, fun doubt => ?_⟩
      · -- a cancelled decision has no outcome
        by_contra cancelled
        obtain ⟨decision, isDecided⟩ := decided file member oid (canonicalOid_eq_some_iff.mpr place)
        unfold decideObject at isDecided
        rw [if_pos (Bool.eq_true_of_not_eq_false cancelled)] at isDecided
        cases isDecided
      · rw [sure] at doubt
        cases doubt
    · rintro references ⟨-, oid, place, -, unkept, -⟩
      exact unkept ((marks oid).mpr (whole.marks_iff.mpr (references oid place)))

variable (order concurrency) in
/-- A complete collection of an undisturbed cache runs to its end. -/
theorem gcLocal_ends (regular : GcRegular repo peers options) (complete : GcComplete repo peers options)
    (marking : cancellation.afterMarking = false) (sweeping : ∀ oid, cancellation.atDecision oid = false)
    {visited : List Entry} (readable : repo.lock.visitRepository kernel blake3 none (fun _ => true) = .ok visited)
    (plain : ∀ file ∈ cacheFiles cache, ∀ oid, file.1 = objectKey oid → file.2 ≠ .directory) :
    ∃ report, (gcLocal kernel blake3 repo peers order concurrency cancellation options .none cache).2 = .ok report := by
  obtain ⟨keep, computed⟩ := computeKeepSet_of_complete order concurrency .localCache regular complete marking readable
  obtain ⟨stats, swept⟩ : ∃ stats, (sweepObjects .none options.dryRun
      (decideObject cancellation options keep (false || (0 : ℕ) ≠ 0)) cache).2 = .ok stats := by
    refine sweepObjects_ok fun file member oid place => ⟨?_, plain file member oid (canonicalOid_eq_some_iff.mp place)⟩
    unfold decideObject
    rw [if_neg (by simp [sweeping])]
    split_ifs
    · exact ⟨_, rfl⟩
    · exact ⟨_, rfl⟩
    · exact ⟨_, rfl⟩
  unfold gcLocal
  rw [computed]
  dsimp only
  rw [swept]
  exact ⟨_, rfl⟩

variable {hashOrder : HashOrder Oid} {remote : GcRemote}

/-- What is gone from a remote was listed by it in a complete listing and is not marked. -/
theorem gcRemote_deletes (regular : GcRegular repo peers options) {oid : Oid}
    (gone : oid ∈ (gcRemote kernel blake3 repo peers order concurrency cancellation options hashOrder remote).1) :
    cancellation.afterMarking = false ∧ options.dryRun = false ∧ options.unsafeOverride = true ∧
      (∃ batches : List (List Oid), remote.listing = batches.map Except.ok ∧ oid ∈ batches.flatten) ∧ ¬GcMarks repo peers options oid := by
  unfold gcRemote at gone
  by_cases refused : ¬options.dryRun = true ∧ ¬options.unsafeOverride = true
  · rw [if_pos refused] at gone
    cases gone
  rw [if_neg refused] at gone
  cases resolved : remote.resolved with
  | error error =>
    rw [resolved] at gone
    cases gone
  | ok _ =>
    rw [resolved] at gone
    dsimp only at gone
    cases computed : computeKeepSet kernel blake3 repo peers order concurrency cancellation options .remote with
    | error fault =>
      rw [computed] at gone
      cases gone
    | ok result =>
      obtain ⟨keep, shallow, incomplete⟩ := result
      obtain ⟨uncancelled, marks, -, -⟩ := computeKeepSet_ok regular computed
      rw [computed] at gone
      dsimp only at gone
      cases opened : remote.opened with
      | error error =>
        rw [opened] at gone
        cases gone
      | ok _ =>
        rw [opened] at gone
        dsimp only at gone
        cases collected : collectRemoteCandidates keep remote.listing with
        | error error =>
          rw [collected] at gone
          cases gone
        | ok candidates =>
          rw [collected] at gone
          dsimp only at gone
          by_cases doubtful : (shallow = true ∨ incomplete ≠ 0) ∧ ¬options.unsafeOverride = true
          · rw [if_pos doubtful] at gone
            cases gone
          rw [if_neg doubtful] at gone
          by_cases dry : options.dryRun
          · rw [if_pos dry] at gone
            cases gone
          rw [if_neg dry] at gone
          have removed : oid ∈ (deleteRemoteCandidates remote.deletion cancellation (hashOrder.list candidates.oids)).1 := by
            rcases deletion : deleteRemoteCandidates remote.deletion cancellation (hashOrder.list candidates.oids) with ⟨removed, error | deleted⟩
            · rw [deletion] at gone
              exact gone
            · rw [deletion] at gone
              exact gone
          have candidate := (hashOrder.mem_list _ _).mp (deleteRemoteCandidates_removed oid removed)
          obtain ⟨batches, listed, exact⟩ := collectRemoteCandidates_ok collected
          obtain ⟨isListed, unkept⟩ := (exact oid).mp candidate
          refine ⟨uncancelled, Bool.eq_false_iff.mpr dry, ?_, ⟨batches, listed, isListed⟩, fun marked => unkept ((marks oid).mpr marked)⟩
          by_contra strict
          exact refused ⟨dry, strict⟩

open scoped Classical in
/-- A collection deletes no marked object, from the cache or from a remote, and nothing else than objects. Without an override
it deletes from the cache exactly the objects that no lock references, and only when nothing was missing or shallow; it
deletes from a remote only with an override and after a complete listing. Nothing goes once marking was cancelled. -/
theorem garbage_collection_keeps_locked (regular : GcRegular repo peers options) :
    let collected := gcLocal kernel blake3 repo peers order concurrency cancellation options faults cache
    let deleted := (gcRemote kernel blake3 repo peers order concurrency cancellation options hashOrder remote).1
    ((cacheFiles collected.1).Sublist (cacheFiles cache) ∧ (∀ path, HasOther cache path → HasOther collected.1 path) ∧
        ∀ file ∈ cacheFiles cache, (∀ oid, file.1 = objectKey oid → GcMarks repo peers options oid) → file ∈ cacheFiles collected.1) ∧
      (options.unsafeOverride = false →
        (cacheFiles collected.1 ≠ cacheFiles cache → GcComplete repo peers options) ∧
        (∀ file ∈ cacheFiles cache, (∀ oid, file.1 = objectKey oid → GcReferences repo peers options oid) → file ∈ cacheFiles collected.1) ∧
        ∀ report, options.dryRun = false → collected.2 = .ok report → GcComplete repo peers options ∧
          cacheFiles collected.1 = (cacheFiles cache).filter fun file => ∀ oid, file.1 = objectKey oid → GcReferences repo peers options oid) ∧
      (GcComplete repo peers options → cancellation.afterMarking = false → (∀ oid, cancellation.atDecision oid = false) →
        (∃ visited, repo.lock.visitRepository kernel blake3 none (fun _ => true) = .ok visited) →
        (∀ file ∈ cacheFiles cache, ∀ oid, file.1 = objectKey oid → file.2 ≠ .directory) → faults = .none →
        ∃ report, collected.2 = .ok report) ∧
      (cancellation.afterMarking = true ∨ options.dryRun = true → cacheFiles collected.1 = cacheFiles cache ∧ deleted = []) ∧
      ∀ oid ∈ deleted, options.unsafeOverride = true ∧
        (∃ batches : List (List Oid), remote.listing = batches.map Except.ok ∧ oid ∈ batches.flatten) ∧ ¬GcMarks repo peers options oid := by
  intro collected deleted
  obtain ⟨shrunk, marked, others⟩ := gcLocal_retains kernel blake3 order concurrency cancellation faults cache regular
  have changed : cacheFiles collected.1 ≠ cacheFiles cache → cancellation.afterMarking = false ∧ options.dryRun = false ∧
    (options.unsafeOverride = false → GcComplete repo peers options) := gcLocal_changed regular
  refine ⟨⟨shrunk, others, marked⟩, fun strict => ⟨fun change => (changed change).2.2 strict, fun file member references => ?_,
    fun report real done => gcLocal_exact regular real strict done⟩, ?_, fun stopped => ⟨?_, ?_⟩, fun oid gone => ?_⟩
  · by_cases same : cacheFiles collected.1 = cacheFiles cache
    · exact same ▸ member
    · exact marked file member fun oid place => ((changed same).2.2 strict).marks_iff.mpr (references oid place)
  · rintro complete marking sweeping ⟨visited, readable⟩ plain rfl
    exact gcLocal_ends order concurrency regular complete marking sweeping readable plain
  · by_contra change
    obtain ⟨running, real, -⟩ := changed change
    rcases stopped with cancelled | dry
    · exact absurd cancelled (by simp [running])
    · exact absurd dry (by simp [real])
  · refine List.eq_nil_iff_forall_not_mem.mpr fun oid gone => ?_
    obtain ⟨running, real, -⟩ := gcRemote_deletes regular gone
    rcases stopped with cancelled | dry
    · exact absurd cancelled (by simp [running])
    · exact absurd dry (by simp [real])
  · obtain ⟨-, -, override, listed, unmarked⟩ := gcRemote_deletes regular gone
    exact ⟨override, listed, unmarked⟩

end Local

/-! ## An object of an old commit -/

namespace HistoricalObject

def entry : Entry := ⟨.a, .filled 1⟩

/-- A commit with a flat lock. -/
def objects : GitObjects where
  findCommit _ := some []
  findTree _ := some [⟨ascii "gat.lock", .blob, [1]⟩]
  files _ := none
  findBlob _ := some (render [entry])

def git : GitRepository := ⟨objects, fun _ => .ok ⟨[[0]], false⟩⟩

def repo : GcRepository := ⟨⟨.missing, .empty⟩, git⟩

def peers : GcPeers := ⟨fun _ => none, fun _ => none⟩

def options : GcOptions := ⟨false, false, [], some .tips⟩

def place (oid : Oid) : FileName × CacheNode (CacheNode CacheLeaf) :=
  ((objectKey oid).1, .directory [((objectKey oid).2.1, .directory [((objectKey oid).2.2, .file [])])])

def unreferenced : Oid := .filled 2

theorem lockBlobs_eq (commit : GitObjectId) : objects.lockBlobs commit = .ok [[1]] := rfl

theorem regular : GcRegular repo peers options where
  history selection _ history resolved := by
    cases resolved
    refine ⟨fun commit _ found looked => ?_, fun commit _ found looked isTree => ?_⟩
    · cases looked
      exact Or.inl rfl
    · cases looked
      cases isTree
  peers := nofun

theorem holds : objects.BlobHolds [1] [entry] :=
  ⟨render [entry], rfl, FileHolds.render (List.pairwise_singleton ..) (AncestorFree.separated_singleton _)⟩

theorem complete : GcComplete repo peers options where
  history selection _ := by
    refine ⟨_, rfl, rfl, fun commit _ => ⟨_, lockBlobs_eq commit, ?_⟩⟩
    rw [List.forall_mem_singleton]
    exact ⟨_, holds⟩
  peers := nofun

theorem references_iff (oid : Oid) : GcReferences repo peers options oid ↔ oid = entry.oid := by
  constructor
  · rintro (⟨_, member, -⟩ | ⟨_, -, history, resolved, commit, -, found, ⟨blobs, read, blob, listed, entries, document, member⟩, rfl⟩ | ⟨_, member, -⟩)
    · cases member
    · cases (lockBlobs_eq commit).symm.trans read
      cases List.mem_singleton.mp listed
      cases document.unique holds
      rw [List.mem_singleton.mp member]
    · cases member
  · rintro rfl
    exact Or.inr (Or.inl ⟨_, rfl, _, rfl, [0], List.mem_singleton_self _, entry,
      ⟨_, lockBlobs_eq _, [1], List.mem_singleton_self _, _, holds, List.mem_singleton_self _⟩, rfl⟩)

def hash : ContentHash := fun _ => List.Vector.replicate 32 0

def order : InspectionOrder := ⟨fun _ results => results, fun _ _ => .refl _⟩

def cancellation : Cancellation := ⟨false, false, fun _ => false, fun _ => false, id⟩

def remote : GcRemote := ⟨.ok (), .ok (), [], ⟨⟨1, Nat.one_pos⟩, fun _ => ⟨[], 0, none⟩, nofun⟩⟩

def cache : CacheNamespace := [place entry.oid, place unreferenced]

theorem files : cacheFiles (some cache) = [(objectKey entry.oid, .file []), (objectKey unreferenced, .file [])] := rfl

theorem plain : ∀ file ∈ cacheFiles (some cache), ∀ oid, file.1 = objectKey oid → file.2 ≠ .directory := by
  rw [files]
  intro file member oid _
  rcases List.mem_cons.mp member with rfl | member
  · exact nofun
  · cases List.mem_singleton.mp member
    exact nofun

end HistoricalObject

open HistoricalObject in
/-- An object that only an old commit references stays in the cache, and one that nothing references goes. -/
theorem garbage_collection_keeps_locked_historical :
    cacheFiles (gcLocal Kernel.scalar hash repo peers order 1 cancellation options .none (some cache)).1 = [(objectKey entry.oid, .file [])] := by
  let hashOrder : HashOrder Oid := ⟨Finset.toList, Finset.nodup_toList, fun _ _ => Finset.mem_toList⟩
  obtain ⟨-, strict, ends, -, -⟩ := @garbage_collection_keeps_locked Kernel.scalar hash repo peers options order 1 cancellation .none (some cache)
    hashOrder remote regular
  obtain ⟨report, done⟩ := ends complete rfl (fun _ => rfl) ⟨[], rfl⟩ plain rfl
  obtain ⟨-, exact⟩ := (strict rfl).2.2 report rfl done
  rw [exact]
  have kept : ∀ oid, objectKey entry.oid = objectKey oid → GcReferences repo peers options oid := by
    intro oid same
    rw [references_iff]
    exact objectKey_injective same.symm
  have lost : ¬∀ oid, objectKey unreferenced = objectKey oid → GcReferences repo peers options oid := by
    intro all
    have same := (references_iff _).mp (all unreferenced rfl)
    exact absurd same (by decide)
  rw [files, List.filter_cons_of_pos (by simpa using kept), List.filter_cons_of_neg (by simpa using lost), List.filter_nil]

/-! ## Reports -/

section Reports

variable {kernel : Kernel} {blake3 : ContentHash} {repo : GcRepository} {peers : GcPeers} {options : GcOptions}
  {order : InspectionOrder} {concurrency : ℕ+} {cancellation : Cancellation} {faults : SweepFaults} {cache : Option CacheNamespace}

/-- A collection that runs to its end reports how many files are gone, and a dry run in its place has the same report and deletes
nothing. -/
theorem dry_run_forecasts_collection {report : GcReport}
    (done : (gcLocal kernel blake3 repo peers order concurrency cancellation { options with dryRun := false } faults cache).2 = .ok report) :
    let collected := gcLocal kernel blake3 repo peers order concurrency cancellation { options with dryRun := false } faults cache
    let forecast := gcLocal kernel blake3 repo peers order concurrency cancellation { options with dryRun := true } faults cache
    (cacheFiles cache).length = (cacheFiles collected.1).length + report.deleted ∧
      forecast.2 = .ok report ∧ cacheFiles forecast.1 = cacheFiles cache := by
  unfold gcLocal at done ⊢
  cases computed : computeKeepSet kernel blake3 repo peers order concurrency cancellation { options with dryRun := false } .localCache with
  | error fault =>
    rw [computed] at done
    cases done
  | ok found =>
    obtain ⟨keep, shallow, incomplete⟩ := found
    rw [computed] at done
    rw [computeKeepSet_dryRun computed]
    dsimp only at done ⊢
    obtain ⟨decide, isDecide⟩ : ∃ decide, decide = decideObject cancellation { options with dryRun := true } keep (shallow || incomplete ≠ 0) :=
      ⟨_, rfl⟩
    have same : decideObject cancellation { options with dryRun := false } keep (shallow || incomplete ≠ 0) = decide := isDecide ▸ rfl
    rw [same] at done ⊢
    rw [← isDecide]
    cases swept : (sweepObjects faults false decide cache).2 with
    | error stopped =>
      rw [swept] at done
      cases stopped <;> cases done
    | ok stats =>
      obtain ⟨counted, forecast⟩ := sweepObjects_tallies swept
      rw [swept] at done
      rw [forecast]
      cases done
      exact ⟨counted, rfl, sweepObjects_dryRun cache⟩

/-- How the inspections of additional repositories are cut into batches, and in which order they finish, has no effect on a
collection: not on what is deleted, and not on what is reported. -/
theorem garbage_collection_ignores_schedule (other : InspectionOrder) (size : ℕ+) (hashOrder : HashOrder Oid) (remote : GcRemote) :
    gcLocal kernel blake3 repo peers order concurrency cancellation options faults cache =
        gcLocal kernel blake3 repo peers other size cancellation options faults cache ∧
      gcRemote kernel blake3 repo peers order concurrency cancellation options hashOrder remote =
        gcRemote kernel blake3 repo peers other size cancellation options hashOrder remote := by
  unfold gcLocal gcRemote
  rw [computeKeepSet_order order other concurrency size, computeKeepSet_order order other concurrency size]
  exact ⟨rfl, rfl⟩

end Reports

open HistoricalObject in
/-- One of two objects goes. -/
theorem dry_run_forecasts_collection_historical :
    ∃ report, (gcLocal Kernel.scalar hash repo peers order 1 cancellation { options with dryRun := true } .none (some cache)).2 = .ok report ∧
      (cacheFiles (some cache)).length =
        (cacheFiles (gcLocal Kernel.scalar hash repo peers order 1 cancellation options .none (some cache)).1).length + report.deleted := by
  obtain ⟨report, done⟩ := @gcLocal_ends Kernel.scalar hash repo peers options order 1 cancellation (some cache) regular complete rfl (fun _ => rfl) [] rfl plain
  obtain ⟨counted, forecast, -⟩ := @dry_run_forecasts_collection _ _ _ _ options _ _ _ _ _ _ done
  exact ⟨report, forecast, counted⟩

end Gat
