import Gat.Model.Gc
import Gat.Proofs.LockHistory
import Gat.Proofs.LockTree
import Gat.Proofs.SyncPlan
import Gat.Soundness.ShardedReading

/-! # What a collection keeps

The keep set is compared with what the locks reference. A lock that is read completely gives all its objects, a
repository that cannot be inspected leaves an issue, and the parallel inspections give the same keep set and the same
issues in whatever order they finish.
-/

namespace Gat

/-! ## References -/

/-- The object is in the lock of the working tree. -/
def LockRoot.References (root : LockRoot) (oid : Oid) : Prop :=
  ∃ file ∈ root.live.shardFiles.entries, ∃ entries, FileHolds file.2 entries ∧ ∃ entry ∈ entries, entry.oid = oid

namespace GitRepository

variable (git : GitRepository) (selection : HistorySelection)

/-- The object is in a lock of the selected history. -/
def References (oid : Oid) : Prop :=
  ∃ history, git.resolve selection = .ok history ∧ ∃ commit ∈ history.selected, ∃ entry, git.objects.Holds commit entry ∧ entry.oid = oid

/-- Every lock of the selected history can be read. -/
def Readable : Prop :=
  ∃ history, git.resolve selection = .ok history ∧ ∀ commit ∈ history.selected, git.objects.Readable commit

/-- Nothing of the selected history is missing or unreadable. -/
def Complete : Prop :=
  ∃ history, git.resolve selection = .ok history ∧ history.shallow = false ∧ ∀ commit ∈ history.selected, git.objects.Readable commit

/-- The locks of the selected history are blobs and trees of blobs. -/
def Regular : Prop := ∀ history, git.resolve selection = .ok history → git.objects.Regular history.selected

end GitRepository

/-- The repository at a location. -/
def GcPeers.repository (peers : GcPeers) (location : Str) : Option GitRepository :=
  (peers.parseLocation location).bind peers.prepareBareRepository

/-! ## Marking -/

section Marking

variable {kernel : Kernel} {blake3 : ContentHash}

theorem mem_mergeKeepSet {keep marked : Finset Oid} {oid : Oid} : oid ∈ mergeKeepSet keep marked ↔ oid ∈ keep ∨ oid ∈ marked := by
  unfold mergeKeepSet
  split_ifs
  · rw [Finset.mem_union, or_comm]
  · rw [Finset.mem_union]

theorem mem_markedOids {entries : List Entry} {oid : Oid} : oid ∈ (entries.map Entry.oid).toFinset ↔ ∃ entry ∈ entries, entry.oid = oid := by
  rw [List.mem_toFinset, List.mem_map]

theorem Held.fileHolds {files : List (LockShardId × Str)} {shards : List ResidentShard} {held : List (List Entry)}
    (all : Held blake3 files shards held) : List.Forall₂ (fun file entries => FileHolds file.2 entries) files held := by
  induction all with
  | nil => exact .nil
  | cons resident _ ih => exact .cons resident.holds ih

/-- The working lock is visited only as a whole. -/
theorem LockRoot.visitRepository_ok {root : LockRoot} {visited : List Entry}
    (done : root.visitRepository kernel blake3 none (fun _ => true) = .ok visited) {oid : Oid} :
    (∃ entry ∈ visited, entry.oid = oid) ↔ root.References oid := by
  obtain ⟨listed, -, rest⟩ := Outcome.bind_eq_ok_iff.mp done
  rw [LockTree.mapErr_eq_ok_iff, visitLockRowsValidated] at rest
  rcases shardTopology_cases (root.live.shardFiles.entries.map Prod.fst) with ⟨levels, one, uniform⟩ | ⟨⟨error, mixed⟩, -⟩
  · rw [one, Outcome.ok_bind] at rest
    obtain ⟨shards, read, rest⟩ := Outcome.bind_eq_ok_iff.mp rest
    obtain ⟨⟨⟩, accepted, rest⟩ := Outcome.bind_eq_ok_iff.mp rest
    obtain ⟨held, all⟩ := Held.of_decode read
    obtain ⟨merged, rows, -, -, perm, -⟩ := all.merged_of_certified (List.forall_mem_map.mp uniform) accepted
    simp only [Outcome.pure_eq_ok, Outcome.ok_bind, rows, List.filter_true] at rest
    cases rest
    have visits : (∃ entry ∈ merged.map fun row => (⟨row.1.1, row.1.2⟩ : Entry), entry.oid = oid) ↔ ∃ entries ∈ held, ∃ entry ∈ entries, entry.oid = oid := by
      have same : (∃ row ∈ merged.map Prod.fst, row.2 = oid) ↔ ∃ row ∈ (held.map viewRows).flatten, row.2 = oid := by
        simp only [perm.mem_iff]
      simpa [viewRows] using same
    rw [visits]
    have holds := all.fileHolds
    constructor
    · rintro ⟨entries, isHeld, entry⟩
      obtain ⟨file, isFile, document⟩ := List.exists_of_forall₂ holds.flip isHeld
      exact ⟨file, isFile, entries, document, entry⟩
    · rintro ⟨file, isFile, entries, document, entry⟩
      obtain ⟨others, isHeld, document'⟩ := List.exists_of_forall₂ holds isFile
      cases document.unique document'
      exact ⟨entries, isHeld, entry⟩
  · rw [mixed] at rest
    cases rest

variable {git : GitRepository} {selection : HistorySelection}

/-- A history that has been marked was read completely. -/
theorem markHistory_ok (regular : git.Regular selection) {keep : Finset Oid} {shallow : Bool}
    (done : markHistory kernel git selection = .ok (keep, shallow)) :
    (∃ history, git.resolve selection = .ok history ∧ history.shallow = shallow ∧ ∀ commit ∈ history.selected, git.objects.Readable commit) ∧
      ∀ oid, oid ∈ keep ↔ git.References selection oid := by
  obtain ⟨history, resolved, rest⟩ := Outcome.bind_eq_ok_iff.mp done
  obtain ⟨visited, walked, same⟩ := Outcome.bind_eq_ok_iff.mp rest
  rw [LockTree.mapErr_eq_ok_iff] at resolved walked
  cases same
  obtain ⟨readable, exact⟩ := GitObjects.visitHistoryLockEntries_ok (regular history resolved) walked
  refine ⟨⟨history, resolved, rfl, readable⟩, fun oid => ?_⟩
  rw [mem_markedOids]
  constructor
  · rintro ⟨entry, isVisited, same⟩
    obtain ⟨-, commit, selected, holds⟩ := (exact entry).mp isVisited
    exact ⟨history, resolved, commit, selected, entry, holds, same⟩
  · rintro ⟨other, again, commit, selected, entry, holds, same⟩
    cases resolved.symm.trans again
    exact ⟨entry, (exact entry).mpr ⟨rfl, commit, selected, holds⟩, same⟩

variable (kernel) in
theorem markHistory_of_readable {history : ResolvedHistory} (resolved : git.resolve selection = .ok history)
    (readable : ∀ commit ∈ history.selected, git.objects.Readable commit) :
    ∃ keep, markHistory kernel git selection = .ok (keep, history.shallow) := by
  obtain ⟨visited, walked⟩ :=
    GitObjects.visitHistoryLockEntries_of_readable kernel (fun _ => true) readable
  refine ⟨(visited.map Entry.oid).toFinset, ?_⟩
  rw [markHistory, LockTree.mapErr_eq_ok_iff.mpr resolved, Outcome.ok_bind, LockTree.mapErr_eq_ok_iff.mpr walked]
  rfl

/-- The own locks, and whether the own history is complete. -/
theorem markRepository_ok {repo : GcRepository} {history : Option HistorySelection} (regular : ∀ selection ∈ history, repo.git.Regular selection)
    {keep : Finset Oid} {shallow : Bool} (done : markRepository kernel blake3 repo history = .ok (keep, shallow)) :
    (shallow = false → ∀ selection ∈ history, repo.git.Complete selection) ∧
      ((∀ selection ∈ history, repo.git.Complete selection) → shallow = false) ∧
      ∀ oid, oid ∈ keep ↔ repo.lock.References oid ∨ ∃ selection ∈ history, repo.git.References selection oid := by
  have working (visited : List Entry) (visit : repo.lock.visitRepository kernel blake3 none (fun _ => true) = .ok visited) (oid : Oid) :
      oid ∈ (visited.map Entry.oid).toFinset ↔ repo.lock.References oid := mem_markedOids.trans (LockRoot.visitRepository_ok visit)
  cases history with
  | none =>
    obtain ⟨⟨⟩, ⟨⟩, rest⟩ := Outcome.bind_eq_ok_iff.mp done
    obtain ⟨visited, visit, same⟩ := Outcome.bind_eq_ok_iff.mp rest
    rw [LockTree.mapErr_eq_ok_iff] at visit
    cases same
    refine ⟨fun _ => nofun, fun _ => rfl, fun oid => ?_⟩
    rw [Finset.empty_union, working visited visit]
    simp
  | some selection =>
    obtain ⟨⟨marked, isShallow⟩, first, rest⟩ := Outcome.bind_eq_ok_iff.mp done
    obtain ⟨visited, visit, same⟩ := Outcome.bind_eq_ok_iff.mp rest
    rw [LockTree.mapErr_eq_ok_iff] at visit
    cases same
    obtain ⟨⟨found, resolved, isFound, readable⟩, exact⟩ := markHistory_ok (regular selection rfl) first
    refine ⟨fun complete => ?_, fun complete => ?_, fun oid => ?_⟩
    · rintro _ ⟨⟩
      exact ⟨found, resolved, isFound.trans complete, readable⟩
    · obtain ⟨other, again, whole, -⟩ := complete selection rfl
      cases resolved.symm.trans again
      exact isFound.symm.trans whole
    · rw [Finset.mem_union, working visited visit, exact, or_comm]
      simp

end Marking

/-! ## The parallel inspections -/

section Inspections

variable {α ρ : Type} {ε : Type}

/-- Every candidate is inspected once, and its result comes with its place. -/
theorem inspectInBoundedBatches_perm (order : FinishOrder (ℕ × ρ)) (batchSize : ℕ+) (inspect : α → ρ) (candidates : List α) :
    (inspectInBoundedBatches order batchSize inspect candidates).Perm (candidates.zipIdx.map fun candidate => (candidate.2, inspect candidate.1)) := by
  have batches : ((chunks batchSize candidates).zipIdx.flatMap fun batch =>
      batch.1.zipIdx.map fun candidate => (batch.2 * batchSize + candidate.2, inspect candidate.1)) =
      candidates.zipIdx.map fun candidate => (candidate.2, inspect candidate.1) := by
    rw [← flatten_chunks batchSize (candidates.zipIdx.map fun candidate => (candidate.2, inspect candidate.1)), List.flatMap_def]
    congr 1
    refine List.ext_getElem (by simp [chunks]) fun index _ _ => ?_
    simp only [chunks, List.length_map, List.length_zipIdx, List.getElem_map, List.getElem_zipIdx, List.getElem_range, Nat.zero_add]
    refine List.ext_getElem (by simp) fun place _ _ => ?_
    simp
  rw [← batches]
  exact List.Perm.flatMap_left _ fun batch _ => order.perm _ _

/-- The issue of a failed inspection. -/
def issueOf (result : ℕ × Outcome GcRepositoryIssue (Finset Oid)) : Option (ℕ × GcRepositoryIssue) :=
  match result.2 with
  | .error (.error issue) => some (result.1, issue)
  | _ => none

theorem foldlM_consumeInspection {results : List (ℕ × Outcome GcRepositoryIssue (Finset Oid))} (noPanic : ∀ result ∈ results, result.2 ≠ Outcome.panic)
    (keep : Finset Oid) (issues : List (ℕ × GcRepositoryIssue)) :
    ∃ kept, results.foldlM consumeInspection (keep, issues) = (.ok (kept, issues ++ results.filterMap issueOf) : Outcome ε _) ∧
      ∀ oid, oid ∈ kept ↔ oid ∈ keep ∨ ∃ result ∈ results, ∃ marked, result.2 = .ok marked ∧ oid ∈ marked := by
  induction results generalizing keep issues with
  | nil => exact ⟨keep, by simp, by simp⟩
  | cons result results ih =>
    rw [List.forall_mem_cons] at noPanic
    rw [List.foldlM_cons]
    obtain ⟨place, result⟩ := result
    rcases result with (issue | _) | marked
    · obtain ⟨kept, folded, exact⟩ := ih noPanic.2 keep (issues ++ [(place, issue)])
      refine ⟨kept, ?_, fun oid => ?_⟩
      · rw [List.append_assoc] at folded
        exact folded
      · rw [exact]
        simp
    · exact absurd rfl noPanic.1
    · obtain ⟨kept, folded, exact⟩ := ih noPanic.2 (mergeKeepSet keep marked) issues
      refine ⟨kept, folded, fun oid => ?_⟩
      rw [exact, mem_mergeKeepSet]
      simp [or_assoc]

theorem foldlM_consumeInspection_panic {results : List (ℕ × Outcome GcRepositoryIssue (Finset Oid))}
    (panics : ∃ result ∈ results, result.2 = Outcome.panic) (state : Finset Oid × List (ℕ × GcRepositoryIssue)) :
    results.foldlM consumeInspection state = (Outcome.panic : Outcome ε _) := by
  induction results generalizing state with
  | nil =>
    obtain ⟨_, member, -⟩ := panics
    cases member
  | cons result results ih =>
    rw [List.foldlM_cons]
    obtain ⟨place, result⟩ := result
    rcases result with (issue | _) | marked
    · exact ih (by simpa [Outcome.panic] using panics) _
    · rfl
    · exact ih (by simpa [Outcome.panic] using panics) _

/-- The locations that are left after the repetitions. -/
theorem mem_distinctLocations {locations : List Str} {seen : Finset Str} {location : Str} :
    location ∈ distinctLocations seen locations ↔ location ∈ locations ∧ location ∉ seen := by
  induction locations generalizing seen with
  | nil => simp [distinctLocations]
  | cons first locations ih =>
    unfold distinctLocations
    split_ifs with before
    · rw [ih, List.mem_cons]
      constructor
      · exact fun both => ⟨Or.inr both.1, both.2⟩
      · rintro ⟨rfl | later, new⟩
        · exact absurd before new
        · exact ⟨later, new⟩
    · rw [List.mem_cons, ih, List.mem_cons, Finset.mem_insert, not_or]
      constructor
      · rintro (rfl | ⟨later, -, new⟩)
        · exact ⟨Or.inl rfl, before⟩
        · exact ⟨Or.inr later, new⟩
      · rintro ⟨rfl | later, new⟩
        · exact Or.inl rfl
        · exact (em (location = first)).imp_right fun other => ⟨later, other, new⟩

end Inspections

section Peers

variable {kernel : Kernel} {blake3 : ContentHash} {peers : GcPeers} {options : GcOptions} {location : Str} {ε : Type}

/-- The repository at the location is there and complete. -/
def GcPeers.Complete (peers : GcPeers) (selection : HistorySelection) (location : Str) : Prop :=
  ∃ git, peers.repository location = some git ∧ git.Complete selection

/-- The object is in a lock of the repository at the location. -/
def GcPeers.References (peers : GcPeers) (selection : HistorySelection) (location : Str) (oid : Oid) : Prop :=
  ∃ git, peers.repository location = some git ∧ git.References selection oid

theorem inspectAdditionalRepository_eq {selection : HistorySelection} {git : GitRepository} (found : peers.repository location = some git) :
    inspectAdditionalRepository kernel peers selection location =
      completeRepositoryInspection location (markHistory kernel git selection) := by
  obtain ⟨parsed, isParsed, prepared⟩ := Option.bind_eq_some_iff.mp found
  unfold inspectAdditionalRepository
  simp only [isParsed, prepared]

theorem inspectAdditionalRepository_ok {selection : HistorySelection} {marked : Finset Oid}
    (regular : ∀ git, peers.repository location = some git → git.Regular selection)
    (done : inspectAdditionalRepository kernel peers selection location = .ok marked) :
    peers.Complete selection location ∧ ∀ oid, oid ∈ marked ↔ peers.References selection location oid := by
  cases found : peers.repository location with
  | none =>
    unfold inspectAdditionalRepository at done
    unfold GcPeers.repository at found
    cases parsed : peers.parseLocation location with
    | none =>
      simp only [parsed] at done
      cases done
    | some place =>
      rw [parsed, Option.bind_some] at found
      simp only [parsed, found] at done
      cases done
  | some git =>
    rw [inspectAdditionalRepository_eq found] at done
    obtain ⟨⟨keep, shallow⟩, inspected, rest⟩ := Outcome.bind_eq_ok_iff.mp done
    rw [LockTree.mapErr_eq_ok_iff] at inspected
    dsimp only at rest
    obtain ⟨⟨history, resolved, isShallow, readable⟩, exact⟩ := markHistory_ok (regular git found) inspected
    split_ifs at rest with partially
    · cases rest
    · cases rest
      refine ⟨⟨git, found, history, resolved, isShallow.trans (Bool.eq_false_iff.mpr partially), readable⟩, fun oid => ?_⟩
      rw [exact]
      refine ⟨fun references => ⟨git, found, references⟩, ?_⟩
      rintro ⟨other, again, references⟩
      cases found.symm.trans again
      exact references

variable (kernel) in
theorem inspectAdditionalRepository_of_complete {selection : HistorySelection} (complete : peers.Complete selection location) :
    ∃ marked, inspectAdditionalRepository kernel peers selection location = .ok marked := by
  obtain ⟨git, found, history, resolved, whole, readable⟩ := complete
  obtain ⟨keep, marked⟩ := markHistory_of_readable kernel resolved readable
  refine ⟨keep, ?_⟩
  rw [inspectAdditionalRepository_eq found, completeRepositoryInspection, LockTree.mapErr_eq_ok_iff.mpr marked, Outcome.ok_bind]
  simp [whole]

/-- The results of the distinct locations, in the order in which they are consumed. -/
def inspections (kernel : Kernel) (peers : GcPeers) (order : InspectionOrder) (concurrency : ℕ+) (options : GcOptions) :
    List (ℕ × Outcome GcRepositoryIssue (Finset Oid)) :=
  inspectInBoundedBatches order concurrency (inspectAdditionalRepository kernel peers options.selection)
    (distinctLocations ∅ options.repositories)

theorem exists_inspection_iff {order : InspectionOrder} {concurrency : ℕ+} {result : Outcome GcRepositoryIssue (Finset Oid)} :
    (∃ place, (place, result) ∈ inspections kernel peers order concurrency options) ↔
      ∃ location ∈ options.repositories, inspectAdditionalRepository kernel peers options.selection location = result := by
  have listed (location : Str) : location ∈ distinctLocations ∅ options.repositories ↔ location ∈ options.repositories := by
    rw [mem_distinctLocations]
    simp
  simp only [inspections, (inspectInBoundedBatches_perm ..).mem_iff, List.mem_map, Prod.mk.injEq, Prod.exists, ← listed]
  constructor
  · rintro ⟨place, location, _, member, -, same⟩
    exact ⟨location, List.fst_mem_of_mem_zipIdx member, same⟩
  · rintro ⟨location, member, same⟩
    obtain ⟨place, bound, isLocation⟩ := List.getElem_of_mem member
    exact ⟨place, location, place, List.mk_mem_zipIdx_iff_getElem?.mpr (isLocation ▸ List.getElem?_eq_getElem bound), rfl, same⟩

/-- The keep set with what every complete repository references, and an issue for each of the others. -/
theorem additionalRepositories_ok {order : InspectionOrder} {concurrency : ℕ+} {keep kept : Finset Oid} {issues : List GcRepositoryIssue}
    (regular : ∀ location ∈ options.repositories, ∀ git, peers.repository location = some git → git.Regular options.selection)
    (done : additionalRepositories kernel peers order concurrency options keep = (.ok (kept, issues) : Outcome ε _)) :
    (issues.length = 0 ↔ ∀ location ∈ options.repositories, peers.Complete options.selection location) ∧
      ∀ oid, oid ∈ kept ↔ oid ∈ keep ∨ ∃ location ∈ options.repositories, peers.Complete options.selection location ∧
        peers.References options.selection location oid := by
  obtain ⟨⟨kept', found⟩, folded, same⟩ := Outcome.bind_eq_ok_iff.mp done
  cases same
  have noPanic : ∀ result ∈ inspections kernel peers order concurrency options, result.2 ≠ Outcome.panic := by
    intro result member isPanic
    have panics : _ = (Outcome.panic : Outcome ε _) := foldlM_consumeInspection_panic ⟨result, member, isPanic⟩ (keep, [])
    cases folded.symm.trans panics
  obtain ⟨all, done', exact⟩ := foldlM_consumeInspection (ε := ε) noPanic keep []
  cases folded.symm.trans done'
  have ofResult : ∀ location ∈ options.repositories, ∃ place,
      (place, inspectAdditionalRepository kernel peers options.selection location) ∈ inspections kernel peers order concurrency options :=
    fun location member => exists_inspection_iff.mpr ⟨location, member, rfl⟩
  constructor
  · rw [List.length_map, List.length_mergeSort, List.nil_append, List.length_eq_zero_iff, List.filterMap_eq_nil_iff]
    constructor
    · intro none location member
      obtain ⟨place, isResult⟩ := ofResult location member
      have noIssue := none _ isResult
      have notPanic := noPanic _ isResult
      rcases inspected : inspectAdditionalRepository kernel peers options.selection location with (issue | _) | marked
      · simp [issueOf, inspected] at noIssue
      · exact absurd inspected notPanic
      · exact (inspectAdditionalRepository_ok (regular location member) inspected).1
    · intro complete result isResult
      obtain ⟨location, member, same⟩ := exists_inspection_iff.mp ⟨result.1, isResult⟩
      obtain ⟨marked, inspected⟩ := inspectAdditionalRepository_of_complete kernel (complete location member)
      unfold issueOf
      rw [← same, inspected]
  · intro oid
    rw [exact]
    refine or_congr_right ⟨?_, ?_⟩
    · rintro ⟨result, isResult, marked, isMarked, listed⟩
      obtain ⟨location, member, same⟩ := exists_inspection_iff.mp ⟨result.1, isResult⟩
      obtain ⟨complete, references⟩ := inspectAdditionalRepository_ok (regular location member) (same.trans isMarked)
      exact ⟨location, member, complete, (references oid).mp listed⟩
    · rintro ⟨location, member, complete, references⟩
      obtain ⟨marked, inspected⟩ := inspectAdditionalRepository_of_complete kernel complete
      obtain ⟨place, isResult⟩ := ofResult location member
      exact ⟨_, isResult, marked, inspected, ((inspectAdditionalRepository_ok (regular location member) inspected).2 oid).mpr references⟩

/-- No two results have one place. -/
theorem inspections_nodup (order : InspectionOrder) (concurrency : ℕ+) :
    ((inspections kernel peers order concurrency options).map Prod.fst).Nodup := by
  have perm : (inspections kernel peers order concurrency options).Perm _ := inspectInBoundedBatches_perm ..
  have places : ∀ locations : List Str, (locations.zipIdx.map fun candidate : Str × ℕ =>
      (candidate.2, inspectAdditionalRepository kernel peers options.selection candidate.1)).map Prod.fst = List.range' 0 locations.length := by
    intro locations
    rw [List.map_map, ← List.zipIdx_map_snd]
    rfl
  rw [(perm.map Prod.fst).nodup_iff, places]
  exact List.nodup_range'

theorem issuePlaces_sublist (results : List (ℕ × Outcome GcRepositoryIssue (Finset Oid))) :
    ((results.filterMap issueOf).map Prod.fst).Sublist (results.map Prod.fst) := by
  induction results with
  | nil => simp
  | cons result results ih =>
    rw [List.filterMap_cons, List.map_cons]
    obtain ⟨place, (issue | _) | marked⟩ := result
    · exact ih.cons_cons place
    · exact ih.cons place
    · exact ih.cons place

/-- Issues at distinct places have one order by place. -/
theorem mergeSort_issues {issues others : List (ℕ × GcRepositoryIssue)} (perm : issues.Perm others) (distinct : (others.map Prod.fst).Nodup) :
    (issues.mergeSort fun left right => left.1 ≤ right.1) = others.mergeSort fun left right => left.1 ≤ right.1 := by
  have sorted : ∀ results : List (ℕ × GcRepositoryIssue),
      (results.mergeSort fun left right => left.1 ≤ right.1).Pairwise fun left right => left.1 ≤ right.1 := by
    intro results
    have ordered := @List.pairwise_mergeSort _ (fun left right : ℕ × GcRepositoryIssue => decide (left.1 ≤ right.1))
      (fun a b c => by simpa using Nat.le_trans) (fun a b => by simpa using Nat.le_total a.1 b.1) results
    simpa using ordered
  refine List.Perm.eq_of_pairwise ?_ (sorted _) (sorted _) (((List.mergeSort_perm _ _).trans perm).trans (List.mergeSort_perm _ _).symm)
  intro left right isLeft isRight le ge
  rw [(List.mergeSort_perm _ _).mem_iff] at isLeft isRight
  exact List.inj_on_of_nodup_map distinct (perm.subset isLeft) isRight (le_antisymm le ge)

/-- The order in which inspections finish and the size of their batches do not matter. -/
theorem additionalRepositories_order (order other : InspectionOrder) (concurrency size : ℕ+) (keep : Finset Oid) :
    additionalRepositories kernel peers order concurrency options keep =
      (additionalRepositories kernel peers other size options keep : Outcome ε _) := by
  have perm : (inspections kernel peers order concurrency options).Perm (inspections kernel peers other size options) :=
    (inspectInBoundedBatches_perm ..).trans (inspectInBoundedBatches_perm ..).symm
  change (inspections kernel peers order concurrency options).foldlM consumeInspection (keep, []) >>= _ =
    ((inspections kernel peers other size options).foldlM consumeInspection (keep, []) >>= _ : Outcome ε _)
  by_cases panics : ∃ result ∈ inspections kernel peers order concurrency options, result.2 = Outcome.panic
  · rw [foldlM_consumeInspection_panic panics, foldlM_consumeInspection_panic (by simpa only [perm.mem_iff] using panics)]
  · have noPanic := fun result member isPanic => panics ⟨result, member, isPanic⟩
    obtain ⟨kept, folded, exact⟩ := foldlM_consumeInspection (ε := ε) noPanic keep []
    have noPanic' : ∀ result ∈ inspections kernel peers other size options, result.2 ≠ Outcome.panic := fun result member =>
      noPanic result (perm.mem_iff.mpr member)
    obtain ⟨kept', folded', exact'⟩ := foldlM_consumeInspection (ε := ε) noPanic' keep []
    have sameKeep : kept = kept' := by
      ext oid
      rw [exact, exact']
      simp only [perm.mem_iff]
    have sameIssues := mergeSort_issues (perm.filterMap issueOf) ((inspections_nodup other size).sublist (issuePlaces_sublist _))
    rw [folded, folded', sameKeep, Outcome.ok_bind, Outcome.ok_bind, List.nil_append, List.nil_append]
    dsimp only
    rw [sameIssues]

end Peers

/-! ## The keep set -/

section KeepSet

variable {kernel : Kernel} {blake3 : ContentHash} {repo : GcRepository} {peers : GcPeers} {options : GcOptions}

variable (repo peers options) in
/-- Everything that the collection has to look at is there and can be read. -/
structure GcComplete : Prop where
  history : ∀ selection ∈ options.history, repo.git.Complete selection
  peers : ∀ location ∈ options.repositories, peers.Complete options.selection location

variable (repo peers options) in
/-- Some lock that the collection has to look at references the object. -/
def GcReferences (oid : Oid) : Prop :=
  repo.lock.References oid ∨ (∃ selection ∈ options.history, repo.git.References selection oid) ∨
    ∃ location ∈ options.repositories, peers.References options.selection location oid

variable (repo peers options) in
/-- The object is marked: incomplete additional repositories mark nothing. -/
def GcMarks (oid : Oid) : Prop :=
  repo.lock.References oid ∨ (∃ selection ∈ options.history, repo.git.References selection oid) ∨
    ∃ location ∈ options.repositories, peers.Complete options.selection location ∧ peers.References options.selection location oid

variable (repo peers options) in
/-- All selected histories hold locks as the program writes them. -/
structure GcRegular : Prop where
  history : ∀ selection ∈ options.history, repo.git.Regular selection
  peers : ∀ location ∈ options.repositories, ∀ git, peers.repository location = some git → git.Regular options.selection

theorem GcComplete.marks_iff (complete : GcComplete repo peers options) {oid : Oid} :
    GcMarks repo peers options oid ↔ GcReferences repo peers options oid := by
  refine or_congr_right (or_congr_right (exists_congr fun location => and_congr_right fun member => ?_))
  exact and_iff_right (complete.peers location member)

/-- A keep set is the set of marked objects, and comes with what is missing from it. -/
theorem computeKeepSet_ok {order : InspectionOrder} {concurrency : ℕ+} {cancellation : Cancellation} {scope : GcScope}
    (regular : GcRegular repo peers options) {keep : Finset Oid} {shallow : Bool} {incomplete : ℕ}
    (done : computeKeepSet kernel blake3 repo peers order concurrency cancellation options scope = .ok (keep, shallow, incomplete)) :
    cancellation.afterMarking = false ∧ (∀ oid, oid ∈ keep ↔ GcMarks repo peers options oid) ∧
      (shallow = false ∧ incomplete = 0 ↔ GcComplete repo peers options) ∧
      (options.dryRun = false → options.unsafeOverride = false → GcComplete repo peers options) := by
  unfold computeKeepSet at done
  by_cases atStart : cancellation.atStart
  · rw [if_pos atStart] at done
    cases done
  rw [if_neg atStart] at done
  obtain ⟨⟨marked, isShallow⟩, first, rest⟩ := Outcome.bind_eq_ok_iff.mp done
  have marking : markRepository kernel blake3 repo options.history = .ok (marked, isShallow) := LockTree.mapErr_eq_ok_iff.mp first
  dsimp only at rest
  by_cases refused : isShallow = true ∧ ¬options.dryRun = true ∧ ¬options.unsafeOverride = true
  · rw [if_pos refused] at rest
    cases rest
  rw [if_neg refused] at rest
  obtain ⟨⟨kept, issues⟩, second, rest⟩ := Outcome.bind_eq_ok_iff.mp rest
  dsimp only at rest
  split_ifs at rest with cancelled missing
  · cases rest
  · cases rest
  cases rest
  obtain ⟨whole, shallowOf, own⟩ := markRepository_ok regular.history marking
  obtain ⟨none, others⟩ := additionalRepositories_ok regular.peers second
  have complete : shallow = false ∧ issues.length = 0 ↔ GcComplete repo peers options := by
    constructor
    · exact fun both => ⟨whole both.1, none.mp both.2⟩
    · exact fun complete => ⟨shallowOf complete.history, none.mpr complete.peers⟩
  refine ⟨Bool.eq_false_iff.mpr cancelled, fun oid => ?_, complete, fun real strict => complete.mp ⟨?_, ?_⟩⟩
  · rw [others, own, or_assoc]
    rfl
  · by_contra isShallow
    exact refused ⟨Bool.eq_true_of_not_eq_false isShallow, by simp [real], by simp [strict]⟩
  · by_contra isMissing
    exact missing ⟨isMissing, by simp [real], by simp [strict]⟩

/-- Nothing but unreadable locks, missing repositories and a cancellation keeps the keep set from being computed. -/
theorem computeKeepSet_of_complete (order : InspectionOrder) (concurrency : ℕ+) {cancellation : Cancellation} (scope : GcScope)
    (regular : GcRegular repo peers options) (complete : GcComplete repo peers options) (quiet : cancellation.afterMarking = false)
    {visited : List Entry} (readable : repo.lock.visitRepository kernel blake3 none (fun _ => true) = .ok visited) :
    ∃ keep, computeKeepSet kernel blake3 repo peers order concurrency cancellation options scope = .ok (keep, false, 0) := by
  have running : cancellation.atStart = false := by
    by_contra atStart
    rw [cancellation.latched (Bool.eq_true_of_not_eq_false atStart)] at quiet
    cases quiet
  obtain ⟨marked, marking⟩ : ∃ marked, markRepository kernel blake3 repo options.history = .ok (marked, false) := by
    unfold markRepository
    cases isHistory : options.history with
    | none =>
      refine ⟨∅ ∪ (visited.map Entry.oid).toFinset, ?_⟩
      dsimp only
      rw [Outcome.pure_eq_ok, Outcome.ok_bind, LockTree.mapErr_eq_ok_iff.mpr readable]
      rfl
    | some selection =>
      obtain ⟨history, resolved, whole, all⟩ := complete.history selection isHistory
      obtain ⟨keep, first⟩ := markHistory_of_readable kernel resolved all
      refine ⟨keep ∪ (visited.map Entry.oid).toFinset, ?_⟩
      dsimp only
      rw [first, Outcome.ok_bind, LockTree.mapErr_eq_ok_iff.mpr readable, whole]
      rfl
  have noPanic : ∀ result ∈ inspections kernel peers order concurrency options, result.2 ≠ Outcome.panic := by
    intro result member isPanic
    obtain ⟨location, listed, same⟩ := exists_inspection_iff.mp ⟨result.1, member⟩
    obtain ⟨_, inspected⟩ := inspectAdditionalRepository_of_complete kernel (complete.peers location listed)
    cases inspected.symm.trans (same.trans isPanic)
  obtain ⟨kept, folded, -⟩ := foldlM_consumeInspection (ε := GcError) noPanic marked []
  have additional : ∃ issues, additionalRepositories kernel peers order concurrency options marked = (.ok (kept, issues) : Outcome GcError _) := by
    change ∃ issues, ((inspections kernel peers order concurrency options).foldlM consumeInspection (marked, []) >>= _ : Outcome GcError _) = _
    rw [folded, Outcome.ok_bind]
    exact ⟨_, rfl⟩
  obtain ⟨issues, second⟩ := additional
  have none := List.length_eq_zero_iff.mp ((additionalRepositories_ok regular.peers second).1.mpr complete.peers)
  refine ⟨kept, ?_⟩
  unfold computeKeepSet
  rw [running, marking]
  simp [Outcome.mapErr, second, quiet, none]

/-- What is refused to a collection is not refused to a dry run, and nothing else changes. -/
theorem computeKeepSet_dryRun {order : InspectionOrder} {concurrency : ℕ+} {cancellation : Cancellation} {scope : GcScope}
    {found : Finset Oid × Bool × ℕ}
    (done : computeKeepSet kernel blake3 repo peers order concurrency cancellation { options with dryRun := false } scope = .ok found) :
    computeKeepSet kernel blake3 repo peers order concurrency cancellation { options with dryRun := true } scope = .ok found := by
  unfold computeKeepSet at done ⊢
  by_cases atStart : cancellation.atStart
  · rw [if_pos atStart] at done
    cases done
  rw [if_neg atStart] at done ⊢
  obtain ⟨⟨marked, shallow⟩, first, rest⟩ := Outcome.bind_eq_ok_iff.mp done
  dsimp only at first rest ⊢
  rw [first, Outcome.ok_bind]
  dsimp only
  rw [if_neg (by simp)]
  by_cases refused : shallow = true ∧ ¬false = true ∧ ¬options.unsafeOverride = true
  · rw [if_pos refused] at rest
    cases rest
  rw [if_neg refused] at rest
  obtain ⟨⟨kept, issues⟩, second, rest⟩ := Outcome.bind_eq_ok_iff.mp rest
  have same : additionalRepositories kernel peers order concurrency { options with dryRun := true } marked = .ok (kept, issues) := second
  rw [same, Outcome.ok_bind]
  dsimp only at rest ⊢
  by_cases cancelled : cancellation.afterMarking
  · rw [if_pos cancelled] at rest
    cases rest
  rw [if_neg cancelled] at rest ⊢
  rw [if_neg (by simp)]
  by_cases missing : issues.length ≠ 0 ∧ ¬false = true ∧ ¬options.unsafeOverride = true
  · rw [if_pos missing] at rest
    cases rest
  · rw [if_neg missing] at rest
    exact rest

/-- The keep set does not depend on how the inspections are scheduled. -/
theorem computeKeepSet_order (order other : InspectionOrder) (concurrency size : ℕ+) (cancellation : Cancellation) (scope : GcScope) :
    computeKeepSet kernel blake3 repo peers order concurrency cancellation options scope =
      computeKeepSet kernel blake3 repo peers other size cancellation options scope := by
  have same : additionalRepositories kernel peers order concurrency options =
      (additionalRepositories kernel peers other size options : Finset Oid → Outcome GcError _) :=
    funext fun keep => additionalRepositories_order order other concurrency size keep
  unfold computeKeepSet
  rw [same]

end KeepSet

/-! ## A remote -/

section Remote

/-- Only a complete listing gives candidates: what is listed and not kept. -/
theorem collectRemoteCandidates_ok {keep : Finset Oid} {listing : List (Except GcError (List Oid))} {candidates : RemoteCandidates}
    (done : collectRemoteCandidates keep listing = .ok candidates) :
    ∃ batches : List (List Oid), listing = batches.map Except.ok ∧ ∀ oid, oid ∈ candidates.oids ↔ oid ∈ batches.flatten ∧ oid ∉ keep := by
  have record : ∀ (batch : List Oid) (start : RemoteCandidates) (oid : Oid),
      oid ∈ (batch.foldl (RemoteCandidates.record keep) start).oids ↔ oid ∈ start.oids ∨ oid ∈ batch ∧ oid ∉ keep := by
    intro batch
    induction batch with
    | nil => simp
    | cons first batch ih =>
      intro start oid
      rw [List.foldl_cons, ih, RemoteCandidates.record, List.mem_cons]
      split_ifs with kept
      · constructor
        · exact Or.imp_right fun both => ⟨Or.inr both.1, both.2⟩
        · rintro (before | ⟨rfl | later, new⟩)
          · exact Or.inl before
          · exact absurd kept new
          · exact Or.inr ⟨later, new⟩
      · dsimp only
        rw [Finset.mem_insert]
        constructor
        · rintro ((rfl | before) | ⟨later, new⟩)
          · exact Or.inr ⟨Or.inl rfl, kept⟩
          · exact Or.inl before
          · exact Or.inr ⟨Or.inr later, new⟩
        · rintro (before | ⟨rfl | later, new⟩)
          · exact Or.inl (Or.inr before)
          · exact Or.inl (Or.inl rfl)
          · exact Or.inr ⟨later, new⟩
  have collect : ∀ (listing : List (Except GcError (List Oid))) (start : RemoteCandidates),
      (listing.foldlM (fun candidates answer => do
        let batch ← answer
        pure (batch.foldl (RemoteCandidates.record keep) candidates)) start) = .ok candidates →
      ∃ batches : List (List Oid), listing = batches.map Except.ok ∧ ∀ oid, oid ∈ candidates.oids ↔ oid ∈ start.oids ∨ oid ∈ batches.flatten ∧ oid ∉ keep := by
    intro listing
    induction listing with
    | nil =>
      intro start done
      cases done
      exact ⟨[], rfl, by simp⟩
    | cons answer listing ih =>
      intro start done
      rw [List.foldlM_cons] at done
      rcases answer with error | batch
      · cases done
      · obtain ⟨batches, rfl, exact⟩ := ih _ done
        refine ⟨batch :: batches, rfl, fun oid => ?_⟩
        rw [exact, record, List.flatten_cons, List.mem_append, or_and_right, or_assoc]
  obtain ⟨batches, listed, exact⟩ := collect listing _ done
  exact ⟨batches, listed, by simpa using exact⟩

variable {remote : RemoteDeletion}

variable (remote) in
theorem deleteBatches_removed (state : DeletionState) (batches : List (List Oid)) :
    ∀ oid ∈ (deleteBatches remote state batches).1.removed, oid ∈ state.removed ∨ oid ∈ batches.flatten := by
  induction batches generalizing state with
  | nil => exact fun oid => Or.inl
  | cons batch batches ih =>
    intro oid gone
    have here : oid ∈ state.removed ++ (remote.delete batch).removed → oid ∈ state.removed ∨ oid ∈ batch := fun listed =>
      (List.mem_append.mp listed).imp_right (remote.removed_mem batch oid)
    rw [List.flatten_cons, List.mem_append, ← or_assoc]
    rw [deleteBatches] at gone
    cases stopped : (remote.delete batch).error with
    | some error =>
      rw [stopped] at gone
      exact Or.inl (here gone)
    | none =>
      rw [stopped] at gone
      exact (ih _ oid gone).imp_left here

variable (remote) in
theorem deleteWindows_removed (cancellation : Cancellation) (index : ℕ) (state : DeletionState) (windows : List (List Oid)) :
    ∀ oid ∈ (deleteWindows remote cancellation index state windows).1.removed, oid ∈ state.removed ∨ oid ∈ windows.flatten := by
  induction windows generalizing index state with
  | nil => exact fun oid => Or.inl
  | cons window windows ih =>
    intro oid gone
    have here := deleteBatches_removed remote state (chunks remote.batchSize window)
    rw [flatten_chunks] at here
    rw [List.flatten_cons, List.mem_append, ← or_assoc]
    rw [deleteWindows] at gone
    by_cases cancelled : cancellation.atWindow index
    · rw [if_pos cancelled] at gone
      exact Or.inl (Or.inl gone)
    rw [if_neg cancelled] at gone
    rcases batches : deleteBatches remote state (chunks remote.batchSize window) with ⟨next, error | _⟩
    · rw [batches] at gone here
      exact Or.inl (here oid gone)
    · rw [batches] at gone here
      exact (ih _ _ oid gone).imp_left (here oid)

/-- Nothing but candidates is deleted, wherever the deletion stops. -/
theorem deleteRemoteCandidates_removed {cancellation : Cancellation} {candidates : List Oid} :
    ∀ oid ∈ (deleteRemoteCandidates remote cancellation candidates).1, oid ∈ candidates := by
  intro oid gone
  have windows := deleteWindows_removed remote cancellation 0 ⟨[], 0⟩ (chunks DELETION_WINDOW candidates) oid gone
  rw [flatten_chunks] at windows
  exact windows.elim nofun id

end Remote

end Gat
