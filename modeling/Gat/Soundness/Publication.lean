import Gat.Proofs.Reshape

/-! # Complete publication and loading are inverse

A publication goes through a reshape, an in-place rewrite or a fresh write, and in every shape a load returns the
published map. One case fails: an empty lock staged as a shard tree has no file to read its shape from, so a
reshape to it is refused.
-/

namespace Gat

variable {kernel : Kernel} {blake3 : ContentHash} {first : FirstFile} {root : LockRoot} {lock : Lock} {target : LockShardLevels}

/-- The lock on disk loads as the published one and has nothing of another shape. -/
structure Publishes (kernel : Kernel) (blake3 : ContentHash) (root : LockRoot) (lock : Lock) (target : OnDiskShape) : Prop where
  loads : ∃ loaded, root.load kernel blake3 = .ok loaded ∧ ∀ path, loaded.oidAt path = lock.oidAt path
  depth : ∀ file ∈ root.live.shardFiles.entries, file.1.levels = target
  placed : ∀ file ∈ root.live.shardFiles.entries, ∀ rows, FileHolds file.2 rows →
    ∀ entry ∈ rows, LockShardId.forPath blake3 entry.path target = file.1

/-- The lock is reshaped into a shard tree without a single file. -/
def ReshapesEmpty (first : FirstFile) (live : LockTree) (lock : Lock) (target : OnDiskShape) : Prop :=
  lock.entries = [] ∧ target.isFlat = false ∧ ∃ shape, live.onDiskShapeAt first = some shape ∧ shape ≠ target

theorem oidAt_congr {other : Lock} (unique : lock.UniquePaths) (otherUnique : other.UniquePaths)
    (same : ∀ entry, entry ∈ other.entries ↔ entry ∈ lock.entries) (path : GatPath) : other.oidAt path = lock.oidAt path := by
  refine Option.ext fun oid => ?_
  rw [Lock.oidAt_eq_some_iff unique, Lock.oidAt_eq_some_iff otherUnique, same]

theorem Saved.publishes {tree : LockTree} {txns : SortedMap TxnId TxnDir} (saved : Saved blake3 lock target tree) (valid : lock.WellFormed) :
    Publishes kernel blake3 ⟨tree, txns⟩ lock target where
  loads := by
    obtain ⟨loaded, ran, unique, same⟩ := saved.load kernel valid
    refine ⟨loaded, ?_, oidAt_congr valid.unique unique same⟩
    cases saved <;> exact ran
  depth := (saved.stores valid).holds.depth
  placed file member rows holds entry inside := by
    obtain rfl := holds.unique ((saved.stores valid).holds.document file member)
    exact (saved.stores valid).placed file.1 entry inside

/-- What a load returns is a well-formed lock. -/
theorem wellFormed_of_loadTree {tree : LockTree} {loaded : Lock} (ran : tree.loadTree kernel blake3 = .ok loaded) : loaded.WellFormed := by
  obtain ⟨levels, rows, stores, rfl⟩ := LockTree.loadTree_eq_ok_iff.mp ran
  exact ⟨stores.holds.nodup_of_placed stores.placed, stores.separated⟩

/-- A load of a live lock with a shape is a load of its tree. -/
theorem LockRoot.load_of_shape (first : FirstFile) {shape : OnDiskShape} (shaped : root.live.onDiskShapeAt first = some shape) :
    root.load kernel blake3 = root.live.loadTree kernel blake3 := by
  unfold load
  cases isLive : root.live with
  | missing =>
    rw [isLive] at shaped
    cases shaped
  | file => rfl
  | directory => rfl

/-- A publication saves the lock at the target depth or is refused by the reshape. -/
theorem publishComplete_cases (target : OnDiskShape) (valid : lock.WellFormed) (quiet : root.NoPending first) {live : Lock}
    (loads : root.live.loadTree kernel blake3 = .ok live) :
    (ReshapesEmpty first root.live lock target →
      root.publishComplete kernel blake3 first lock target = Outcome.fail (.stagedShapeMismatch none target)) ∧
    (¬ReshapesEmpty first root.live lock target →
      ∃ saved txns, root.publishComplete kernel blake3 first lock target = .ok ⟨saved, txns⟩ ∧ Saved blake3 lock target saved) := by
  unfold LockRoot.publishComplete
  rw [LockRoot.onDiskShape_eq quiet, Outcome.ok_bind]
  cases shaped : root.live.onDiskShapeAt first with
  | none =>
    refine ⟨fun empty => (nomatch shaped.symm.trans empty.2.2.choose_spec.1), fun _ => ?_⟩
    obtain ⟨saved, ran, isSaved⟩ := save_saved blake3 lock target root.live
    dsimp only
    rw [ran]
    exact ⟨saved, root.txns, rfl, isSaved⟩
  | some shape =>
    dsimp only
    by_cases other : shape ≠ target
    · rw [if_pos other]
      have reshaped := LockRoot.reshapeTransactional_cases target quiet loads shaped other valid
      by_cases empty : lock.entries = [] ∧ target.isFlat = false
      · rw [if_pos empty] at reshaped
        rw [reshaped]
        exact ⟨fun _ => rfl, fun stays => absurd ⟨empty.1, empty.2, shape, shaped, other⟩ stays⟩
      · rw [if_neg empty] at reshaped
        obtain ⟨staged, txns, ran, isSaved⟩ := reshaped
        obtain ⟨saved, rewritten, isSaved'⟩ := saveForShape_saved blake3 lock isSaved.replaceable
        refine ⟨fun vanishes => absurd ⟨vanishes.1, vanishes.2.1⟩ empty, fun _ => ⟨saved, txns, ?_, isSaved'⟩⟩
        rw [ran, Outcome.ok_bind, rewritten]
        rfl
    · obtain rfl := not_not.mp other
      rw [if_neg other]
      refine ⟨?_, fun _ => ?_⟩
      · rintro ⟨-, -, found, isShape, apart⟩
        exact absurd (Option.some.inj (isShape.symm.trans shaped)) apart
      · obtain ⟨saved, ran, isSaved⟩ := saveForShape_saved blake3 lock (LockTree.replaceable_of_shape shaped)
        rw [ran]
        exact ⟨saved, root.txns, rfl, isSaved⟩

/-- A complete publication succeeds and loads as the published lock, and an announced reshape of the live lock
succeeds and keeps its map, exactly when no empty lock is reshaped into a shard tree. -/
theorem publish_load_inverse_iff (kernel : Kernel) (blake3 : ContentHash) (first : FirstFile) {root : LockRoot} {live : Lock}
    (lock : Lock) (target : OnDiskShape) (valid : lock.WellFormed) (quiet : root.NoPending first)
    (loads : root.live.loadTree kernel blake3 = .ok live) :
    ((∃ published, root.publishComplete kernel blake3 first lock target = .ok published ∧ Publishes kernel blake3 published lock target) ↔
      ¬ReshapesEmpty first root.live lock target) ∧
    ((root.beginReshape first target = .ok true →
      ∃ reshaped, root.applyReshape kernel blake3 first target = .ok reshaped ∧ Publishes kernel blake3 reshaped live target) ↔
      ¬ReshapesEmpty first root.live live target) := by
  constructor
  · have published := publishComplete_cases target valid quiet loads
    by_cases empty : ReshapesEmpty first root.live lock target
    · refine iff_of_false ?_ (not_not.mpr empty)
      rintro ⟨_, ran, -⟩
      exact Outcome.fail_ne_ok _ _ ((published.1 empty).symm.trans ran)
    · obtain ⟨saved, txns, ran, isSaved⟩ := published.2 empty
      exact iff_of_true ⟨_, ran, isSaved.publishes valid⟩ empty
  · have whole := wellFormed_of_loadTree loads
    unfold LockRoot.beginReshape
    rw [LockRoot.onDiskShape_eq quiet, Outcome.ok_bind]
    cases shaped : root.live.onDiskShapeAt first with
    | none => exact iff_of_true nofun fun empty => nomatch shaped.symm.trans empty.2.2.choose_spec.1
    | some shape =>
      by_cases other : shape ≠ target
      · have reshaped := LockRoot.reshapeTransactional_cases target quiet loads shaped other whole
        unfold LockRoot.applyReshape
        rw [LockRoot.load_of_shape first shaped, loads, Outcome.ok_bind]
        by_cases empty : live.entries = [] ∧ target.isFlat = false
        · rw [if_pos empty] at reshaped
          refine iff_of_false (fun succeeds => ?_) (not_not.mpr ⟨empty.1, empty.2, shape, shaped, other⟩)
          obtain ⟨_, ran, -⟩ := succeeds (congrArg Except.ok (decide_eq_true other))
          exact Outcome.fail_ne_ok _ _ (reshaped.symm.trans ran)
        · rw [if_neg empty] at reshaped
          obtain ⟨staged, txns, ran, isSaved⟩ := reshaped
          exact iff_of_true (fun _ => ⟨_, ran, isSaved.publishes whole⟩) fun vanishes => empty ⟨vanishes.1, vanishes.2.1⟩
      · refine iff_of_true (fun begun => ?_) ?_
        · exact absurd (of_decide_eq_true (Except.ok.inj begun)) other
        · rintro ⟨-, -, found, isShape, apart⟩
          exact other (Option.some.inj (isShape.symm.trans shaped) ▸ apart)

/-! ## A flat lock that gets shards -/

namespace DeepenedLock

def live : Lock := ⟨[⟨.a, .filled 1⟩, ⟨.b, .filled 1⟩, ⟨.control, .filled 1⟩]⟩

def flatRoot : LockRoot := ⟨.file (render live.entries), .empty⟩

/-- An entry is removed and two are changed, in no order. -/
def edited : Lock := ⟨[⟨.control, .filled 3⟩, ⟨.a, .filled 2⟩]⟩

theorem flatRoot_loads : flatRoot.live.loadTree Kernel.scalar .sample = .ok live :=
  LockTree.loadFile_file_eq_ok_iff.mpr (FileHolds.render (by rw [StrictlySorted]; decide) (by decide))

theorem flatRoot_quiet : flatRoot.NoPending FirstFile.inOrder := fun _ member => absurd member List.not_mem_nil

theorem edited_wellFormed : edited.WellFormed := ⟨by decide, by decide⟩

end DeepenedLock

open DeepenedLock in
/-- Publishing other entries into shards, and reshaping the live ones into them, load again. -/
theorem publish_load_inverse_deepened :
    (∃ published, flatRoot.publishComplete Kernel.scalar .sample FirstFile.inOrder edited .oneLevel = .ok published ∧
        Publishes Kernel.scalar .sample published edited .oneLevel) ∧
      flatRoot.beginReshape FirstFile.inOrder .oneLevel = .ok true ∧
      ∃ reshaped, flatRoot.applyReshape Kernel.scalar .sample FirstFile.inOrder .oneLevel = .ok reshaped ∧
        Publishes Kernel.scalar .sample reshaped live .oneLevel := by
  obtain ⟨publishes, reshapes⟩ := publish_load_inverse_iff Kernel.scalar .sample FirstFile.inOrder edited .oneLevel edited_wellFormed
    flatRoot_quiet flatRoot_loads
  have begun : flatRoot.beginReshape FirstFile.inOrder .oneLevel = .ok true := by rfl
  refine ⟨publishes.mpr fun empty => ?_, begun, reshapes.mpr (fun empty => ?_) begun⟩
  · cases empty.1
  · cases empty.1

/-! ## An empty lock -/

namespace EmptyPublication

/-- The flat lock without rows. -/
def flatRoot : LockRoot := ⟨.file (render []), .empty⟩

theorem flatRoot_loads : flatRoot.live.loadTree Kernel.scalar .sample = .ok ⟨[]⟩ :=
  LockTree.loadFile_file_eq_ok_iff.mpr (FileHolds.render List.Pairwise.nil AncestorFree.separated_nil)

theorem flatRoot_quiet : flatRoot.NoPending FirstFile.inOrder := fun _ member => absurd member List.not_mem_nil

end EmptyPublication

open EmptyPublication in
/-- Publishing the empty lock at depth one over a valid flat lock fails, and so does reshaping that lock. -/
theorem empty_publication_refused :
    flatRoot.live.loadTree Kernel.scalar .sample = .ok ⟨[]⟩ ∧ (⟨[]⟩ : Lock).WellFormed ∧ flatRoot.NoPending FirstFile.inOrder ∧
      flatRoot.publishComplete Kernel.scalar .sample FirstFile.inOrder ⟨[]⟩ .oneLevel = Outcome.fail (.stagedShapeMismatch none .oneLevel) ∧
      flatRoot.beginReshape FirstFile.inOrder .oneLevel = .ok true ∧
      flatRoot.applyReshape Kernel.scalar .sample FirstFile.inOrder .oneLevel = Outcome.fail (.stagedShapeMismatch none .oneLevel) := by
  have valid : (⟨[]⟩ : Lock).WellFormed := ⟨List.nodup_nil, AncestorFree.separated_nil⟩
  have other : LockShardLevels.FLAT ≠ .oneLevel := by decide
  have refused := LockRoot.reshapeTransactional_cases .oneLevel flatRoot_quiet flatRoot_loads rfl other valid
  rw [if_pos ⟨rfl, rfl⟩] at refused
  refine ⟨flatRoot_loads, valid, flatRoot_quiet, ?_, rfl, ?_⟩
  · exact (publishComplete_cases .oneLevel valid flatRoot_quiet flatRoot_loads).1 ⟨rfl, rfl, LockShardLevels.FLAT, rfl, other⟩
  · rw [LockRoot.applyReshape, LockRoot.load_of_shape FirstFile.inOrder (rfl : flatRoot.live.onDiskShapeAt FirstFile.inOrder = some LockShardLevels.FLAT), flatRoot_loads, Outcome.ok_bind]
    exact refused

end Gat
