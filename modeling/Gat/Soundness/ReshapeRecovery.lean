import Gat.Proofs.ReshapeSteps

/-! # A reshape survives every interruption

Reads, reshapes, clean-ups and recoveries run in any order, and each of them can be stopped after any of its steps. A read
then returns a complete lock that was given or fails, and after a failure either choice of a recovery gives such a lock back.
-/

namespace Gat

open LockRoot

variable (kernel : Kernel) (blake3 : ContentHash) (first : FirstFile) (given : Lock → Prop)

/-- What is run on a lock: reads, reshapes that write a given lock, clean-ups and recoveries. -/
inductive ReshapeCommand : LockRoot.Program Unit → Prop
  | load : ReshapeCommand (loadSteps kernel blake3 >>= fun _ => pure ())
  | reshape (schedule : ReshapeSchedule) (lock : Lock) (isGiven : given lock) (target : OnDiskShape) :
      ReshapeCommand (reshapeSteps kernel blake3 first schedule lock target)
  | clean (schedule : ReshapeSchedule) : ReshapeCommand (cleanDisposableReshapeScratch kernel blake3 first schedule)
  | recover (id : TxnId) (choice : ReshapeRecoveryChoice) : ReshapeCommand (recoverPreparedReshape kernel blake3 first id choice)

variable {kernel blake3 first given} {start root : LockRoot} {live : Lock}

theorem ReshapeCommand.keeps {program : LockRoot.Program Unit} (command : ReshapeCommand kernel blake3 first given program)
    (sound : Sound kernel blake3 first given root) : Durable.Keeps (Sound kernel blake3 first given) program root fun _ _ => True := by
  cases command with
  | load => exact Durable.Keeps.bind _ (Durable.Keeps.get_bind (Durable.Keeps.raise sound fun _ _ => sound)) fun _ _ sound => Durable.Keeps.pure sound trivial
  | reshape schedule lock isGiven target => exact reshapeSteps_keeps isGiven sound
  | clean schedule => exact cleanDisposable_keeps sound
  | recover id choice => exact (recover_keeps id choice sound).mono fun _ _ _ _ => trivial

/-- A read of a live lock that was moved aside fails. -/
theorem load_aside {id : TxnId} {dir : TxnDir} {source target : OnDiskShape} (record : dir.record = .prepared source target) :
    (⟨.missing, .insert .empty id dir⟩ : LockRoot).load kernel blake3 = Outcome.fail .reshapeInterruptedLiveMissing := by
  rw [LockRoot.load, failIfPendingReshape, entries_single, List.forM_cons]
  dsimp only
  rw [record]
  rfl

theorem LockRoot.IsCopy.load (copy : IsCopy kernel blake3 given root.live) :
    ∃ loaded, root.load kernel blake3 = .ok loaded ∧ ∃ lock, given lock ∧ oidMap loaded = oidMap lock := by
  obtain ⟨present, lock, isGiven, loaded, loads, same⟩ := copy
  refine ⟨loaded, ?_, lock, isGiven, same⟩
  unfold LockRoot.load
  cases isLive : root.live with
  | missing => exact absurd isLive present
  | file text => rwa [isLive] at loads
  | directory shards => rwa [isLive] at loads

/-- However a valid lock is read, reshaped, cleaned and recovered and wherever these are stopped: a read returns all of a given
lock or fails; a copy is left, in place or twice in a transaction; and a read only fails while the live lock is missing, where
both choices of a recovery succeed and the next read returns a given lock. -/
theorem reshape_survives_interruptions (loads : start.live.loadTree kernel blake3 = .ok live) (isGiven : given live)
    (present : start.live ≠ .missing) (settled : (∃ shape, start.live.onDiskShapeAt first = some shape) ∨ start.txns = .empty)
    (interrupted : Durable.Interrupted (ReshapeCommand kernel blake3 first given) start root) :
    (∀ loaded, root.load kernel blake3 = .ok loaded → ∃ lock, given lock ∧ oidMap loaded = oidMap lock) ∧
    (IsCopy kernel blake3 given root.live ∨
      ∃ txn ∈ root.txns.entries, IsCopy kernel blake3 given txn.2.backup ∧ IsCopy kernel blake3 given txn.2.staged) ∧
    ∀ failure, root.load kernel blake3 = .error failure →
      root.live = .missing ∧ ∃ txn ∈ root.txns.entries, ∀ choice, ∃ recovered,
        recoverPreparedReshape kernel blake3 first txn.1 choice root = ⟨[recovered], .ok ()⟩ ∧
          ∃ loaded, recovered.load kernel blake3 = .ok loaded ∧ ∃ lock, given lock ∧ oidMap loaded = oidMap lock := by
  have copy : IsCopy kernel blake3 given start.live := ⟨present, live, isGiven, live, loads, rfl⟩
  have initially : Sound kernel blake3 first given start := settled.imp (fun shaped => ⟨shaped, copy⟩) fun none => Or.inl ⟨copy, none⟩
  have sound := interrupted.keeps (fun _ command _ => command.keeps) initially
  by_cases inPlace : IsCopy kernel blake3 given root.live
  · obtain ⟨loaded, reads, isLock⟩ := inPlace.load
    rw [reads]
    refine ⟨fun _ read => ?_, Or.inl inPlace, nofun⟩
    cases read
    exact isLock
  · obtain ⟨id, dir, source, target, aside⟩ := (sound.resolve_left fun shaped => inPlace shaped.2).resolve_left fun bare => inPlace bare.1
    have listed : (id, dir) ∈ root.txns.entries := by
      rw [aside.state, entries_single]
      exact List.mem_singleton_self _
    refine ⟨fun loaded read => ?_, Or.inr ⟨(id, dir), listed, aside.backup.2, aside.staged.2⟩, fun _ _ => ⟨?_, (id, dir), listed, fun choice => ?_⟩⟩
    · rw [aside.state, load_aside aside.record] at read
      cases read
    · rw [aside.state]
    · obtain ⟨recovered, ran, candidate⟩ := recover_aside aside choice
      refine ⟨recovered, ran, IsCopy.load ?_⟩
      rw [candidate]
      cases choice with
      | restoreBackup => exact aside.backup.2
      | promoteStaged => exact aside.staged.2

/-! ## Between the two renames -/

/-- A reshape can be stopped when it has moved the live lock aside. -/
theorem reshapeSteps_stops {lock : Lock} {source target : OnDiskShape} {schedule : ReshapeSchedule} (quiet : start.txns = .empty)
    (written : schedule.stagings = []) (shape : start.live.onDiskShapeAt first = some source) (other : source ≠ target) (valid : lock.WellFormed)
    (filled : ¬(lock.entries = [] ∧ target.isFlat = false)) :
    ∃ dir, dir.record = .prepared source target ∧
      Durable.Stops (reshapeSteps kernel blake3 first schedule lock target) start ⟨.missing, .insert .empty schedule.txnId dir⟩ := by
  obtain ⟨live, txns⟩ := start
  obtain rfl : txns = .empty := quiet
  obtain ⟨staged, staging, saved⟩ := stage_saved blake3 lock target
  have validated := validateStaged_saved kernel first saved valid
  rw [if_neg filled] at validated
  have listed : schedule.list .empty = [] := List.perm_nil.mp (schedule.list_perm .empty)
  have cleanup : cleanupSteps kernel blake3 first schedule ⟨live, .empty⟩ = ⟨[], .ok ()⟩ := by
    rw [cleanupSteps, Durable.get_bind_apply, if_pos listed]
    rfl
  have ended : (cleanupSteps kernel blake3 first schedule ⟨live, .empty⟩).outcome = .ok () := by rw [cleanup]
  refine ⟨⟨.prepared source target, staged, live, .missing⟩, rfl, Durable.Stops.bind ended ?_⟩
  have unchanged : (⟨[], .ok ()⟩ : Durable.Run (Fault PersistenceError) LockRoot Unit).last ⟨live, .empty⟩ = ⟨live, .empty⟩ := rfl
  rw [cleanup, unchanged]
  refine Durable.Stops.get_bind ?_
  dsimp only at shape ⊢
  rw [shape]
  dsimp only
  rw [if_neg other, written]
  refine Durable.Stops.step_bind (Durable.Stops.bind rfl ?_)
  change Durable.Stops _ (⟨live, .insert .empty schedule.txnId .fresh⟩ : LockRoot) _
  refine Durable.Stops.raise_bind staging (Durable.Stops.step_bind ?_)
  rw [txnDir_single, setTxnDir_single]
  refine Durable.Stops.raise_bind validated (Durable.Stops.step_bind ?_)
  rw [txnDir_single, setTxnDir_single]
  refine Durable.Stops.step_bind ?_
  rw [moveAside_single]
  exact Durable.Stops.refl _ _

namespace InterruptedReshape

def hash : ContentHash := fun _ => List.Vector.replicate 32 0

/-- Every removal and every staging is one step. -/
def atOnce : ReshapeSchedule := ⟨fun txns => txns.entries, fun _ => List.Perm.refl _, fun _ => [], [], ascii "1-1"⟩

def tracked : Lock := ⟨[⟨.a, .filled 1⟩]⟩

/-- A flat lock with one row. -/
def flatRoot : LockRoot := ⟨.file (render tracked.entries), .empty⟩

def deep : LockShardLevels := .oneLevel

theorem tracked_wellFormed : tracked.WellFormed := ⟨List.nodup_singleton _, AncestorFree.separated_singleton _⟩

theorem flatRoot_loads : flatRoot.live.loadTree Kernel.scalar hash = .ok tracked :=
  LockTree.loadFile_file_eq_ok_iff.mpr (FileHolds.render (List.pairwise_singleton ..) (AncestorFree.separated_singleton _))

end InterruptedReshape

open InterruptedReshape in
/-- A reshape that is stopped between its renames leaves a lock that cannot be read and that both choices give back. -/
theorem reshape_survives_interruptions_aside :
    ∃ root, Durable.Interrupted (ReshapeCommand Kernel.scalar hash FirstFile.inOrder (tracked = ·)) flatRoot root ∧ root.live = .missing ∧
      ∃ txn ∈ root.txns.entries, ∀ choice, ∃ recovered,
        recoverPreparedReshape Kernel.scalar hash FirstFile.inOrder txn.1 choice root = ⟨[recovered], .ok ()⟩ ∧
          ∃ loaded, recovered.load Kernel.scalar hash = .ok loaded ∧ oidMap loaded = oidMap tracked := by
  have shape : flatRoot.live.onDiskShapeAt FirstFile.inOrder = some LockShardLevels.FLAT := rfl
  have other : LockShardLevels.FLAT ≠ deep := by decide
  obtain ⟨dir, record, stops⟩ := reshapeSteps_stops (rfl : flatRoot.txns = .empty) (rfl : atOnce.stagings = []) shape other tracked_wellFormed
    fun empty => by cases empty.1
  have command : ReshapeCommand Kernel.scalar hash FirstFile.inOrder (tracked = ·) (reshapeSteps Kernel.scalar hash FirstFile.inOrder atOnce tracked deep) :=
    .reshape atOnce tracked (by rfl) deep
  have fails := reshape_survives_interruptions flatRoot_loads rfl (by rintro ⟨⟩) (Or.inl ⟨_, shape⟩) (Relation.ReflTransGen.single ⟨_, command, stops⟩)
  obtain ⟨-, txn, listed, recovers⟩ := fails.2.2 _ (load_aside record)
  refine ⟨_, Relation.ReflTransGen.single ⟨_, command, stops⟩, rfl, txn, listed, fun choice => ?_⟩
  obtain ⟨recovered, ran, loaded, reads, _, rfl, same⟩ := recovers choice
  exact ⟨recovered, ran, loaded, reads, same⟩

end Gat
