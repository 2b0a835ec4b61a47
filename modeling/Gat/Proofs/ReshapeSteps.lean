import Gat.Model.ReshapeSteps
import Gat.Proofs.Reshape

/-! # What is left when a reshape stops

At every moment the live lock is a complete copy of a lock that was given, or it is missing and the one transaction has two
such copies. Every command keeps this, wherever it is stopped.
-/

namespace Gat

namespace LockRoot

/-! ## One transaction -/

section Single

variable {live : LockTree} {id : TxnId} {dir next : TxnDir}

@[simp] theorem txnDir_single : (⟨live, .insert .empty id dir⟩ : LockRoot).txnDir id = dir := by
  simp [txnDir]

@[simp] theorem setTxnDir_single : (⟨live, .insert .empty id dir⟩ : LockRoot).setTxnDir id next = ⟨live, .insert .empty id next⟩ := by
  refine congrArg (LockRoot.mk live) (SortedMap.ext fun other => ?_)
  simp only [SortedMap.get?_insert]
  split_ifs <;> rfl

@[simp] theorem moveAside_single : (⟨live, .insert .empty id dir⟩ : LockRoot).moveAside id =
    ⟨.missing, .insert .empty id { dir with backup := live }⟩ := by
  simp [moveAside]

@[simp] theorem promote_single : (⟨live, .insert .empty id dir⟩ : LockRoot).promote id =
    ⟨dir.staged, .insert .empty id { dir with staged := .missing }⟩ := by
  simp [promote]

@[simp] theorem restore_single : (⟨live, .insert .empty id dir⟩ : LockRoot).restore id =
    ⟨dir.backup, .insert .empty id { dir with backup := .missing }⟩ := by
  simp [restore]

theorem entries_single : (SortedMap.insert .empty id dir : SortedMap TxnId TxnDir).entries = [(id, dir)] := rfl

end Single

/-! ## The states that commands leave -/

section Sound

variable (kernel : Kernel) (blake3 : ContentHash) (first : FirstFile) (given : Lock → Prop)

/-- The tree is there, and it loads with the map of a given lock. -/
def IsCopy (tree : LockTree) : Prop :=
  tree ≠ .missing ∧ ∃ lock, given lock ∧ ∃ loaded, tree.loadTree kernel blake3 = .ok loaded ∧ oidMap loaded = oidMap lock

/-- The live lock is a copy in some shape. -/
def Shaped (root : LockRoot) : Prop := (∃ shape, root.live.onDiskShapeAt first = some shape) ∧ IsCopy kernel blake3 given root.live

/-- The live lock is a copy, and there is no transaction. -/
def Bare (root : LockRoot) : Prop := IsCopy kernel blake3 given root.live ∧ root.txns = .empty

/-- The live lock was moved aside by the one transaction, which has a copy before and a copy after the reshape. -/
structure Aside (root : LockRoot) (id : TxnId) (dir : TxnDir) (source target : OnDiskShape) : Prop where
  state : root = ⟨.missing, .insert .empty id dir⟩
  record : dir.record = .prepared source target
  backup : dir.backup.onDiskShapeAt first = some source ∧ IsCopy kernel blake3 given dir.backup
  staged : dir.staged.onDiskShapeAt first = some target ∧ IsCopy kernel blake3 given dir.staged

/-- A state that commands leave. -/
def Sound (root : LockRoot) : Prop :=
  Shaped kernel blake3 first given root ∨ Bare kernel blake3 given root ∨
    ∃ id dir source target, Aside kernel blake3 first given root id dir source target

end Sound

variable {kernel : Kernel} {blake3 : ContentHash} {first : FirstFile} {given : Lock → Prop} {schedule : ReshapeSchedule} {root next : LockRoot}

theorem Shaped.of_live (shaped : Shaped kernel blake3 first given root) (same : next.live = root.live) : Shaped kernel blake3 first given next := by
  unfold Shaped
  rw [same]
  exact shaped

/-- A live lock in a shape is valid. -/
theorem Shaped.inspectLive (shaped : Shaped kernel blake3 first given root) :
    ∃ shape entries, root.inspectLive kernel blake3 first = .ok (.valid shape entries) := by
  obtain ⟨⟨shape, shaped⟩, -, _, -, loaded, loads, -⟩ := shaped
  refine ⟨shape, loaded.entries.length, ?_⟩
  unfold LockRoot.inspectLive
  cases isLive : root.live with
  | missing =>
    rw [isLive] at shaped
    cases shaped
  | file text =>
    rw [isLive] at shaped loads
    dsimp only
    rw [shaped]
    dsimp only
    rw [LockTree.loadShapeAt_eq shaped, loads]
    rfl
  | directory shards =>
    rw [isLive] at shaped loads
    dsimp only
    rw [shaped]
    dsimp only
    rw [LockTree.loadShapeAt_eq shaped, loads]
    rfl

theorem Shaped.liveLoads (shaped : Shaped kernel blake3 first given root) : root.liveLoads kernel blake3 first = true := by
  obtain ⟨⟨shape, shaped⟩, -, _, -, loaded, loads, -⟩ := shaped
  unfold LockRoot.liveLoads
  rw [shaped]
  dsimp only
  rw [LockTree.loadShapeAt_eq shaped, loads]
  rfl

/-! ## Removals -/

open Durable

/-- A removal leaves the live lock alone and ends without the transaction. -/
theorem removeAll_keeps (schedule : ReshapeSchedule) (id : TxnId) (root : LockRoot) :
    Keeps (fun state => state.live = root.live) (removeAll schedule id) root fun _ next => next = root.removeTxnDir id := by
  unfold removeAll
  refine Keeps.bind _ (Keeps.forM (fun state => state.live = root.live ∧ state.txns.erase id = root.txns.erase id) ⟨rfl, rfl⟩
    (fun _ => And.left) fun left _ state ends => ?_) fun _ state ends => ?_
  · refine Keeps.step ends.1 ends.1 ⟨ends.1, ?_⟩
    rw [← ends.2]
    refine SortedMap.ext fun other => ?_
    simp only [setTxnDir, SortedMap.get?_erase, SortedMap.get?_insert]
    split_ifs <;> rfl
  · obtain ⟨live, txns⟩ := state
    obtain ⟨rfl, same⟩ := ends
    exact Keeps.step rfl rfl (congrArg (LockRoot.mk root.live) same)

/-- Both clean-ups either remove a transaction or keep it. -/
theorem cleanTxnDir_keeps (schedule : ReshapeSchedule) (liveValid : Bool) (txn : TxnId × TxnDir) (root : LockRoot) :
    Keeps (fun state => state.live = root.live) (cleanTxnDirIfDisposable schedule liveValid txn) root fun _ next => next.live = root.live := by
  have removal : Keeps (fun state => state.live = root.live) (removeAll schedule txn.1) root fun _ next => next.live = root.live :=
    (removeAll_keeps schedule txn.1 root).mono fun _ _ live _ => live
  unfold cleanTxnDirIfDisposable
  cases txn.2.record with
  | absent => exact removal
  | invalid => exact Keeps.pure rfl rfl
  | prepared source target =>
    exact Keeps.ite (fun _ => removal) fun _ => Keeps.pure rfl rfl

/-- The transaction may be removed before a reshape. -/
def Passes (liveValid : Bool) (txn : TxnId × TxnDir) : Prop :=
  ∀ txns, cleanupCompletedTxnDir liveValid txns txn = .ok (txns.erase txn.1)

theorem erase_cons {txns rest : SortedMap TxnId TxnDir} {txn : TxnId × TxnDir} {others : List (TxnId × TxnDir)}
    (gone : ∀ id, rest.get? id = if id ∈ others.map Prod.fst then none else (txns.erase txn.1).get? id) (id : TxnId) :
    rest.get? id = if id ∈ (txn :: others).map Prod.fst then none else txns.get? id := by
  rw [gone, List.map_cons]
  simp only [SortedMap.get?_erase, List.mem_cons]
  by_cases here : id = txn.1
  · simp [here]
  · rw [if_neg (Ne.symm here)]
    exact if_congr (or_iff_right here).symm rfl rfl

/-- A clean-up that ends has removed every transaction it was given. -/
theorem forM_cleanupTxnDir_keeps (schedule : ReshapeSchedule) (liveValid : Bool) (txns : List (TxnId × TxnDir)) (root : LockRoot) :
    Keeps (fun state => state.live = root.live) (forM txns (cleanupTxnDir schedule liveValid)) root fun _ next =>
      (next.live = root.live ∧ ∀ id, next.txns.get? id = if id ∈ txns.map Prod.fst then none else root.txns.get? id) ∧
        ∀ txn ∈ txns, Passes liveValid txn := by
  induction txns generalizing root with
  | nil => exact Keeps.pure rfl ⟨⟨rfl, fun id => (if_neg List.not_mem_nil).symm⟩, fun _ member => absurd member List.not_mem_nil⟩
  | cons txn txns ih =>
    rw [List.forM_cons]
    have removal : Keeps (fun state => state.live = root.live) (cleanupTxnDir schedule liveValid txn) root fun _ next =>
        next = root.removeTxnDir txn.1 ∧ Passes liveValid txn := by
      have removed (passes : Passes liveValid txn) := (removeAll_keeps schedule txn.1 root).mono fun _ _ _ same => And.intro same passes
      unfold cleanupTxnDir
      cases record : txn.2.record with
      | absent => exact removed fun _ => by rw [cleanupCompletedTxnDir, record]
      | invalid => exact Keeps.raise rfl (by rintro _ ⟨⟩)
      | prepared source target =>
        refine Keeps.ite (fun isValid => removed fun _ => ?_) fun _ => ?_
        · rw [cleanupCompletedTxnDir, record]
          exact if_pos isValid
        · exact Keeps.ite (fun _ => Keeps.raise rfl (by rintro _ ⟨⟩)) fun _ => Keeps.raise rfl (by rintro _ ⟨⟩)
    refine Keeps.bind _ removal ?_
    rintro _ _ ⟨rfl, passes⟩
    refine (ih (root.removeTxnDir txn.1)).mono fun _ state _ ends => ⟨⟨ends.1.1, erase_cons ends.1.2⟩, ?_⟩
    exact List.forall_mem_cons.mpr ⟨passes, ends.2⟩

/-- The loop of the plain clean-up removes the transactions in its own order. -/
theorem foldlM_cleanupCompletedTxnDir {liveValid : Bool} {others : List (TxnId × TxnDir)} (passes : ∀ txn ∈ others, Passes liveValid txn)
    (txns : SortedMap TxnId TxnDir) : ∃ rest, others.foldlM (cleanupCompletedTxnDir liveValid) txns = .ok rest ∧
      ∀ id, rest.get? id = if id ∈ others.map Prod.fst then none else txns.get? id := by
  induction others generalizing txns with
  | nil => exact ⟨txns, rfl, fun _ => (if_neg List.not_mem_nil).symm⟩
  | cons txn others ih =>
    rw [List.forall_mem_cons] at passes
    obtain ⟨rest, ran, gone⟩ := ih passes.2 (txns.erase txn.1)
    refine ⟨rest, ?_, erase_cons gone⟩
    rw [List.foldlM_cons, passes.1]
    exact ran

/-! ## The transaction -/

/-- A complete clean-up leaves what the plain one returns, and no transaction. -/
theorem cleanupSteps_refines (root : LockRoot) : Keeps (fun _ => True) (cleanupSteps kernel blake3 first schedule) root fun _ next =>
    root.cleanupCompletedReshape kernel blake3 first = .ok next ∧ next.txns = .empty := by
  have listed := schedule.list_perm root.txns
  unfold cleanupSteps cleanupCompletedReshape
  have both : schedule.list root.txns = [] ↔ root.txns.entries = [] :=
    ⟨fun none => List.nil_perm.mp (by rwa [none] at listed), fun none => List.perm_nil.mp (by rwa [none] at listed)⟩
  refine Keeps.get_bind (Keeps.ite (fun none => ?_) fun some => ?_)
  · rw [if_pos (both.mp none)]
    exact Keeps.pure trivial ⟨rfl, SortedMap.ext_entries (both.mp none)⟩
  rw [if_neg (mt both.mpr some)]
  refine Keeps.raise_bind trivial fun live inspected => Keeps.raise_bind trivial fun liveValid judged => ?_
  refine ⟨fun _ _ => trivial, fun value ended => ?_⟩
  obtain ⟨⟨sameLive, left⟩, passes⟩ := (forM_cleanupTxnDir_keeps schedule liveValid (schedule.list root.txns) root).after value ended
  obtain ⟨rest, ran, gone⟩ := foldlM_cleanupCompletedTxnDir (fun txn member => passes txn (listed.mem_iff.mpr member)) root.txns
  generalize (forM (schedule.list root.txns) (cleanupTxnDir schedule liveValid) root).last root = next at sameLive left
  obtain ⟨_, txns⟩ := next
  obtain rfl : _ = root.live := sameLive
  have same : rest = txns := SortedMap.ext fun id => by
    rw [gone, left]
    exact if_congr (listed.map Prod.fst).mem_iff.symm rfl rfl
  refine ⟨?_, SortedMap.ext fun id => ?_⟩
  swap
  · rw [left, SortedMap.get?_empty]
    split_ifs with member
    · rfl
    cases found : root.txns.get? id with
    | none => rfl
    | some dir => exact absurd (List.mem_map_of_mem (listed.mem_iff.mpr (SortedMap.get?_eq_some_iff.mp found))) member
  rw [inspected, Outcome.ok_bind]
  cases live with
  | loadFailed => cases judged
  | neitherFileNorShardTree => cases judged
  | missing =>
    cases judged
    dsimp only
    rw [Outcome.pure_eq_ok, Outcome.ok_bind, ran, Outcome.ok_bind, same]
    rfl
  | valid =>
    cases judged
    dsimp only
    rw [Outcome.pure_eq_ok, Outcome.ok_bind, ran, Outcome.ok_bind, same]
    rfl

/-- The states that a reshape passes after its clean-up. -/
inductive Passed (kernel : Kernel) (blake3 : ContentHash) (first : FirstFile) (lock : Lock) (target : OnDiskShape) (live : LockTree) : LockRoot → Prop
  | cleaned : Passed kernel blake3 first lock target live ⟨live, .empty⟩
  | intact {source : OnDiskShape} (shape : live.onDiskShapeAt first = some source) (txns : SortedMap TxnId TxnDir) :
      Passed kernel blake3 first lock target live ⟨live, txns⟩
  | aside {source : OnDiskShape} {id : TxnId} {dir : TxnDir} (shape : live.onDiskShapeAt first = some source)
      (record : dir.record = .prepared source target) (backup : dir.backup = live)
      (validated : validateStaged kernel blake3 first lock target dir.staged = .ok ()) : Passed kernel blake3 first lock target live ⟨.missing, .insert .empty id dir⟩
  | promoted {staged : LockTree} (validated : validateStaged kernel blake3 first lock target staged = .ok ())
      (txns : SortedMap TxnId TxnDir) : Passed kernel blake3 first lock target live ⟨staged, txns⟩

/-- A reshape stops in its clean-up or in such a state, and a complete one leaves what the plain one returns. -/
theorem reshapeSteps_spec (lock : Lock) (target : OnDiskShape) (root : LockRoot) :
    Keeps (fun state => Stops (cleanupSteps kernel blake3 first schedule) root state ∨ ∃ live,
        (cleanupSteps kernel blake3 first schedule root).outcome = .ok () ∧
        (cleanupSteps kernel blake3 first schedule root).last root = ⟨live, .empty⟩ ∧ Passed kernel blake3 first lock target live state)
      (reshapeSteps kernel blake3 first schedule lock target) root fun _ next =>
        root.reshapeTransactional kernel blake3 first lock target = .ok next := by
  unfold reshapeSteps reshapeTransactional
  refine Keeps.bind _ (Keeps.trace.weaken fun _ => Or.inl) ?_
  rintro ⟨⟩ cleaned ⟨ended, rfl⟩
  obtain ⟨ran, none⟩ := (cleanupSteps_refines root).after () ended
  generalize isCleaned : (cleanupSteps kernel blake3 first schedule root).last root = cleaned at ran none
  obtain ⟨live, txns⟩ := cleaned
  obtain rfl : txns = .empty := none
  rw [ran, Outcome.ok_bind]
  have passed {state : LockRoot} (passed : Passed kernel blake3 first lock target live state) :
      Stops (cleanupSteps kernel blake3 first schedule) root state ∨ ∃ live, (cleanupSteps kernel blake3 first schedule root).outcome = .ok () ∧
        (⟨_, _⟩ : LockRoot) = ⟨live, .empty⟩ ∧ Passed kernel blake3 first lock target live state := Or.inr ⟨live, ended, rfl, passed⟩
  refine Keeps.get_bind ?_
  dsimp only
  cases shape : live.onDiskShapeAt first with
  | none => exact Keeps.raise (passed .cleaned) nofun
  | some source =>
    have intact (txns : SortedMap TxnId TxnDir) := passed (.intact shape txns)
    dsimp only
    refine Keeps.ite (fun same => ?_) fun other => ?_
    · rw [if_pos same]
      exact Keeps.pure (intact _) rfl
    rw [if_neg other]
    refine Keeps.step_bind (intact _) ?_
    refine Keeps.bind _ (Keeps.forM (fun next => ∃ unfinished, next = ⟨live, .insert .empty schedule.txnId { TxnDir.fresh with staged := unfinished }⟩)
      ⟨.missing, rfl⟩ ?_ fun unfinished _ => ?_) ?_
    · rintro _ ⟨unfinished, rfl⟩
      exact intact _
    · rintro _ ⟨before, rfl⟩
      refine Keeps.step (intact _) (intact _) ⟨unfinished, ?_⟩
      simp only [txnDir_single, setTxnDir_single]
    rintro _ _ ⟨unfinished, rfl⟩
    refine Keeps.raise_bind (intact _) fun staged staging => Keeps.step_bind (intact _) ?_
    rw [txnDir_single, setTxnDir_single]
    refine Keeps.raise_bind (intact _) fun _ validated => Keeps.step_bind (intact _) ?_
    rw [txnDir_single, setTxnDir_single]
    refine Keeps.step_bind (intact _) ?_
    rw [moveAside_single]
    refine Keeps.step_bind (passed (.aside shape rfl rfl validated)) ?_
    rw [promote_single]
    change Keeps _ (removeAll schedule schedule.txnId) ⟨staged, .insert .empty schedule.txnId ⟨.prepared source target, .missing, live, .missing⟩⟩ _
    have removal := removeAll_keeps schedule schedule.txnId
      ⟨staged, .insert .empty schedule.txnId ⟨.prepared source target, .missing, live, .missing⟩⟩
    refine ⟨fun state stops => ?_, fun value ended => ?_⟩
    · obtain ⟨_, txns⟩ := state
      obtain rfl : _ = staged := removal.during _ stops
      exact passed (.promoted validated txns)
    · rw [removal.after value ended, staging, Outcome.ok_bind, validated]
      refine congrArg (fun txns => Except.ok (LockRoot.mk staged txns)) (SortedMap.ext fun id => ?_)
      simp only [SortedMap.get?_erase, SortedMap.get?_insert]
      split_ifs <;> rfl

/-! ## Before a transaction -/

theorem Aside.listed {id : TxnId} {dir : TxnDir} {source target : OnDiskShape} (aside : Aside kernel blake3 first given root id dir source target) :
    schedule.list root.txns = [(id, dir)] := by
  refine List.perm_singleton.mp ((schedule.list_perm root.txns).trans ?_)
  rw [aside.state, entries_single]

theorem Aside.inspectLive {id : TxnId} {dir : TxnDir} {source target : OnDiskShape} (aside : Aside kernel blake3 first given root id dir source target) :
    root.inspectLive kernel blake3 first = .ok .missing := by
  rw [aside.state]
  rfl

theorem Bare.listed (bare : Bare kernel blake3 given root) : schedule.list root.txns = [] :=
  List.perm_nil.mp (bare.2 ▸ schedule.list_perm root.txns)

/-- A clean-up before a reshape only ends beside a live lock. -/
theorem cleanupSteps_keeps (schedule : ReshapeSchedule) (sound : Sound kernel blake3 first given root) :
    Keeps (Sound kernel blake3 first given) (cleanupSteps kernel blake3 first schedule) root fun _ next =>
      Shaped kernel blake3 first given next ∨ Bare kernel blake3 given next := by
  unfold cleanupSteps
  refine Keeps.get_bind ?_
  rcases sound with shaped | bare | ⟨id, dir, source, target, aside⟩
  · have sound : Sound kernel blake3 first given root := Or.inl shaped
    refine Keeps.ite (fun _ => Keeps.pure sound (Or.inl shaped)) fun _ => Keeps.raise_bind sound fun live inspected => ?_
    obtain ⟨shape, entries, valid⟩ := shaped.inspectLive
    cases valid.symm.trans inspected
    refine Keeps.raise_bind sound fun _ same => ?_
    cases same
    have loop := forM_cleanupTxnDir_keeps schedule true (schedule.list root.txns) root
    exact ⟨fun state stops => Or.inl (shaped.of_live (loop.during state stops)), fun value ended =>
      Or.inl (shaped.of_live (loop.after value ended).1.1)⟩
  · rw [if_pos bare.listed]
    exact Keeps.pure (Or.inr (Or.inl bare)) (Or.inr bare)
  · have sound : Sound kernel blake3 first given root := Or.inr (Or.inr ⟨id, dir, source, target, aside⟩)
    refine Keeps.ite (fun none => ?_) fun _ => Keeps.raise_bind sound fun live inspected => ?_
    · rw [aside.listed] at none
      cases none
    cases aside.inspectLive.symm.trans inspected
    refine Keeps.raise_bind sound fun _ same => ?_
    cases same
    rw [aside.listed, List.forM_cons]
    refine Keeps.bind (fun _ _ => False) ?_ fun _ _ => False.elim
    unfold cleanupTxnDir
    rw [aside.record]
    exact Keeps.ite (fun isValid => absurd isValid Bool.false_ne_true) fun _ =>
      Keeps.ite (fun _ => Keeps.raise sound nofun) fun _ => Keeps.raise sound nofun

/-! ## The commands -/

/-- A staged tree that was validated is a copy in the target shape. -/
theorem validateStaged_ok {lock : Lock} {target : OnDiskShape} {staged : LockTree} (isGiven : given lock)
    (validated : validateStaged kernel blake3 first lock target staged = .ok ()) :
    staged.onDiskShapeAt first = some target ∧ IsCopy kernel blake3 given staged := by
  unfold validateStaged at validated
  dsimp only at validated
  split_ifs at validated with mismatch
  · cases validated
  have shape := not_not.mp mismatch
  obtain ⟨loaded, loads, rest⟩ := Outcome.bind_eq_ok_iff.mp validated
  rw [LockTree.mapErr_eq_ok_iff, LockTree.loadShapeAt_eq shape] at loads
  split_ifs at rest with other
  · cases rest
  refine ⟨shape, fun missing => ?_, lock, isGiven, loaded, loads, not_not.mp other⟩
  rw [missing] at shape
  cases shape

/-- A reshape, wherever it stops. -/
theorem reshapeSteps_keeps {lock : Lock} {target : OnDiskShape} (isGiven : given lock) (sound : Sound kernel blake3 first given root) :
    Keeps (Sound kernel blake3 first given) (reshapeSteps kernel blake3 first schedule lock target) root fun _ _ => True := by
  refine ((reshapeSteps_spec lock target root).weaken fun state stops => ?_).mono fun _ _ _ _ => trivial
  have cleanup := cleanupSteps_keeps schedule sound
  rcases stops with early | ⟨live, ended, cleaned, passed⟩
  · exact cleanup.during state early
  have kept := cleanup.after () ended
  rw [cleaned] at kept
  cases passed with
  | cleaned => exact kept.elim Or.inl fun bare => Or.inr (Or.inl bare)
  | intact shape txns => exact Or.inl ⟨⟨_, shape⟩, kept.elim And.right And.left⟩
  | aside shape record backup validated =>
    have copy : IsCopy kernel blake3 given live := kept.elim And.right And.left
    exact Or.inr (Or.inr ⟨_, _, _, target, rfl, record, backup ▸ ⟨shape, copy⟩, validateStaged_ok isGiven validated⟩)
  | promoted validated txns =>
    obtain ⟨shape, copy⟩ := validateStaged_ok isGiven validated
    exact Or.inl ⟨⟨target, shape⟩, copy⟩

/-- A clean-up on request, wherever it stops. -/
theorem cleanDisposable_keeps (sound : Sound kernel blake3 first given root) :
    Keeps (Sound kernel blake3 first given) (cleanDisposableReshapeScratch kernel blake3 first schedule) root fun _ _ => True := by
  unfold cleanDisposableReshapeScratch
  refine Keeps.get_bind (Keeps.ite (fun _ => Keeps.pure sound trivial) fun some => Keeps.raise_bind sound fun live inspected => ?_)
  rcases sound with shaped | bare | ⟨id, dir, source, target, aside⟩
  · refine (Keeps.forM (Shaped kernel blake3 first given) shaped (fun _ => Or.inl) fun txn _ state shaped => ?_).mono fun _ _ _ _ => trivial
    have removal := cleanTxnDir_keeps schedule live.isValid txn state
    exact ⟨fun next stops => Or.inl (shaped.of_live (removal.during next stops)), fun value ended => shaped.of_live (removal.after value ended)⟩
  · exact absurd bare.listed some
  · have sound : Sound kernel blake3 first given root := Or.inr (Or.inr ⟨id, dir, source, target, aside⟩)
    cases aside.inspectLive.symm.trans inspected
    rw [aside.listed, List.forM_cons]
    unfold cleanTxnDirIfDisposable
    rw [aside.record]
    refine Keeps.bind (fun _ state => state = root) (Keeps.pure sound rfl) ?_
    rintro _ _ rfl
    exact Keeps.pure sound trivial

theorem readPreparedRecord_ok {dir : TxnDir} {shapes : OnDiskShape × OnDiskShape} (read : readPreparedRecord dir = .ok shapes) :
    dir.record = .prepared shapes.1 shapes.2 := by
  unfold readPreparedRecord at read
  cases record : dir.record with
  | absent =>
    rw [record] at read
    cases read
  | invalid =>
    rw [record] at read
    cases read
  | prepared source target =>
    rw [record] at read
    cases read
    rfl

/-- A recovery only does anything when the live lock was moved aside, and then puts a copy in its place. -/
theorem recover_keeps (id : TxnId) (choice : ReshapeRecoveryChoice) (sound : Sound kernel blake3 first given root) :
    Keeps (Sound kernel blake3 first given) (recoverPreparedReshape kernel blake3 first id choice) root fun _ next =>
      Shaped kernel blake3 first given next := by
  unfold recoverPreparedReshape
  refine Keeps.get_bind ?_
  refine Keeps.raise_bind sound fun shapes read => ?_
  have record := readPreparedRecord_ok read
  dsimp only
  rcases sound with shaped | bare | ⟨other, dir, _, _, aside⟩
  · rw [if_pos shaped.liveLoads]
    exact Keeps.raise (Or.inl shaped) nofun
  · rw [txnDir, bare.2] at record
    cases record
  · have sound : Sound kernel blake3 first given root := Or.inr (Or.inr ⟨other, dir, _, _, aside⟩)
    obtain ⟨rfl, recorded, backup, staged⟩ := aside
    by_cases here : id = other
    swap
    · rw [txnDir, SortedMap.get?_insert, if_neg (Ne.symm here)] at record
      cases record
    subst here
    have missing : (⟨.missing, .insert .empty id dir⟩ : LockRoot).liveLoads kernel blake3 first = false := rfl
    rw [missing, if_neg Bool.false_ne_true]
    refine Keeps.ite (fun _ => Keeps.raise sound nofun) fun _ => Keeps.raise_bind sound fun _ _ => ?_
    rw [if_neg (not_not.mpr rfl)]
    cases choice with
    | restoreBackup =>
      refine Keeps.step sound ?_ ?_
      all_goals rw [restore_single]
      · exact Or.inl ⟨⟨_, backup.1⟩, backup.2⟩
      · exact ⟨⟨_, backup.1⟩, backup.2⟩
    | promoteStaged =>
      refine Keeps.step sound ?_ ?_
      all_goals rw [promote_single]
      · exact Or.inl ⟨⟨_, staged.1⟩, staged.2⟩
      · exact ⟨⟨_, staged.1⟩, staged.2⟩

/-! ## What recovery finds -/

/-- When the live lock was moved aside, both choices of a recovery succeed. -/
theorem recover_aside {id : TxnId} {dir : TxnDir} {source target : OnDiskShape} (aside : Aside kernel blake3 first given root id dir source target)
    (choice : ReshapeRecoveryChoice) : ∃ recovered, recoverPreparedReshape kernel blake3 first id choice root = ⟨[recovered], .ok ()⟩ ∧
      recovered.live = candidate dir choice := by
  obtain ⟨rfl, recorded, backup, staged⟩ := aside
  have read : readPreparedRecord ((⟨.missing, .insert .empty id dir⟩ : LockRoot).txnDir id) = .ok (source, target) := by
    rw [txnDir_single, readPreparedRecord, recorded]
  have missing : (⟨.missing, .insert .empty id dir⟩ : LockRoot).liveLoads kernel blake3 first = false := rfl
  have loads {tree : LockTree} {shape : OnDiskShape} (copy : tree.onDiskShapeAt first = some shape ∧ IsCopy kernel blake3 given tree) :
      ∃ loaded : Lock, (tree.loadShapeAt kernel blake3 shape).mapErr PersistenceError.candidateInvalid = .ok loaded := by
    obtain ⟨shaped, -, _, -, loaded, ran, -⟩ := copy
    exact ⟨loaded, LockTree.mapErr_eq_ok_iff.mpr (by rwa [LockTree.loadShapeAt_eq shaped])⟩
  unfold recoverPreparedReshape
  rw [Durable.get_bind_apply, read, Durable.raise_ok_bind_apply]
  dsimp only
  rw [missing, if_neg Bool.false_ne_true, txnDir_single]
  cases choice with
  | restoreBackup =>
    obtain ⟨loaded, ran⟩ := loads backup
    refine ⟨⟨dir.backup, .insert .empty id { dir with backup := .missing }⟩, ?_, rfl⟩
    rw [candidate, if_neg (not_not.mpr backup.1), ran, Durable.raise_ok_bind_apply, if_neg (not_not.mpr rfl)]
    exact congrArg (fun next => (⟨[next], .ok ()⟩ : Durable.Run _ _ _)) restore_single
  | promoteStaged =>
    obtain ⟨loaded, ran⟩ := loads staged
    refine ⟨⟨dir.staged, .insert .empty id { dir with staged := .missing }⟩, ?_, rfl⟩
    rw [candidate, if_neg (not_not.mpr staged.1), ran, Durable.raise_ok_bind_apply, if_neg (not_not.mpr rfl)]
    exact congrArg (fun next => (⟨[next], .ok ()⟩ : Durable.Run _ _ _)) promote_single

end LockRoot

end Gat
