import Gat.Proofs.Publish

/-! # Runs of the publication pipeline

Every step keeps the accounts. A scan that has admitted nothing has passed empty queues only, unless the first waiting
remote is still ahead of it, so a coordinator with nothing in flight has nothing queued.
-/

namespace Gat

namespace PipelineState

variable {ε : Type} {window : PublishWindow ε} {state : PipelineState window} {batch : List Oid} {outside : List (Fin window.count)}
  {index : Fin window.count} {rest : List (Fin window.count)} {remote : RemoteId}

/-! ## The first state -/

/-- Queues that hold the obligations of their remotes, and the remotes with a queue. -/
structure Queued (queued : SortedMap RemoteId (List (Fin window.count)) × List RemoteId) : Prop where
  own : ∀ remote, ∀ index ∈ (queued.1.get? remote).getD [], window.remoteOf index = remote
  listed : ∀ remote, (queued.1.get? remote).getD [] ≠ [] → remote ∈ queued.2

theorem Queued.enqueue {queued : SortedMap RemoteId (List (Fin window.count)) × List RemoteId} (kept : Queued queued) (index : Fin window.count) :
    Queued (enqueuePresence window queued index) := by
  refine ⟨fun remote other member => ?_, fun remote some => ?_⟩
  · simp only [enqueuePresence, SortedMap.get?_insert] at member
    split_ifs at member with same
    · rcases List.mem_append.mp member with old | new
      · exact same ▸ kept.own _ other old
      · rw [List.mem_singleton.mp new, same]
    · exact kept.own remote other member
  · simp only [enqueuePresence, SortedMap.get?_insert] at some ⊢
    by_cases same : window.remoteOf index = remote
    · subst same
      split_ifs with begins
      · exact List.mem_append_right _ List.mem_cons_self
      · exact kept.listed _ fun empty => begins (List.isEmpty_iff.mpr empty)
    · rw [if_neg same] at some
      have listed := kept.listed remote some
      split_ifs
      · exact List.mem_append_left _ listed
      · exact listed

theorem queueCount_enqueuePresence (queued : SortedMap RemoteId (List (Fin window.count)) × List RemoteId) (index other : Fin window.count) :
    queueCount (enqueuePresence window queued index).1 other = queueCount queued.1 other + [index].count other := by
  have inserted := queueCount_insert queued.1 (window.remoteOf index) ((queued.1.get? (window.remoteOf index)).getD [] ++ [index]) other
  rw [List.count_append] at inserted
  simp only [enqueuePresence]
  omega

theorem Queued.enqueueAll (indices : List (Fin window.count)) {queued : SortedMap RemoteId (List (Fin window.count)) × List RemoteId}
    (kept : Queued queued) : Queued (indices.foldl (enqueuePresence window) queued) ∧
      ∀ other, queueCount (indices.foldl (enqueuePresence window) queued).1 other = queueCount queued.1 other + indices.count other := by
  induction indices generalizing queued with
  | nil => exact ⟨kept, fun _ => rfl⟩
  | cons index indices ih =>
    obtain ⟨all, counts⟩ := ih (kept.enqueue index)
    refine ⟨all, fun other => ?_⟩
    rw [List.foldl_cons, counts, queueCount_enqueuePresence, Nat.add_assoc, ← List.count_append, List.singleton_append]

/-- At first every obligation is queued for its check. -/
theorem Accounts.new (window : PublishWindow ε) :
    (PipelineState.new window).Accounts [] [] ∧ ∀ index, window.remoteOf index ∈ (PipelineState.new window).remoteOrder := by
  have empty : Queued ((.empty, []) : SortedMap RemoteId (List (Fin window.count)) × List RemoteId) := ⟨nofun, nofun⟩
  obtain ⟨kept, counts⟩ := empty.enqueueAll (List.finRange window.count)
  have once (index : Fin window.count) : (PipelineState.new window).places index = 1 := by
    have count := counts index
    rw [List.count_finRange] at count
    exact count
  refine ⟨⟨⟨kept.own, nofun, nofun, nofun, nofun, fun _ known => absurd rfl known, nofun, fun _ done => absurd rfl done, nofun,
    List.nodup_nil, nofun⟩, ⟨fun index => ?_, fun index _ => ?_⟩, nofun⟩, fun index => ?_⟩
  · rw [once, List.count_nil]
  · rw [once, List.count_nil]
  · have queued : 0 < queueCount (PipelineState.new window).pendingPresence index := by
      have count := counts index
      rw [List.count_finRange] at count
      exact count ▸ Nat.one_pos
    obtain ⟨remote, member⟩ := queueCount_pos_iff.mp queued
    rw [kept.own remote index member]
    exact kept.listed remote (List.ne_nil_of_mem member)

/-! ## Admissions -/

/-- The head of a queue of checks is taken out. -/
theorem Accounts.presenceTaken (accounts : state.Accounts batch outside)
    (queue : (state.pendingPresence.get? remote).getD [] = index :: rest) :
    { state with pendingPresence := state.pendingPresence.insert remote rest }.Accounts batch (index :: outside) := by
  refine ⟨{ accounts.facts with pending := fun other queued member => ?_ }, accounts.placed.moved (by rfl) fun other => ?_, accounts.live⟩
  · dsimp only at member
    rw [SortedMap.get?_insert] at member
    split_ifs at member with same
    · subst same
      exact accounts.facts.pending remote queued (queue ▸ List.mem_cons_of_mem _ member)
    · exact accounts.facts.pending other queued member
  · have inserted := queueCount_insert state.pendingPresence remote rest other
    rw [queue, List.count_cons] at inserted
    rw [List.count_cons, places, places]
    dsimp only
    omega

/-- The head of a queue of uploads is taken out. -/
theorem Accounts.uploadTaken (accounts : state.Accounts batch outside) (queue : (state.readyUploads.get? remote).getD [] = index :: rest) :
    { state with readyUploads := state.readyUploads.insert remote rest }.Accounts batch (index :: outside) := by
  refine ⟨{ accounts.facts with ready := fun other queued member => ?_ }, accounts.placed.moved (by rfl) fun other => ?_, accounts.live⟩
  · dsimp only at member
    rw [SortedMap.get?_insert] at member
    split_ifs at member with same
    · subst same
      exact accounts.facts.ready remote queued (queue ▸ List.mem_cons_of_mem _ member)
    · exact accounts.facts.ready other queued member
  · have inserted := queueCount_insert state.readyUploads remote rest other
    rw [queue, List.count_cons] at inserted
    rw [List.count_cons, places, places]
    dsimp only
    omega

end PipelineState

/-! ## Work in flight -/

namespace PublishWork

variable {ι : Type}

/-- The obligations that work in flight has not reported. -/
def owes : PublishWork ι → List ι
  | .presence remaining _ => remaining
  | .upload index _ => [index]
  | .verification _ => []

def verifies : PublishWork ι → Option (List Oid)
  | .verification oids => some oids
  | _ => none

def leases : PublishWork ι → List TransferLease
  | .upload _ lease => [lease]
  | _ => []

end PublishWork

namespace PublishRun

variable {ε : Type} {window : PublishWindow ε}

/-- The groups that a scan has admitted so far. -/
def groupsOf {ι : Type} : PublishPhase ι → SortedMap RemoteId (List ι)
  | .scan _ groups => groups
  | _ => .empty

def verifications (run : PublishRun window) : List (List Oid) := run.inFlight.filterMap PublishWork.verifies

/-- The objects that are being verified. -/
def batch (run : PublishRun window) : List Oid := run.verifications.flatten

/-- The obligations that are admitted and not reported. -/
def outside (run : PublishRun window) : List (Fin window.count) := (groupsOf run.phase).items ++ run.inFlight.flatMap PublishWork.owes

/-- The remotes that a scan has passed. -/
def Visited (run : PublishRun window) (offset : ℕ) (remote : RemoteId) : Prop := ∃ earlier < offset, run.scanned earlier = some remote

/-- What a scan has passed when nothing is admitted: no checks, and no uploads unless the first waiting remote is still to come. -/
structure Passed (run : PublishRun window) (offset : ℕ) : Prop where
  presence : ∀ remote, run.Visited offset remote → queueOf run.state.pendingPresence remote = []
  upload : (∀ remote, run.Visited offset remote → queueOf run.state.readyUploads remote = []) ∨
    ∃ first ∈ run.admission.waiting.head?, queueOf run.state.readyUploads first.1 ≠ [] ∧ ¬run.Visited offset first.1

theorem not_visited_zero {run : PublishRun window} {remote : RemoteId} : ¬run.Visited 0 remote := by
  rintro ⟨earlier, before, -⟩
  exact Nat.not_lt_zero earlier before

/-- A scan that begins has passed nothing. -/
theorem passed_zero (run : PublishRun window) : run.Passed 0 :=
  ⟨fun _ visited => absurd visited not_visited_zero, .inl fun _ visited => absurd visited not_visited_zero⟩

/-- What holds between steps. -/
structure Coherent (run : PublishRun window) : Prop where
  accounts : run.state.Accounts run.batch run.outside
  listed : ∀ index, window.remoteOf index ∈ run.state.remoteOrder
  single : run.state.verificationActive = false ∧ run.verifications = [] ∨
    run.state.verificationActive = true ∧ ∃ oids, oids ≠ [] ∧ run.verifications = [oids]
  owing : ∀ remaining leases, .presence remaining leases ∈ run.inFlight → remaining ≠ []
  uploads : ∀ index lease, .upload index lease ∈ run.inFlight →
    window.probe index = .ok false ∧ run.state.verification.get? (window.oidOf index) = some .valid
  leased : ∃ leases, Transfers.Reached window.transfer ⟨run.admission, leases⟩ ∧ leases.Perm (run.inFlight.flatMap PublishWork.leases)
  quiet : run.phase ≠ .drain → run.state.verificationActive = true ∨ run.state.pendingVerification = []
  waiters : run.state.error = none → ∀ waiter ∈ run.admission.waiting, queueOf run.state.readyUploads waiter.1 ≠ []
  grouped : ∀ remote group, (groupsOf run.phase).get? remote = some group → group ≠ []
  passed : ∀ offset groups, run.phase = .scan offset groups → run.inFlight = [] → groups.items = [] → run.Passed offset
  idle : run.phase = .wait ∧ run.inFlight = [] ∨ run.phase = .returned → run.inFlight = [] ∧
    ∀ remote, queueOf run.state.pendingPresence remote = [] ∧ queueOf run.state.readyUploads remote = []

/-- The steps that leave no earlier obligation behind. An object that an obligation below the error misses is not being
verified by nobody, and an idle coordinator does not meet a first waiter without uploads. -/
def Meets (run : PublishRun window) : Event (Fin window.count) → Prop
  | .presence index => window.probe index = .ok false → run.state.Below index →
    ∀ waiting, run.state.verification.get? (window.oidOf index) = some (.running waiting) →
      window.oidOf index ∈ run.batch ++ run.state.pendingVerification
  | .visit remote => run.inFlight = [] → (groupsOf run.phase).items = [] → queueOf run.state.pendingPresence remote = [] →
    queueOf run.state.readyUploads remote ≠ [] → ∀ first ∈ run.admission.waiting.head?, queueOf run.state.readyUploads first.1 ≠ []
  | _ => True

namespace Coherent

variable {run next : PublishRun window}

theorem init (window : PublishWindow ε) : Coherent (init window) where
  accounts := (PipelineState.Accounts.new window).1
  listed := (PipelineState.Accounts.new window).2
  single := .inl ⟨rfl, rfl⟩
  owing := nofun
  uploads := nofun
  leased := ⟨[], .new, .refl _⟩
  quiet _ := .inr rfl
  waiters := nofun
  grouped := nofun
  passed offset groups scanning _ _ := by
    cases scanning
    exact passed_zero _
  idle := nofun

/-! ## Completions -/

section Completions

variable {before after : List (PublishWork (Fin window.count))} {index : Fin window.count} {rest leases : List (Fin window.count)}
  {lease : TransferLease} {oids : List Oid} {entries : List VerifiedCacheEntry} {oid : Oid} {source : ε}

/-- Outside a scan all admitted work is in flight. -/
theorem outside_of_waiting (waiting : run.phase = .wait ∨ run.phase = .drain) : run.outside = run.inFlight.flatMap PublishWork.owes := by
  rcases waiting with here | here <;> rw [outside, here] <;> rfl

/-- A completion leads to a coherent run when the accounts and the work in flight are right. -/
theorem drained (coherent : Coherent run) {state : PipelineState window} {admission : Admission} {active : Bool}
    {inFlight : List (PublishWork (Fin window.count))} {log : List (PublishEvent (Fin window.count))}
    (accounts : state.Accounts (inFlight.filterMap PublishWork.verifies).flatten (inFlight.flatMap PublishWork.owes))
    (extends_ : { run.state with verificationActive := active }.Extends state)
    (single : active = false ∧ inFlight.filterMap PublishWork.verifies = [] ∨
      active = true ∧ ∃ oids, oids ≠ [] ∧ inFlight.filterMap PublishWork.verifies = [oids])
    (owing : ∀ remaining leases, .presence remaining leases ∈ inFlight → remaining ≠ [])
    (within : ∀ index lease, .upload index lease ∈ inFlight → .upload index lease ∈ run.inFlight)
    (leased : ∃ leases, Transfers.Reached window.transfer ⟨admission, leases⟩ ∧ leases.Perm (inFlight.flatMap PublishWork.leases))
    (waiting : admission.waiting = run.admission.waiting) :
    Coherent (⟨state, admission, inFlight, .drain, log⟩ : PublishRun window) where
  accounts := accounts
  listed index := by
    have listed := coherent.listed index
    rwa [← show state.remoteOrder = run.state.remoteOrder from extends_.order] at listed
  single := by
    have same : state.verificationActive = active := extends_.active
    exact single.imp (And.imp_left same.trans) (And.imp_left same.trans)
  owing := owing
  uploads index lease member := by
    obtain ⟨missing, valid⟩ := coherent.uploads index lease (within index lease member)
    exact ⟨missing, extends_.valid _ valid⟩
  leased := leased
  quiet notDraining := absurd rfl notDraining
  waiters none waiter member := by
    dsimp only at member
    rw [waiting] at member
    exact extends_.ready none waiter.1 (coherent.waiters (extends_.error none) waiter member)
  grouped := nofun
  passed := nofun
  idle := nofun

theorem owes_advance (rest leases : List (Fin window.count)) : (advance rest leases).flatMap PublishWork.owes = rest := by
  cases rest with
  | nil => rfl
  | cons index rest => exact List.flatMap_singleton ..

theorem mem_advance {work : PublishWork (Fin window.count)} (member : work ∈ advance rest leases) : rest ≠ [] ∧ work = .presence rest leases := by
  unfold advance at member
  split_ifs at member with done
  · cases member
  · exact ⟨fun empty => done (List.isEmpty_iff.mpr empty), List.mem_singleton.mp member⟩

theorem filterMap_advance {β : Type} (read : PublishWork (Fin window.count) → Option β) (nothing : ∀ rest leases, read (.presence rest leases) = none) :
    (advance rest leases).filterMap read = [] :=
  List.filterMap_eq_nil_iff.mpr fun _ member => (mem_advance member).2 ▸ nothing rest leases

/-- The outcome of a check. -/
theorem presence (coherent : Coherent run) (waiting : run.phase = .wait ∨ run.phase = .drain)
    (running : run.inFlight = before ++ .presence (index :: rest) leases :: after) (meets : run.Meets (.presence index)) :
    ∃ state, run.state.presenceCompleted index (window.probe index) = some state ∧
      Coherent { run with state, inFlight := before ++ advance rest leases ++ after, phase := .drain } ∧ run.state.Extends state := by
  have accounts := coherent.accounts
  have verifies : (before ++ advance rest leases ++ after).filterMap PublishWork.verifies = run.verifications := by
    rw [verifications, running, List.filterMap_append, List.filterMap_append, List.filterMap_append, List.filterMap_cons,
      filterMap_advance _ fun _ _ => rfl, List.append_nil]
    rfl
  have split : run.outside.Perm (index :: (before ++ advance rest leases ++ after).flatMap PublishWork.owes) := by
    rw [outside_of_waiting waiting, running, List.flatMap_append, List.flatMap_cons, List.flatMap_append, List.flatMap_append, owes_advance,
      List.append_assoc]
    exact List.perm_middle
  obtain ⟨state, completed, next, extends_⟩ :=
    PipelineState.Accounts.presenceCompleted ⟨accounts.facts, accounts.placed.perm split, accounts.live⟩ meets
  refine ⟨state, completed, coherent.drained (verifies ▸ next) extends_ (verifies ▸ coherent.single) (fun remaining others member => ?_)
    (fun other lease member => ?_) ?_ rfl, extends_⟩
  · rcases List.mem_append.mp member with left | right
    · rcases List.mem_append.mp left with old | new
      · exact coherent.owing remaining others (running ▸ List.mem_append_left _ old)
      · obtain ⟨some, same⟩ := mem_advance new
        cases same
        exact some
    · exact coherent.owing remaining others (running ▸ List.mem_append_right _ (List.mem_cons_of_mem _ right))
  · rw [running]
    rcases List.mem_append.mp member with left | right
    · rcases List.mem_append.mp left with old | new
      · exact List.mem_append_left _ old
      · cases (mem_advance new).2
    · exact List.mem_append_right _ (List.mem_cons_of_mem _ right)
  · obtain ⟨held, reached, perm⟩ := coherent.leased
    refine ⟨held, reached, perm.trans (List.Perm.of_eq ?_)⟩
    have nothing : (advance rest leases).flatMap PublishWork.leases = [] :=
      List.flatMap_eq_nil_iff.mpr fun work member => (mem_advance member).2 ▸ rfl
    rw [running, List.flatMap_append, List.flatMap_cons, List.flatMap_append, List.flatMap_append, nothing, List.append_nil]
    rfl

theorem drop_waiting {admission next : Admission} (dropped : admission.drop lease = some next) : next.waiting = admission.waiting := by
  simp only [Admission.drop, Option.bind_eq_bind, Option.bind_eq_some_iff, Option.pure_def, Option.some.injEq] at dropped
  obtain ⟨_, -, _, -, _, -, rfl⟩ := dropped
  rfl

/-- What is left in flight is what was there. -/
theorem left_mem {work other : PublishWork (Fin window.count)} (running : run.inFlight = before ++ work :: after) (member : other ∈ before ++ after) :
    other ∈ run.inFlight := by
  rw [running]
  rcases List.mem_append.mp member with left | right
  · exact List.mem_append_left _ left
  · exact List.mem_append_right _ (List.mem_cons_of_mem _ right)

/-- The end of an upload, which gives its lease back. -/
theorem upload (coherent : Coherent run) (waiting : run.phase = .wait ∨ run.phase = .drain)
    (running : run.inFlight = before ++ .upload index lease :: after) :
    ∃ admission state, run.admission.drop lease = some admission ∧ run.state.uploadCompleted index (window.upload index) = some state ∧
      Coherent { run with state, admission, inFlight := before ++ after, phase := .drain } ∧ run.state.Extends state := by
  have accounts := coherent.accounts
  have verifies : (before ++ after).filterMap PublishWork.verifies = run.verifications := by
    rw [verifications, running, List.filterMap_append, List.filterMap_append, List.filterMap_cons]
    rfl
  have split : run.outside.Perm (index :: (before ++ after).flatMap PublishWork.owes) := by
    rw [outside_of_waiting waiting, running, List.flatMap_append, List.flatMap_cons, List.flatMap_append]
    exact List.perm_middle
  have here : .upload index lease ∈ run.inFlight := running ▸ List.mem_append_right _ List.mem_cons_self
  obtain ⟨missing, valid⟩ := coherent.uploads index lease here
  obtain ⟨state, completed, next, extends_⟩ :=
    PipelineState.Accounts.uploadCompleted ⟨accounts.facts, accounts.placed.perm split, accounts.live⟩ missing valid
  obtain ⟨held, reached, perm⟩ := coherent.leased
  have rest : held.Perm (lease :: (before ++ after).flatMap PublishWork.leases) := by
    refine perm.trans ?_
    rw [running, List.flatMap_append, List.flatMap_cons, List.flatMap_append]
    exact List.perm_middle
  have live : lease ∈ held := rest.mem_iff.mpr List.mem_cons_self
  obtain ⟨admission, dropped, -⟩ := reached.books.exists_drop live
  refine ⟨admission, state, dropped, completed, coherent.drained (verifies ▸ next) extends_ (verifies ▸ coherent.single)
    (fun remaining others member => coherent.owing remaining others (left_mem running member)) (fun other lease => left_mem running)
    ⟨held.erase lease, .drop live dropped reached, ?_⟩ (drop_waiting dropped), extends_⟩
  have erased := rest.erase lease
  rwa [List.erase_cons_head] at erased

/-- Only one batch is verified at a time. -/
theorem alone (coherent : Coherent run) (running : run.inFlight = before ++ .verification oids :: after) :
    oids ≠ [] ∧ (before ++ after).filterMap PublishWork.verifies = [] ∧ run.batch = oids := by
  have all : run.verifications = before.filterMap PublishWork.verifies ++ oids :: after.filterMap PublishWork.verifies := by
    rw [verifications, running, List.filterMap_append, List.filterMap_cons]
    rfl
  rcases coherent.single with ⟨-, none⟩ | ⟨-, others, some, one⟩
  · rw [none] at all
    exact absurd all.symm (List.append_ne_nil_of_right_ne_nil _ (List.cons_ne_nil _ _))
  · rw [one] at all
    obtain ⟨left, same⟩ | ⟨_, left, empty⟩ := List.append_eq_cons_iff.mp all.symm
    · rw [List.cons.injEq] at same
      obtain ⟨rfl, right⟩ := same
      refine ⟨some, by rw [List.filterMap_append, left, right, List.append_nil], ?_⟩
      rw [batch, one, List.flatten_singleton]
    · exact absurd empty.symm (List.append_ne_nil_of_right_ne_nil _ (List.cons_ne_nil _ _))

/-- The end of a verification, however it ends. -/
theorem verificationEnded (coherent : Coherent run) (running : run.inFlight = before ++ .verification oids :: after)
    {state : PipelineState window} {log : List (PublishEvent (Fin window.count))}
    (accounts : state.Accounts [] ((before ++ after).flatMap PublishWork.owes))
    (extends_ : { run.state with verificationActive := false }.Extends state) :
    Coherent (⟨state, run.admission, before ++ after, .drain, log⟩ : PublishRun window) := by
  obtain ⟨-, none, -⟩ := coherent.alone running
  refine coherent.drained (by rwa [none]) extends_ (.inl ⟨rfl, none⟩)
    (fun remaining others member => coherent.owing remaining others (left_mem running member)) (fun other lease => left_mem running) ?_ rfl
  obtain ⟨held, reached, perm⟩ := coherent.leased
  refine ⟨held, reached, perm.trans (List.Perm.of_eq ?_)⟩
  rw [running, List.flatMap_append, List.flatMap_cons, List.flatMap_append]
  rfl

/-- The accounts of a run whose batch is about to end. -/
theorem batchAccounts (coherent : Coherent run) (waiting : run.phase = .wait ∨ run.phase = .drain)
    (running : run.inFlight = before ++ .verification oids :: after) :
    run.state.Accounts oids ((before ++ after).flatMap PublishWork.owes) := by
  have accounts := coherent.accounts
  rw [outside_of_waiting waiting, running, List.flatMap_append, List.flatMap_cons] at accounts
  rw [List.flatMap_append]
  obtain ⟨-, -, same⟩ := coherent.alone running
  rw [same] at accounts
  exact accounts

theorem verified (coherent : Coherent run) (waiting : run.phase = .wait ∨ run.phase = .drain)
    (running : run.inFlight = before ++ .verification oids :: after)
    (verified : List.Forall₂ (fun oid entry => window.verify oid = .ok entry) oids entries) :
    ∃ state, run.state.verificationCompleted oids (.ok entries) = some state ∧
      Coherent { run with state, inFlight := before ++ after, phase := .drain, log := run.log ++ oids.map .verified } ∧
      { run.state with verificationActive := false }.Extends state := by
  obtain ⟨some, -, -⟩ := coherent.alone running
  obtain ⟨state, completed, accounts, extends_⟩ := (coherent.batchAccounts waiting running).verified some verified
  exact ⟨state, completed, coherent.verificationEnded running accounts extends_, extends_⟩

theorem failed (coherent : Coherent run) (waiting : run.phase = .wait ∨ run.phase = .drain)
    (running : run.inFlight = before ++ .verification oids :: after) (member : oid ∈ oids) (failed : window.verify oid = .error source) :
    ∃ state, run.state.verificationCompleted oids (.error (some oid, source)) = some state ∧
      Coherent { run with state, inFlight := before ++ after, phase := .drain } := by
  obtain ⟨state, completed, accounts, extends_⟩ := (coherent.batchAccounts waiting running).failed member failed
  exact ⟨state, completed, coherent.verificationEnded running accounts extends_⟩

end Completions

/-! ## Between completions -/

/-- A new verification starts when none is active. -/
theorem turn (coherent : Coherent run) (draining : run.phase = .drain) : Coherent run.turn := by
  have outside : run.outside = run.inFlight.flatMap PublishWork.owes := outside_of_waiting (.inr draining)
  have scanning (state : PipelineState window) (inFlight : List (PublishWork (Fin window.count))) (log : List (PublishEvent (Fin window.count)))
      (accounts : state.Accounts (inFlight.filterMap PublishWork.verifies).flatten (inFlight.flatMap PublishWork.owes))
      (order : state.remoteOrder = run.state.remoteOrder) (ready : state.readyUploads = run.state.readyUploads)
      (verification : state.verification = run.state.verification) (error : state.error = run.state.error)
      (single : state.verificationActive = false ∧ inFlight.filterMap PublishWork.verifies = [] ∨
        state.verificationActive = true ∧ ∃ oids, oids ≠ [] ∧ inFlight.filterMap PublishWork.verifies = [oids])
      (within : ∀ work ∈ inFlight, work ∈ run.inFlight ∨ ∃ oids, work = .verification oids)
      (leases : inFlight.flatMap PublishWork.leases = run.inFlight.flatMap PublishWork.leases)
      (quiet : state.verificationActive = true ∨ state.pendingVerification = []) :
      Coherent (⟨state, run.admission, inFlight, .scan 0 .empty, log⟩ : PublishRun window) := by
    refine ⟨accounts, fun index => ?_, single, fun remaining leases member => ?_, fun index lease member => ?_, ?_, fun _ => quiet,
      fun none => ?_, nofun, fun offset groups scanning _ _ => ?_, nofun⟩
    · dsimp only
      rw [order]
      exact coherent.listed index
    · rcases within _ member with old | ⟨_, new⟩
      · exact coherent.owing remaining leases old
      · cases new
    · rcases within _ member with old | ⟨_, new⟩
      · dsimp only
        rw [verification]
        exact coherent.uploads index lease old
      · cases new
    · dsimp only
      rw [leases]
      exact coherent.leased
    · dsimp only
      rw [ready]
      exact coherent.waiters (error.symm.trans none)
    · cases scanning
      exact passed_zero _
  by_cases active : run.state.verificationActive = true
  · rw [PublishRun.turn, if_pos active]
    exact scanning run.state run.inFlight run.log (outside ▸ coherent.accounts) rfl rfl rfl rfl coherent.single (fun _ => .inl) rfl (.inl active)
  · have idle : run.verifications = [] := by
      rcases coherent.single with idle | busy
      · exact idle.2
      · exact absurd busy.1 active
    have batch : run.batch = [] := by rw [PublishRun.batch, idle, List.flatten_nil]
    have accounts := coherent.accounts
    rw [batch, outside] at accounts
    obtain ⟨awaited, -, taken, next⟩ := accounts.batchTaken
    rw [PublishRun.turn, if_neg active, taken]
    dsimp only
    split_ifs with none
    · have nothing : awaited = [] := by
        rcases List.take_eq_nil_iff.mp (List.isEmpty_iff.mp none) with zero | nothing
        · cases zero
        · exact nothing
      subst nothing
      refine scanning _ run.inFlight run.log ?_ rfl rfl rfl rfl coherent.single (fun _ => .inl) rfl (.inr rfl)
      change PipelineState.Accounts run.verifications.flatten _ _
      rw [idle]
      exact next
    · have verifies : (run.inFlight ++ [PublishWork.verification (awaited.take VERIFICATION_BATCH_SIZE)]).filterMap PublishWork.verifies =
          [awaited.take VERIFICATION_BATCH_SIZE] := by
        rw [List.filterMap_append, show run.inFlight.filterMap PublishWork.verifies = [] from idle]
        rfl
      refine scanning _ _ _ ?_ rfl rfl rfl rfl (.inr ⟨rfl, _, fun empty => none (List.isEmpty_iff.mpr empty), verifies⟩) (fun work member => ?_) ?_
        (.inl rfl)
      · rw [verifies, List.flatten_singleton, List.flatMap_append, List.flatMap_singleton, PublishWork.owes, List.append_nil]
        exact next.inactive true
      · rcases List.mem_append.mp member with old | new
        · exact .inl old
        · exact .inr ⟨_, List.mem_singleton.mp new⟩
      · rw [List.flatMap_append]
        exact List.append_nil _

theorem exists_add_mod_eq {length position : ℕ} (start : ℕ) (within : position < length) : ∃ offset < length, (start + offset) % length = position := by
  have bound := Nat.mod_lt start (Nat.zero_lt_of_lt within)
  by_cases ahead : start % length ≤ position
  · refine ⟨position - start % length, by omega, ?_⟩
    rw [← Nat.mod_add_mod, Nat.add_sub_cancel' ahead, Nat.mod_eq_of_lt within]
  · refine ⟨position + length - start % length, by omega, ?_⟩
    rw [← Nat.mod_add_mod, Nat.add_sub_cancel' (by omega), Nat.add_mod_right, Nat.mod_eq_of_lt within]

/-- A whole scan passes every listed remote. -/
theorem visited_of_mem {offset : ℕ} {remote : RemoteId} (all : run.state.remoteOrder.length ≤ offset) (member : remote ∈ run.state.remoteOrder) :
    run.Visited offset remote := by
  obtain ⟨position, within, here⟩ := List.mem_iff_getElem.mp member
  obtain ⟨earlier, bound, same⟩ := exists_add_mod_eq run.state.nextRemote within
  refine ⟨earlier, bound.trans_le all, ?_⟩
  rw [scanned, same, List.getElem?_eq_getElem within, here]

/-- After a scan without work nothing is queued. -/
theorem passed_all (coherent : Coherent run) {offset : ℕ} (passed : run.Passed offset) (all : run.state.remoteOrder.length ≤ offset)
    (remote : RemoteId) : queueOf run.state.pendingPresence remote = [] ∧ queueOf run.state.readyUploads remote = [] := by
  have visited (remote : RemoteId) (some : ∃ index, window.remoteOf index = remote) : run.Visited offset remote := by
    obtain ⟨index, rfl⟩ := some
    exact visited_of_mem all (coherent.listed index)
  have ready (remote : RemoteId) (some : queueOf run.state.readyUploads remote ≠ []) : run.Visited offset remote := by
    obtain ⟨index, member⟩ := List.exists_mem_of_ne_nil _ some
    exact visited remote ⟨index, (coherent.accounts.facts.ready remote index member).1⟩
  constructor
  · by_contra some
    obtain ⟨index, member⟩ := List.exists_mem_of_ne_nil _ some
    exact some (passed.presence remote (visited remote ⟨index, coherent.accounts.facts.pending remote index member⟩))
  · by_contra some
    rcases passed.upload with none | ⟨first, -, more, ahead⟩
    · exact some (none remote (ready remote some))
    · exact ahead (ready first.1 more)

/-- The end of a scan. -/
theorem launch (coherent : Coherent run) {offset : ℕ} {groups : SortedMap RemoteId (List (Fin window.count))}
    (scanning : run.phase = .scan offset groups) (all : run.state.remoteOrder.length ≤ offset) : Coherent (run.launch groups) := by
  have launched (work : PublishWork (Fin window.count)) (member : work ∈ (run.launch groups).inFlight) :
      work ∈ run.inFlight ∨ ∃ group ∈ groups.entries, work = .presence group.2 group.2 := by
    refine (List.mem_append.mp member).imp_right fun new => ?_
    obtain ⟨group, member, same⟩ := List.mem_map.mp new
    exact ⟨group, member, same.symm⟩
  have groupsOf_phase : groupsOf run.phase = groups := by rw [scanning]; rfl
  have verifies : (run.launch groups).verifications = run.verifications := by
    have nothing : (groups.entries.map fun group => PublishWork.presence group.2 group.2).filterMap PublishWork.verifies = [] := by
      rw [List.filterMap_map]
      exact List.filterMap_eq_nil_iff.mpr fun _ _ => rfl
    rw [verifications, PublishRun.launch, List.filterMap_append, nothing, List.append_nil]
    rfl
  have outside : run.outside.Perm (run.launch groups).outside := by
    rw [PublishRun.outside, PublishRun.outside, groupsOf_phase, PublishRun.launch, List.flatMap_append, List.flatMap_map]
    exact List.perm_append_comm
  refine ⟨?_, coherent.listed, ?_, fun remaining leases member => ?_, fun index lease member => ?_, ?_, fun _ => coherent.quiet (scanning ▸ nofun),
    coherent.waiters, nofun, nofun, fun idle => ?_⟩
  · rw [PublishRun.batch, verifies]
    exact ⟨coherent.accounts.facts, coherent.accounts.placed.perm outside, coherent.accounts.live⟩
  · rw [verifies]
    exact coherent.single
  · rcases launched _ member with old | ⟨group, listed, new⟩
    · exact coherent.owing remaining leases old
    · cases new
      exact coherent.grouped group.1 group.2 (groupsOf_phase ▸ SortedMap.get?_of_mem listed)
  · rcases launched _ member with old | ⟨group, -, new⟩
    · exact coherent.uploads index lease old
    · cases new
  · obtain ⟨held, reached, perm⟩ := coherent.leased
    refine ⟨held, reached, perm.trans (List.Perm.of_eq ?_)⟩
    have nothing : (groups.entries.map fun group => PublishWork.presence group.2 group.2).flatMap PublishWork.leases = [] := by
      rw [List.flatMap_map]
      exact List.flatMap_eq_nil_iff.mpr fun _ _ => rfl
    rw [PublishRun.launch, List.flatMap_append, nothing, List.append_nil]
  · rcases idle with ⟨-, none⟩ | returned
    · obtain ⟨nothing, empty⟩ := List.append_eq_nil_iff.mp none
      refine ⟨none, coherent.passed_all (coherent.passed offset groups scanning nothing ?_) all⟩
      rw [SortedMap.items, List.map_eq_nil_iff.mp empty, List.flatMap_nil]
    · cases returned

theorem finish (coherent : Coherent run) (waiting : run.phase = .wait) (idle : run.inFlight = []) : Coherent { run with phase := .returned } := by
  have outside : run.outside = ({ run with phase := .returned } : PublishRun window).outside := by
    rw [PublishRun.outside, PublishRun.outside, waiting]
    rfl
  exact ⟨outside ▸ coherent.accounts, coherent.listed, coherent.single, coherent.owing, coherent.uploads, coherent.leased,
    fun _ => coherent.quiet (waiting ▸ nofun), coherent.waiters, nofun, nofun, fun _ => coherent.idle (.inl ⟨waiting, idle⟩)⟩

end Coherent

end PublishRun

end Gat
