import Gat.Proofs.RemoteExecutor
import Mathlib.Order.Bounds.Defs

/-! # A window reports the first failure

Whatever is granted and completes in whatever order, a window starts a job once and the jobs of a remote in order. When it
returns, everything below its first failure has succeeded, so its error is that of a window that runs every job.
-/

namespace Gat

namespace TransferWindow

variable {jobs : List RemoteJob} {ρ : Type} {limits : RemoteConcurrency} {failed : ρ → Bool} {cancelled : Option ρ}
  {work : Fin jobs.length → ρ} {window : TransferWindow jobs ρ}

theorem phase_enter (window : TransferWindow jobs ρ) (cancelled : Option ρ) : (window.enter cancelled).phase ≠ .returned := nofun

theorem phase_visit (window : TransferWindow jobs ρ) (position : ℕ) (admitted : Bool) : (window.visit position admitted).phase ≠ .returned := by
  unfold visit
  split
  · cases admitted <;> rintro ⟨⟩
  · rintro ⟨⟩
  · split_ifs
    · rintro ⟨⟩
    · split <;> rintro ⟨⟩

/-- A window returns when it has nothing queued and nothing running. -/
theorem Reached.settled (reached : Reached limits failed cancelled work window) (returned : window.phase = .returned) :
    window.active = [] ∧ window.queues = [] := by
  induction reached with
  | start => cases returned
  | step _ step ih =>
    cases step with
    | others => exact ih returned
    | cancel => exact ih returned
    | enter => exact absurd returned (phase_enter _ _)
    | visit => exact absurd returned (phase_visit _ _ _)
    | complete => cases returned
    | wake => cases returned
    | finish _ idle drained => exact ⟨idle, drained⟩

/-! ## The leases of a window -/

/-- The live leases are those of the running jobs and of the others. -/
def Leased (limits : RemoteConcurrency) (window : TransferWindow jobs ρ) : Prop :=
  ∃ leases, Transfers.Reached limits ⟨window.shared.admission, leases⟩ ∧ leases.Perm (window.active.map Prod.snd ++ window.shared.others)

namespace Leased

theorem forget (leased : Leased limits window) (queues : List (RemoteId × List (Fin jobs.length))) :
    Leased limits (queues.foldl (fun window queue => window.forgetWaiter queue.1) window) := by
  induction queues generalizing window with
  | nil => exact leased
  | cons queue rest ih =>
    obtain ⟨leases, reached, perm⟩ := leased
    exact ih ⟨leases, reached.forgetWaiter queue.1, perm⟩

theorem enter (leased : Leased limits window) : Leased limits (window.enter cancelled) := by
  unfold TransferWindow.enter
  cases cancelled with
  | none => exact leased
  | some result =>
    dsimp only
    split_ifs
    · exact leased.forget window.queues
    · exact leased

theorem visit (leased : Leased limits window) (position : ℕ) (admitted : Bool) : Leased limits (window.visit position admitted) := by
  obtain ⟨leases, reached, perm⟩ := leased
  unfold TransferWindow.visit
  split
  · exact ⟨leases, reached, perm⟩
  · exact ⟨leases, reached, perm⟩
  · next remote index rest _ =>
    split_ifs
    · exact ⟨leases, reached.forgetWaiter remote, perm⟩
    · have granted := reached.tryAcquire remote (jobs.get index).bytes (jobs.get index).fits
      split
      · next admission refused =>
        rw [refused] at granted
        exact ⟨leases, granted, perm⟩
      · next lease admission given =>
        rw [given] at granted
        exact ⟨lease :: leases, granted, perm.cons lease⟩

/-- The lease of a running job can be dropped. -/
theorem exists_drop (leased : Leased limits window) {entry : Fin jobs.length × TransferLease} (running : entry ∈ window.active) :
    ∃ admission, window.shared.admission.drop entry.2 = some admission := by
  obtain ⟨leases, reached, perm⟩ := leased
  have live : entry.2 ∈ leases := perm.symm.subset (List.mem_append_left _ (List.mem_map_of_mem running))
  obtain ⟨admission, dropped, -⟩ := reached.books.exists_drop live
  exact ⟨admission, dropped⟩

theorem complete (leased : Leased limits window) {index : Fin jobs.length} {lease : TransferLease} {admission : Admission}
    (running : (index, lease) ∈ window.active) (dropped : window.shared.admission.drop lease = some admission) (result : ρ) :
    Leased limits (window.complete failed index lease admission result) := by
  obtain ⟨leases, reached, perm⟩ := leased
  have split : window.active.Perm ((index, lease) :: window.active.erase (index, lease)) := List.perm_cons_erase running
  have whole := perm.trans ((split.map Prod.snd).append_right window.shared.others)
  refine ⟨leases.erase lease, .drop (whole.symm.subset (List.mem_cons_self ..)) dropped reached, ?_⟩
  have fewer := whole.erase lease
  rwa [List.map_cons, List.cons_append, List.erase_cons_head] at fewer

theorem moves (leased : Leased limits window) {shared : SharedAdmission} (moves : window.shared.Moves shared) :
    Leased limits { window with shared } := by
  obtain ⟨leases, reached, perm⟩ := leased
  cases moves with
  | tryAcquire remote bytes fits =>
    refine ⟨_, reached.tryAcquire remote bytes fits, (perm.append_left _).trans ?_⟩
    rw [← List.append_assoc, ← List.append_assoc]
    exact List.perm_append_comm.append_right _
  | forgetWaiter remote => exact ⟨leases, reached.forgetWaiter remote, perm⟩
  | @drop lease next live dropped =>
    have isLive := List.mem_append_right (window.active.map Prod.snd) live
    refine ⟨leases.erase lease, .drop (perm.symm.subset isLive) dropped reached, (perm.erase lease).trans ?_⟩
    have split := (List.perm_cons_erase live).append_left (window.active.map Prod.snd)
    have fewer := (split.trans List.perm_middle).erase lease
    rwa [List.erase_cons_head] at fewer

end Leased

theorem Reached.leased (reached : Reached limits failed cancelled work window) : Leased limits window := by
  induction reached with
  | start _ reached => exact ⟨_, reached, List.Perm.refl _⟩
  | step _ step ih =>
    cases step with
    | others moves => exact ih.moves moves
    | cancel => exact ih
    | enter => exact ih.enter
    | visit => exact ih.visit _ _
    | complete _ running dropped => exact ih.complete running dropped _
    | wake => exact ih
    | finish => exact ih

/-- A window that waits is not stuck: any of its running jobs can complete, and it returns when nothing is running or queued. -/
theorem Reached.progress (reached : Reached limits failed cancelled work window) (waiting : window.phase = .select) :
    (∀ entry ∈ window.active, ∃ after, Step failed cancelled work window after ∧ after.results entry.1 = some (work entry.1)) ∧
      (window.active = [] → window.queues = [] → Step failed cancelled work window { window with phase := .returned }) := by
  refine ⟨fun entry running => ?_, .finish waiting⟩
  obtain ⟨admission, dropped⟩ := reached.leased.exists_drop running
  exact ⟨_, .complete waiting running dropped, Function.update_self ..⟩

/-! ## The first failure -/

/-- Either every job has succeeded, or all jobs up to the first failure have run and only it has failed. -/
def FirstFailure (failed : ρ → Bool) (work : Fin jobs.length → ρ) (window : TransferWindow jobs ρ) : Prop :=
  ((∀ index ∈ window.started, ¬failed (work index)) ∧ ∀ index, window.results index = some (work index)) ∨
    ∃ first, IsLeast {index | ∃ result, window.results index = some result ∧ failed result} first ∧
      ∀ index ≤ first, window.results index = some (work index) ∧ (index < first → ¬failed (work index))

theorem Accounts.firstFailure (accounts : Accounts failed cancelled work window) (active : window.active = []) (queues : window.queues = [])
    (uncancelled : window.isCancelled = false) : FirstFailure failed work window := by
  have ran {index : Fin jobs.length} (started : index ∈ window.started) : window.results index = some (work index) := by
    refine (accounts.ran index started).resolve_left ?_
    rw [active]
    exact List.not_mem_nil
  have started {index : Fin jobs.length} {result : ρ} (filled : window.results index = some result) : index ∈ window.started := by
    by_contra unstarted
    rw [(accounts.filled index unstarted result filled).1] at uncancelled
    cases uncancelled
  have below {index : Fin jobs.length} (below : index < window.frontier) : index ∈ window.started := by
    rcases accounts.accounted index with queued | isStarted | filled | beyond
    · rw [queues] at queued
      obtain ⟨_, member, -⟩ := queued
      cases member
    · exact isStarted
    · obtain ⟨result, filled⟩ := Option.isSome_iff_exists.mp filled
      exact started filled
    · omega
  have succeeds {index : Fin jobs.length} (below : index < window.frontier) (isStarted : index ∈ window.started) : ¬failed (work index) :=
    fun failure => absurd (accounts.least index isStarted (by rw [ran isStarted]; nofun) failure) (not_le.mpr below)
  rcases accounts.frontier with whole | ⟨first, isStarted, same, filled, failure⟩
  · have all (index : Fin jobs.length) : index < window.frontier := by omega
    exact .inl ⟨fun index => succeeds (all index), fun index => ran (below (all index))⟩
  · refine .inr ⟨first, ⟨⟨_, filled, failure⟩, ?_⟩, fun index upTo => ?_⟩
    · rintro index ⟨result, isFilled, fails⟩
      have isRun := started isFilled
      cases isFilled.symm.trans (ran isRun)
      have bound := accounts.least index isRun (by rw [ran isRun]; nofun) fails
      exact Fin.le_def.mpr (by omega)
    · rcases eq_or_lt_of_le upTo with rfl | before
      · exact ⟨filled, fun before => absurd before (lt_irrefl _)⟩
      · have less := Fin.lt_def.mp before
        have inFront : index < window.frontier := by omega
        exact ⟨ran (below inFront), fun _ => succeeds inFront (below inFront)⟩

end TransferWindow

/-! ## Callers -/

section Callers

variable {ι ε α : Type}

/-- Slots behind the first error do not matter. -/
theorem collectPublications_append {before : List (ι × Option (Except ε α))} {index : ι} {source : ε}
    (rest rest' : List (ι × Option (Except ε α))) :
    collectPublications (before ++ (index, some (.error source)) :: rest) = collectPublications (before ++ (index, some (.error source)) :: rest') := by
  induction before with
  | nil => rfl
  | cons slot before ih =>
    obtain ⟨own, value⟩ := slot
    cases value with
    | none => exact ih
    | some result =>
      cases result with
      | ok publication => exact congrArg ((publication :: ·) <$> ·) ih
      | error other => rfl

/-- Results that agree up to an error are collected alike. -/
theorem collectPublications_slots {count : ℕ} {left right : Fin count → Option (Except ε α)} {first : Fin count} {source : ε}
    (failure : right first = some (.error source)) (agree : ∀ index ≤ first, left index = right index) :
    collectPublications (slots left) = collectPublications (slots right) := by
  obtain ⟨before, after, split⟩ := List.append_of_mem (List.mem_finRange first)
  have ascending := List.pairwise_lt_finRange count
  rw [split] at ascending
  have inFront : ∀ index ∈ before, index ≤ first := fun index member =>
    ((List.pairwise_append.mp ascending).2.2 index member first (List.mem_cons_self ..)).le
  have same : before.map (fun index => (index, left index)) = before.map fun index => (index, right index) :=
    List.map_congr_left fun index member => by rw [agree index (inFront index member)]
  rw [slots, slots, split, List.map_append, List.map_cons, List.map_append, List.map_cons, same, agree first (le_refl _), failure]
  exact collectPublications_append _ _

end Callers

/-- A job is started once and in the order of its remote. A window that returns uncancelled has run everything up to its first
failure, a cancelled one has filled what it has not started up to a failure, a window in which nothing fails has filled
every slot, and the callers of a window see the error of a window that runs every job. -/
theorem transfer_window_reports_first_failure {jobs : List RemoteJob} {limits : RemoteConcurrency} {ε α : Type} {failed : Except ε α → Bool}
    {cancelled : Option (Except ε α)} {work : Fin jobs.length → Except ε α} {window : TransferWindow jobs (Except ε α)}
    (reached : TransferWindow.Reached limits failed cancelled work window) :
    (window.started.Nodup ∧ window.started.Pairwise fun first second => (jobs.get first).remote = (jobs.get second).remote → first < second) ∧
      (window.phase = .returned →
        (window.isCancelled = false → window.FirstFailure failed work) ∧
        (window.isCancelled = true → ∀ result, cancelled = some result → ∀ index, index ∉ window.started →
          window.results index = some result ∨ ∃ first ≤ index, window.results first = some (work first) ∧ failed (work first)) ∧
        ((∀ result, failed result = false) → ∀ index, (window.results index).isSome) ∧
        (failed = isErr → window.isCancelled = false →
          collectPublications (slots window.results) = collectPublications (slots fun index => some (work index)))) := by
  have accounts := reached.accounts
  refine ⟨⟨accounts.inOrder.imp fun before same => absurd (before (congrArg _ same)) (same ▸ lt_irrefl _), accounts.inOrder⟩, fun returned => ?_⟩
  obtain ⟨active, queues⟩ := reached.settled returned
  have unqueued (index : Fin jobs.length) : ¬Queued window.queues index := by
    rw [queues]
    rintro ⟨_, member, -⟩
    cases member
  refine ⟨accounts.firstFailure active queues, fun _ result known index unstarted => ?_, fun never index => ?_, fun isDownload uncancelled => ?_⟩
  · rcases (accounts.accounted index).resolve_left (unqueued index) with started | filled | beyond
    · exact absurd started unstarted
    · obtain ⟨value, filled⟩ := Option.isSome_iff_exists.mp filled
      obtain ⟨-, same⟩ := accounts.filled index unstarted value filled
      exact .inl (filled.trans (same.symm.trans known))
    · rcases accounts.frontier with whole | ⟨first, -, same, filled, failure⟩
      · omega
      · exact .inr ⟨first, Fin.le_def.mpr (by omega), filled, failure⟩
  · rcases (accounts.accounted index).resolve_left (unqueued index) with started | filled | beyond
    · have ran := (accounts.ran index started).resolve_left (by rw [active]; exact List.not_mem_nil)
      rw [ran]
      rfl
    · exact filled
    · rcases accounts.frontier with whole | ⟨first, -, -, -, failure⟩
      · omega
      · exact absurd failure (by rw [never]; nofun)
  · subst isDownload
    rcases accounts.firstFailure active queues uncancelled with ⟨-, filled⟩ | ⟨first, ⟨⟨result, isFilled, failure⟩, -⟩, upTo⟩
    · rw [show window.results = fun index => some (work index) from funext filled]
    · have ran := (upTo first (le_refl _)).1
      cases isFilled.symm.trans ran
      cases outcome : work first with
      | ok value =>
        rw [outcome] at failure
        cases failure
      | error source =>
        have failing : (some (work first) : Option (Except _ _)) = some (.error source) := congrArg some outcome
        exact collectPublications_slots failing fun index bound => (upTo index bound).1

/-! ## A second job that is never started -/

namespace FailedWindow

open TransferWindow

def limits : RemoteConcurrency := ⟨1, 1, Nat.one_pos, Nat.one_pos⟩

theorem first_fits : 5 ≤ REMOTE_BYTES := by decide

theorem second_fits : 7 ≤ REMOTE_BYTES := by decide

def jobs : List RemoteJob := [⟨⟨0⟩, 5, first_fits⟩, ⟨⟨0⟩, 7, second_fits⟩]

def first : Fin jobs.length := ⟨0, by decide⟩

def second : Fin jobs.length := ⟨1, by decide⟩

/-- The first job fails. -/
def work : Fin jobs.length → Except ℕ ℕ := fun index => if index = first then .error 4 else .ok 9

def cancelled : Option (Except ℕ ℕ) := some (.error 0)

/-- The first job is granted the only slot and the second one waits. -/
def waiting : TransferWindow jobs (Except ℕ ℕ) :=
  ((((init jobs _ ⟨.new limits, []⟩ false).enter cancelled).visit 0 false).visit 1 true |>.visit 0 false).visit 1 false

def dropped : Admission := (waiting.shared.admission.drop ⟨⟨0⟩, 5, first_fits⟩).getD (.new limits)

/-- The first job has failed, which clears the queue. -/
def returned : TransferWindow jobs (Except ℕ ℕ) :=
  { (((waiting.complete isErr first ⟨⟨0⟩, 5, first_fits⟩ dropped (work first)).enter cancelled).visit 0 false).visit 1 false with phase := .returned }

theorem reached : Reached limits isErr cancelled work returned := by
  have waits : Reached limits isErr cancelled work waiting :=
    .step (.step (.step (.step (.step (.start false .new) (.enter rfl)) (.visit rfl)) (.visit rfl)) (.visit rfl)) (.visit rfl)
  have completes : Reached limits isErr cancelled work (waiting.complete isErr first ⟨⟨0⟩, 5, first_fits⟩ dropped (work first)) :=
    .step waits (.complete rfl (by decide) rfl)
  exact .step (.step (.step (.step completes (.enter rfl)) (.visit rfl)) (.visit rfl)) (.finish rfl rfl rfl)

end FailedWindow

open FailedWindow in
/-- The window returns without having started the second job. -/
theorem transfer_window_reports_first_failure_cleared :
    returned.started = [first] ∧ returned.results second = none ∧
      collectPublications (slots returned.results) = collectPublications (slots fun index => some (work index)) :=
  ⟨rfl, rfl, ((transfer_window_reports_first_failure reached).2 rfl).2.2.2 rfl rfl⟩

end Gat
