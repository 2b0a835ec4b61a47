import Gat.Model.RemoteExecutor
import Gat.Soundness.Admission

/-! # The accounts of a transfer window

Every job is queued, running, filled or at or beyond the frontier. A queue is ascending and behind everything that was
started for its remote, and the frontier is the least failure so far.
-/

namespace Gat

/-! ## Queues by remote -/

/-- A list with its element at a position, and with another element there. -/
theorem List.exists_append_of_getElem? {α : Type*} {list : List α} {position : ℕ} {element : α} (here : list[position]? = some element) :
    ∃ before after, list = before ++ element :: after ∧ ∀ other, list.set position other = before ++ other :: after := by
  induction list generalizing position with
  | nil => cases here
  | cons head rest ih =>
    cases position with
    | zero =>
      obtain rfl : head = element := Option.some.inj here
      exact ⟨[], rest, rfl, fun _ => rfl⟩
    | succ position =>
      obtain ⟨before, after, split, sets⟩ := ih here
      exact ⟨head :: before, after, by rw [split, List.cons_append], fun other => congrArg (head :: ·) (sets other)⟩

/-- An index is in one of the queues. -/
def Queued {ι : Type} (queues : List (RemoteId × List ι)) (index : ι) : Prop := ∃ queue ∈ queues, index ∈ queue.2

section Queues

variable {ι : Type} {remoteOf : ι → RemoteId} {queues before after : List (RemoteId × List ι)} {queue : RemoteId × List ι}

theorem queued_append_cons {index : ι} : Queued (before ++ queue :: after) index ↔ index ∈ queue.2 ∨ Queued (before ++ after) index := by
  simp only [Queued, List.mem_append, List.mem_cons]
  constructor
  · rintro ⟨other, isBefore | rfl | isAfter, member⟩
    · exact .inr ⟨other, .inl isBefore, member⟩
    · exact .inl member
    · exact .inr ⟨other, .inr isAfter, member⟩
  · rintro (member | ⟨other, isBefore | isAfter, member⟩)
    · exact ⟨queue, .inr (.inl rfl), member⟩
    · exact ⟨other, .inl isBefore, member⟩
    · exact ⟨other, .inr (.inr isAfter), member⟩

theorem queued_filter {index : ι} : Queued (queues.filter fun queue => queue.2 ≠ []) index ↔ Queued queues index := by
  constructor
  · rintro ⟨queue, kept, member⟩
    exact ⟨queue, (List.mem_filter.mp kept).1, member⟩
  · rintro ⟨queue, isQueue, member⟩
    exact ⟨queue, List.mem_filter.mpr ⟨isQueue, decide_eq_true (List.ne_nil_of_mem member)⟩, member⟩

theorem queued_pushIndex {remote : RemoteId} {index other : ι} :
    Queued (pushIndex remote index queues) other ↔ Queued queues other ∨ other = index := by
  induction queues with
  | nil => simp [Queued, pushIndex]
  | cons head rest ih =>
    rw [pushIndex]
    split_ifs with same
    · simp only [Queued, List.mem_cons, exists_eq_or_imp, List.mem_append, List.not_mem_nil, or_false]
      exact or_right_comm
    · have split := ih
      simp only [Queued, List.mem_cons, exists_eq_or_imp] at split ⊢
      rw [split, or_assoc]

theorem map_fst_pushIndex {remote : RemoteId} {index : ι} :
    (pushIndex remote index queues).map Prod.fst =
      if remote ∈ queues.map Prod.fst then queues.map Prod.fst else queues.map Prod.fst ++ [remote] := by
  induction queues with
  | nil => rfl
  | cons head rest ih =>
    rw [pushIndex, List.map_cons]
    by_cases same : head.1 = remote
    · simp [same]
    · rw [if_neg same, List.map_cons, ih]
      have other : remote ≠ head.1 := Ne.symm same
      simp only [List.mem_cons, other, false_or]
      split_ifs <;> rfl

/-- Queues hold ascending indices of their own remote, one queue for each remote. -/
structure QueuesOf {ι : Type} [LT ι] (remoteOf : ι → RemoteId) (queues : List (RemoteId × List ι)) : Prop where
  distinct : (queues.map Prod.fst).Nodup
  own : ∀ queue ∈ queues, ∀ index ∈ queue.2, remoteOf index = queue.1
  ascending : ∀ queue ∈ queues, queue.2.Pairwise (· < ·)

variable [LT ι]

namespace QueuesOf

theorem nil : QueuesOf remoteOf [] := ⟨List.nodup_nil, nofun, nofun⟩

theorem filter (ordered : QueuesOf remoteOf queues) (keep : RemoteId × List ι → Bool) : QueuesOf remoteOf (queues.filter keep) where
  distinct := ordered.distinct.sublist (List.filter_sublist.map _)
  own queue member := ordered.own queue (List.mem_filter.mp member).1
  ascending queue member := ordered.ascending queue (List.mem_filter.mp member).1

/-- A queue may lose indices. -/
theorem shrink (ordered : QueuesOf remoteOf (before ++ queue :: after)) {fewer : List ι} (sublist : fewer.Sublist queue.2) :
    QueuesOf remoteOf (before ++ (queue.1, fewer) :: after) := by
  have old {other : RemoteId × List ι} (member : other ∈ before ++ (queue.1, fewer) :: after) :
      other ∈ before ++ queue :: after ∨ other = (queue.1, fewer) := by
    simp only [List.mem_append, List.mem_cons] at member ⊢
    tauto
  have here : queue ∈ before ++ queue :: after := List.mem_append_right _ (List.mem_cons_self ..)
  refine ⟨?_, fun other member => ?_, fun other member => ?_⟩
  · have distinct := ordered.distinct
    rw [List.map_append, List.map_cons] at distinct ⊢
    exact distinct
  · rcases old member with same | rfl
    · exact ordered.own other same
    · exact fun index isIndex => ordered.own queue here index (sublist.subset isIndex)
  · rcases old member with same | rfl
    · exact ordered.ascending other same
    · exact (ordered.ascending queue here).sublist sublist

/-- No index is in another queue of the same remote. -/
theorem ne_of_queued (ordered : QueuesOf remoteOf (before ++ queue :: after)) {index : ι} (queued : Queued (before ++ after) index) :
    remoteOf index ≠ queue.1 := by
  obtain ⟨other, member, isIndex⟩ := queued
  have distinct : ∀ other ∈ before ++ after, other.1 ≠ queue.1 := by
    have nodup := (List.perm_middle.map Prod.fst).nodup_iff.mp ordered.distinct
    rw [List.map_cons, List.nodup_cons] at nodup
    exact fun other member same => nodup.1 (same ▸ List.mem_map_of_mem member)
  have within : other ∈ before ++ queue :: after := by
    rw [List.mem_append, List.mem_cons]
    exact (List.mem_append.mp member).imp_right .inr
  rw [ordered.own other within index isIndex]
  exact distinct other member

end QueuesOf

/-- A larger index may be appended to the queue of its remote. -/
theorem QueuesOf.pushIndex (ordered : QueuesOf remoteOf queues) {index : ι} (larger : ∀ other, Queued queues other → other < index) :
    QueuesOf remoteOf (Gat.pushIndex (remoteOf index) index queues) := by
  have cases {queue : RemoteId × List ι} (member : queue ∈ Gat.pushIndex (remoteOf index) index queues) :
      queue ∈ queues ∨ queue = (remoteOf index, [index]) ∨ ∃ old ∈ queues, old.1 = remoteOf index ∧ queue = (old.1, old.2 ++ [index]) := by
    clear ordered larger
    induction queues with
    | nil => exact .inr (.inl (List.mem_singleton.mp member))
    | cons head rest ih =>
      rw [Gat.pushIndex] at member
      split_ifs at member with same
      · rcases List.mem_cons.mp member with rfl | later
        · exact .inr (.inr ⟨head, List.mem_cons_self .., same, rfl⟩)
        · exact .inl (List.mem_cons_of_mem _ later)
      · rcases List.mem_cons.mp member with rfl | later
        · exact .inl (List.mem_cons_self ..)
        · rcases ih later with old | new | ⟨old, isOld, found⟩
          · exact .inl (List.mem_cons_of_mem _ old)
          · exact .inr (.inl new)
          · exact .inr (.inr ⟨old, List.mem_cons_of_mem _ isOld, found⟩)
  refine ⟨?_, fun queue member => ?_, fun queue member => ?_⟩
  · rw [map_fst_pushIndex]
    split_ifs with known
    · exact ordered.distinct
    · exact List.concat_eq_append ▸ List.Nodup.concat known ordered.distinct
  · rcases cases member with old | rfl | ⟨old, isOld, same, rfl⟩
    · exact ordered.own queue old
    · intro other isOther
      rw [List.mem_singleton.mp isOther]
    · intro other isOther
      rcases List.mem_append.mp isOther with before | last
      · exact ordered.own old isOld other before
      · rw [List.mem_singleton.mp last, same]
  · rcases cases member with old | rfl | ⟨old, isOld, same, rfl⟩
    · exact ordered.ascending queue old
    · exact List.pairwise_singleton ..
    · refine List.pairwise_append.mpr ⟨ordered.ascending old isOld, List.pairwise_singleton .., fun first isFirst second isSecond => ?_⟩
      rw [List.mem_singleton.mp isSecond]
      exact larger first ⟨old, isOld, isFirst⟩

/-- Pushing ascending indices queues each of them. -/
theorem QueuesOf.foldl_pushIndex (ordered : QueuesOf remoteOf queues) {indices : List ι} (ascending : indices.Pairwise (· < ·))
    (larger : ∀ other, Queued queues other → ∀ index ∈ indices, other < index) :
    QueuesOf remoteOf (indices.foldl (fun queues index => Gat.pushIndex (remoteOf index) index queues) queues) ∧
      ∀ other, Queued (indices.foldl (fun queues index => Gat.pushIndex (remoteOf index) index queues) queues) other ↔
        Queued queues other ∨ other ∈ indices := by
  induction indices generalizing queues with
  | nil => exact ⟨ordered, fun other => by simp⟩
  | cons index rest ih =>
    have parts := List.pairwise_cons.mp ascending
    have pushed := ordered.pushIndex fun other queued => larger other queued index (List.mem_cons_self ..)
    have above (other : ι) (queued : Queued (Gat.pushIndex (remoteOf index) index queues) other) : ∀ later ∈ rest, other < later := by
      intro later isLater
      rcases queued_pushIndex.mp queued with old | rfl
      · exact larger other old later (List.mem_cons_of_mem _ isLater)
      · exact parts.1 later isLater
    obtain ⟨kept, queued⟩ := ih pushed parts.2 above
    refine ⟨kept, fun other => ?_⟩
    rw [List.foldl_cons, queued, queued_pushIndex, List.mem_cons, or_assoc]

end Queues

/-- Each job is queued for its remote. -/
theorem remoteQueues_spec (jobs : List RemoteJob) :
    QueuesOf (fun index => (jobs.get index).remote) (remoteQueues jobs) ∧ ∀ index, Queued (remoteQueues jobs) index := by
  have empty : QueuesOf (fun index => (jobs.get index).remote) [] := .nil
  obtain ⟨ordered, queued⟩ := empty.foldl_pushIndex (List.pairwise_lt_finRange jobs.length) (by simp [Queued])
  exact ⟨ordered, fun index => (queued index).mpr (.inr (List.mem_finRange index))⟩

/-! ## The accounts -/

namespace TransferWindow

variable {jobs : List RemoteJob} {ρ : Type}

/-- The remote of a job. -/
def remoteOf (jobs : List RemoteJob) (index : Fin jobs.length) : RemoteId := (jobs.get index).remote

/-- What holds of the variables of a window between any two steps. -/
structure Accounts (failed : ρ → Bool) (cancelled : Option ρ) (work : Fin jobs.length → ρ) (window : TransferWindow jobs ρ) : Prop where
  ordered : QueuesOf (remoteOf jobs) window.queues
  unfilled : ∀ index, Queued window.queues index → window.results index = none
  behind : ∀ index, Queued window.queues index → ∀ first ∈ window.started, remoteOf jobs first = remoteOf jobs index → first < index
  inOrder : window.started.Pairwise fun first second => remoteOf jobs first = remoteOf jobs second → first < second
  running : ∀ entry ∈ window.active, entry.1 ∈ window.started ∧ window.results entry.1 = none
  distinct : (window.active.map Prod.fst).Nodup
  ran : ∀ index ∈ window.started, index ∈ window.active.map Prod.fst ∨ window.results index = some (work index)
  accounted : ∀ index, Queued window.queues index ∨ index ∈ window.started ∨ (window.results index).isSome ∨ window.frontier ≤ index
  filled : ∀ index, index ∉ window.started → ∀ result, window.results index = some result →
    window.isCancelled = true ∧ cancelled = some result
  frontier : window.frontier = jobs.length ∨
    ∃ index ∈ window.started, window.frontier = index ∧ window.results index = some (work index) ∧ failed (work index)
  least : ∀ index ∈ window.started, window.results index ≠ none → failed (work index) → window.frontier ≤ index

namespace Accounts

variable {failed : ρ → Bool} {cancelled : Option ρ} {work : Fin jobs.length → ρ} {window : TransferWindow jobs ρ}

theorem init (shared : SharedAdmission) (isCancelled : Bool) : Accounts failed cancelled work (init jobs ρ shared isCancelled) where
  ordered := (remoteQueues_spec jobs).1
  unfilled _ _ := rfl
  behind _ _ _ started := absurd started List.not_mem_nil
  inOrder := List.Pairwise.nil
  running _ active := absurd active List.not_mem_nil
  distinct := List.nodup_nil
  ran _ started := absurd started List.not_mem_nil
  accounted index := .inl ((remoteQueues_spec jobs).2 index)
  filled _ _ _ filled := nomatch filled
  frontier := .inl rfl
  least _ started := absurd started List.not_mem_nil

/-- Neither the admission nor the place of the coordinator matters. -/
theorem keep (accounts : Accounts failed cancelled work window) (shared : SharedAdmission) (phase : WindowPhase) :
    Accounts failed cancelled work { window with shared, phase } where
  ordered := accounts.ordered
  unfilled := accounts.unfilled
  behind := accounts.behind
  inOrder := accounts.inOrder
  running := accounts.running
  distinct := accounts.distinct
  ran := accounts.ran
  accounted := accounts.accounted
  filled := accounts.filled
  frontier := accounts.frontier
  least := accounts.least

theorem cancel (accounts : Accounts failed cancelled work window) : Accounts failed cancelled work { window with isCancelled := true } where
  __ := accounts.keep window.shared window.phase
  filled index unstarted result filled := ⟨rfl, (accounts.filled index unstarted result filled).2⟩

/-- A queued job has not been started. -/
theorem unstarted (accounts : Accounts failed cancelled work window) {index : Fin jobs.length} (queued : Queued window.queues index) :
    index ∉ window.started := fun started => lt_irrefl _ (accounts.behind index queued index started rfl)

/-- Cancelled jobs leave their queues for their slots. -/
theorem drain (accounts : Accounts failed cancelled work window) {result : ρ} (known : cancelled = some result)
    (isCancelled : window.isCancelled = true) : Accounts failed cancelled work (window.drain result) := by
  have forget (queues : List (RemoteId × List (Fin jobs.length))) (window : TransferWindow jobs ρ) :
      ∃ shared, queues.foldl (fun window queue => window.forgetWaiter queue.1) window = { window with shared } := by
    induction queues generalizing window with
    | nil => exact ⟨_, rfl⟩
    | cons queue rest ih =>
      obtain ⟨shared, forgotten⟩ := ih (window.forgetWaiter queue.1)
      exact ⟨shared, forgotten⟩
  have queued (index : Fin jobs.length) : index ∈ window.queues.flatMap Prod.snd ↔ Queued window.queues index := List.mem_flatMap
  have empty (index : Fin jobs.length) : ¬Queued (window.queues.map fun queue => (queue.1, ([] : List (Fin jobs.length)))) index := by
    rintro ⟨_, member, isIndex⟩
    obtain ⟨queue, -, rfl⟩ := List.mem_map.mp member
    exact absurd isIndex List.not_mem_nil
  obtain ⟨shared, forgotten⟩ := forget window.queues window
  have ran {index : Fin jobs.length} (started : index ∈ window.started) : (window.drain result).results index = window.results index := by
    refine if_neg fun member => ?_
    exact accounts.unstarted ((queued index).mp member) started
  have same : window.drain result = { window with
      shared
      queues := window.queues.map fun queue => (queue.1, [])
      results := (window.drain result).results } := by
    unfold TransferWindow.drain
    rw [forgotten]
  rw [same]
  refine ⟨⟨?_, ?_, ?_⟩, fun index isQueued => absurd isQueued (empty index), fun index isQueued => absurd isQueued (empty index), accounts.inOrder,
    fun entry active => ?_, accounts.distinct, fun index started => ?_, fun index => ?_, fun index unstarted value filled => ?_, ?_,
    fun index started => ?_⟩
  · rw [List.map_map]
    exact accounts.ordered.distinct
  · rw [List.forall_mem_map]
    exact fun _ _ _ member => absurd member List.not_mem_nil
  · rw [List.forall_mem_map]
    exact fun _ _ => List.Pairwise.nil
  · obtain ⟨started, unfilled⟩ := accounts.running entry active
    exact ⟨started, (ran started).trans unfilled⟩
  · exact (accounts.ran index started).imp_right (ran started).trans
  · right
    rcases accounts.accounted index with isQueued | started | filled | beyond
    · exact .inr (.inl (by rw [show (window.drain result).results index = some result from if_pos ((queued index).mpr isQueued)]; rfl))
    · exact .inl started
    · refine .inr (.inl ?_)
      dsimp only [TransferWindow.drain]
      split_ifs
      · rfl
      · exact filled
    · exact .inr (.inr beyond)
  · dsimp only [TransferWindow.drain] at filled
    split_ifs at filled with isQueued
    · exact ⟨isCancelled, known.trans filled⟩
    · exact accounts.filled index unstarted value filled
  · refine accounts.frontier.imp_right ?_
    rintro ⟨index, started, same, filled, failure⟩
    exact ⟨index, started, same, (ran started).trans filled, failure⟩
  · dsimp only
    rw [ran started]
    exact accounts.least index started

theorem enter (accounts : Accounts failed cancelled work window) : Accounts failed cancelled work (window.enter cancelled) := by
  unfold TransferWindow.enter
  cases cancelled with
  | none => exact accounts.keep window.shared (.scan 0 false)
  | some result =>
    dsimp only
    split_ifs with isCancelled
    · exact (accounts.drain rfl isCancelled).keep _ (.scan 0 false)
    · exact accounts.keep window.shared (.scan 0 false)

/-- A queue whose head is at or beyond the frontier is cleared. -/
theorem clear (accounts : Accounts failed cancelled work window) {position : ℕ} {remote : RemoteId} {index : Fin jobs.length}
    {rest : List (Fin jobs.length)} (here : window.queues[position]? = some (remote, index :: rest)) (beyond : window.frontier ≤ index) :
    Accounts failed cancelled work { window with queues := window.queues.set position (remote, []) } := by
  obtain ⟨before, after, split, sets⟩ := List.exists_append_of_getElem? here
  have ordered := accounts.ordered
  rw [split] at ordered
  have still {other : Fin jobs.length} (queued : Queued (window.queues.set position (remote, [])) other) : Queued window.queues other := by
    rw [sets, queued_append_cons] at queued
    rw [split, queued_append_cons]
    exact .inr (queued.resolve_left List.not_mem_nil)
  refine { accounts with
    ordered := ?_
    unfilled := fun other queued => accounts.unfilled other (still queued)
    behind := fun other queued => accounts.behind other (still queued)
    accounted := fun other => ?_ }
  · rw [sets]
    exact ordered.shrink (List.nil_sublist _)
  · rcases accounts.accounted other with queued | accounted
    · rw [split, queued_append_cons] at queued
      rcases queued with cleared | kept
      · refine .inr (.inr (.inr (beyond.trans ?_)))
        rcases List.mem_cons.mp cleared with rfl | later
        · exact le_refl _
        · have ascending := ordered.ascending _ (List.mem_append_right _ (List.mem_cons_self ..))
          exact ((List.pairwise_cons.mp ascending).1 other later).le
      · refine .inl ?_
        rw [sets, queued_append_cons]
        exact .inr kept
    · exact .inr accounted

/-- The head of a queue is started. -/
theorem start (accounts : Accounts failed cancelled work window) {position : ℕ} {remote : RemoteId} {index : Fin jobs.length}
    {rest : List (Fin jobs.length)} (here : window.queues[position]? = some (remote, index :: rest)) (lease : TransferLease) :
    Accounts failed cancelled work { window with
      queues := window.queues.set position (remote, rest)
      active := (index, lease) :: window.active
      started := window.started ++ [index] } := by
  obtain ⟨before, after, split, sets⟩ := List.exists_append_of_getElem? here
  have ordered := accounts.ordered
  rw [split] at ordered
  have isQueue : (remote, index :: rest) ∈ before ++ (remote, index :: rest) :: after := List.mem_append_right _ (List.mem_cons_self ..)
  have own : remoteOf jobs index = remote := ordered.own _ isQueue index (List.mem_cons_self ..)
  have ascending := List.pairwise_cons.mp (ordered.ascending _ isQueue)
  have isHead : Queued window.queues index := by
    rw [split, queued_append_cons]
    exact .inl (List.mem_cons_self ..)
  have still {other : Fin jobs.length} (queued : Queued (window.queues.set position (remote, rest)) other) :
      Queued window.queues other ∧ (remoteOf jobs other = remote → index < other) := by
    rw [sets, queued_append_cons] at queued
    rw [split, queued_append_cons]
    rcases queued with behind | elsewhere
    · exact ⟨.inl (List.mem_cons_of_mem _ behind), fun _ => ascending.1 other behind⟩
    · exact ⟨.inr elsewhere, fun same => absurd same (ordered.ne_of_queued elsewhere)⟩
  have unstarted := accounts.unstarted isHead
  refine ⟨?_, fun other queued => accounts.unfilled other (still queued).1, fun other queued first started same => ?_, ?_, fun entry active => ?_, ?_,
    fun other started => ?_, fun other => ?_, fun other others => ?_, ?_, fun other started => ?_⟩
  · rw [sets]
    exact ordered.shrink (List.sublist_cons_self ..)
  · rcases List.mem_append.mp started with old | new
    · exact accounts.behind other (still queued).1 first old same
    · rw [List.mem_singleton] at new
      subst new
      exact (still queued).2 (same.symm.trans own)
  · refine List.pairwise_append.mpr ⟨accounts.inOrder, List.pairwise_singleton .., fun first old last new same => ?_⟩
    rw [List.mem_singleton] at new
    subst new
    exact accounts.behind last isHead first old same
  · rcases List.mem_cons.mp active with rfl | old
    · exact ⟨List.mem_append_right _ (List.mem_singleton_self _), accounts.unfilled _ isHead⟩
    · exact (accounts.running entry old).imp_left (List.mem_append_left _)
  · refine List.nodup_cons.mpr ⟨fun again => ?_, accounts.distinct⟩
    obtain ⟨entry, active, same⟩ := List.mem_map.mp again
    have isStarted := (accounts.running entry active).1
    rw [same] at isStarted
    exact unstarted isStarted
  · rcases List.mem_append.mp started with old | new
    · exact (accounts.ran other old).imp_left (List.mem_cons_of_mem _)
    · exact .inl (List.mem_singleton.mp new ▸ List.mem_cons_self ..)
  · rcases accounts.accounted other with queued | started | rest
    · by_cases same : other = index
      · exact .inr (.inl (List.mem_append_right _ (List.mem_singleton.mpr same)))
      · refine .inl ?_
        rw [split, queued_append_cons] at queued
        rw [sets, queued_append_cons]
        exact queued.imp_left fun member => (List.mem_cons.mp member).resolve_left same
    · exact .inr (.inl (List.mem_append_left _ started))
    · exact .inr (.inr rest)
  · exact accounts.filled other fun started => others (List.mem_append_left _ started)
  · refine accounts.frontier.imp_right ?_
    rintro ⟨other, started, failure⟩
    exact ⟨other, List.mem_append_left _ started, failure⟩
  · rcases List.mem_append.mp started with old | new
    · exact accounts.least other old
    · rw [List.mem_singleton] at new
      subst new
      exact fun filled => absurd (accounts.unfilled other isHead) filled

theorem visit (accounts : Accounts failed cancelled work window) (position : ℕ) (admitted : Bool) :
    Accounts failed cancelled work (window.visit position admitted) := by
  unfold TransferWindow.visit
  split
  · refine { accounts.keep window.shared (if admitted then .scan 0 false else .select) with
      ordered := accounts.ordered.filter _
      unfilled := fun index queued => accounts.unfilled index (queued_filter.mp queued)
      behind := fun index queued => accounts.behind index (queued_filter.mp queued)
      accounted := fun index => (accounts.accounted index).imp_left queued_filter.mpr }
  · exact accounts.keep window.shared _
  · next remote index rest here =>
    split_ifs with beyond
    · exact (accounts.clear here beyond).keep _ _
    · split
      · exact accounts.keep _ _
      · next lease admission granted => exact (accounts.start here lease).keep _ _

/-- A completed job fills its slot, and a failure moves the frontier to the least one. -/
theorem complete (accounts : Accounts failed cancelled work window) {index : Fin jobs.length} {lease : TransferLease} (admission : Admission)
    (active : (index, lease) ∈ window.active) :
    Accounts failed cancelled work (window.complete failed index lease admission (work index)) := by
  obtain ⟨started, unfilled⟩ := accounts.running _ active
  have here : Function.update window.results index (some (work index)) index = some (work index) := Function.update_self ..
  have apart {other : Fin jobs.length} (different : other ≠ index) :
      Function.update window.results index (some (work index)) other = window.results other := Function.update_of_ne different ..
  have perm := (List.perm_cons_erase active).map Prod.fst
  have distinct := perm.nodup_iff.mp accounts.distinct
  rw [List.map_cons, List.nodup_cons] at distinct
  have ofQueued {other : Fin jobs.length} (queued : Queued window.queues other) : other ≠ index := by
    rintro rfl
    exact accounts.unstarted queued started
  have lower : (if failed (work index) then min window.frontier index else window.frontier) ≤ window.frontier := by
    split_ifs
    · exact min_le_left _ _
    · exact le_refl _
  refine ⟨accounts.ordered, fun other queued => (apart (ofQueued queued)).trans (accounts.unfilled other queued), accounts.behind, accounts.inOrder,
    fun entry running => ?_, distinct.2, fun other isStarted => ?_, fun other => ?_, fun other unstarted => ?_, ?_,
    fun other isStarted filled failure => ?_⟩
  · have member : entry.1 ∈ (window.active.erase (index, lease)).map Prod.fst := List.mem_map_of_mem running
    have different : entry.1 ≠ index := fun same => distinct.1 (same ▸ member)
    obtain ⟨isStarted, empty⟩ := accounts.running entry (List.mem_of_mem_erase running)
    exact ⟨isStarted, (apart different).trans empty⟩
  · by_cases same : other = index
    · exact .inr (same ▸ here)
    · refine (accounts.ran other isStarted).imp (fun running => ?_) (apart same).trans
      exact (List.mem_cons.mp (perm.subset running)).resolve_left same
  · refine (accounts.accounted other).imp_right (Or.imp_right (Or.imp (fun filled => ?_) lower.trans))
    dsimp only [TransferWindow.complete]
    by_cases same : other = index
    · rw [same, here]
      rfl
    · rwa [apart same]
  · have different : other ≠ index := fun same => unstarted (same ▸ started)
    dsimp only [TransferWindow.complete]
    rw [apart different]
    exact accounts.filled other unstarted
  · dsimp only [TransferWindow.complete]
    have old (bound : window.frontier = jobs.length ∨ ∃ other ∈ window.started, window.frontier = other ∧
        window.results other = some (work other) ∧ failed (work other)) : window.frontier = jobs.length ∨ ∃ other ∈ window.started,
        window.frontier = other ∧ Function.update window.results index (some (work index)) other = some (work other) ∧ failed (work other) := by
      refine bound.imp_right ?_
      rintro ⟨other, isStarted, isFrontier, filled, failure⟩
      have different : other ≠ index := by
        rintro rfl
        cases filled.symm.trans unfilled
      exact ⟨other, isStarted, isFrontier, (apart different).trans filled, failure⟩
    split_ifs with failure
    · rcases min_cases window.frontier index with ⟨same, -⟩ | ⟨same, -⟩
      · rw [same]
        exact old accounts.frontier
      · rw [same]
        exact .inr ⟨index, started, rfl, here, failure⟩
    · exact old accounts.frontier
  · dsimp only [TransferWindow.complete] at filled ⊢
    by_cases same : other = index
    · subst same
      rw [if_pos failure]
      exact min_le_right _ _
    · rw [apart same] at filled
      exact lower.trans (accounts.least other isStarted filled failure)

end Accounts

theorem Step.accounts {failed : ρ → Bool} {cancelled : Option ρ} {work : Fin jobs.length → ρ} {before after : TransferWindow jobs ρ}
    (step : Step failed cancelled work before after) (accounts : Accounts failed cancelled work before) : Accounts failed cancelled work after := by
  cases step with
  | others => exact accounts.keep _ _
  | cancel => exact accounts.cancel
  | enter => exact accounts.enter
  | visit => exact accounts.visit _ _
  | complete _ active => exact accounts.complete _ active
  | wake => exact accounts.keep _ _
  | finish => exact accounts.keep _ _

theorem Reached.accounts {limits : RemoteConcurrency} {failed : ρ → Bool} {cancelled : Option ρ} {work : Fin jobs.length → ρ}
    {window : TransferWindow jobs ρ} (reached : Reached limits failed cancelled work window) : Accounts failed cancelled work window := by
  induction reached with
  | start => exact .init _ _
  | step _ step accounts => exact step.accounts accounts

end TransferWindow

end Gat
