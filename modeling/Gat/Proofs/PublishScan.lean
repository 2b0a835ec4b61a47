import Gat.Proofs.PublishRun

/-! # Scans of the publication pipeline

A visit admits work of its remote or goes on. Without work in flight a check is always admitted, and an upload is unless
another remote waits first.
-/

namespace Gat

namespace PublishRun

variable {ε : Type} {window : PublishWindow ε} {run next last : PublishRun window} {offset : ℕ}
  {groups : SortedMap RemoteId (List (Fin window.count))} {remote : RemoteId}

/-- What a visit leaves alone, and what it logs. -/
structure Attempts (run next : PublishRun window) : Prop where
  verification : next.state.verification = run.state.verification
  pendingVerification : next.state.pendingVerification = run.state.pendingVerification
  error : next.state.error = run.state.error
  verifications : next.verifications = run.verifications
  log : ∃ started, next.log = run.log ++ started ∧
    ∀ event ∈ started, ∃ index, event = .uploading index ∧ run.state.verification.get? (window.oidOf index) = some .valid

namespace Attempts

theorem of_log (verification : next.state.verification = run.state.verification)
    (pendingVerification : next.state.pendingVerification = run.state.pendingVerification) (error : next.state.error = run.state.error)
    (verifications : next.verifications = run.verifications) (log : next.log = run.log) : Attempts run next :=
  ⟨verification, pendingVerification, error, verifications, [], log.trans (List.append_nil _).symm, nofun⟩

theorem refl (run : PublishRun window) : Attempts run run := .of_log rfl rfl rfl rfl rfl

theorem trans (first : Attempts run next) (second : Attempts next last) : Attempts run last := by
  obtain ⟨some, firstLog, own⟩ := first.log
  obtain ⟨more, secondLog, others⟩ := second.log
  refine ⟨second.verification.trans first.verification, second.pendingVerification.trans first.pendingVerification,
    second.error.trans first.error, second.verifications.trans first.verifications, some ++ more,
    by rw [secondLog, firstLog, List.append_assoc], fun event member => ?_⟩
  rcases List.mem_append.mp member with early | late
  · exact own event early
  · obtain ⟨index, same, valid⟩ := others event late
    exact ⟨index, same, first.verification ▸ valid⟩

end Attempts

/-! ## The queue of the admission -/

namespace Coherent

/-- A scan neither waits nor has returned. -/
theorem absurd_ended {waits goal : Prop} (scanning : run.phase = .scan offset groups) (ended : run.phase = .wait ∧ waits ∨ run.phase = .returned) :
    goal := by
  rcases ended with ⟨waiting, -⟩ | returned
  · cases scanning.symm.trans waiting
  · cases scanning.symm.trans returned

/-- Changing the queue of waiters keeps a run coherent while a first one with uploads stays the first. -/
theorem requeued (coherent : Coherent run) {admission : Admission} {leases : List TransferLease}
    (reached : Transfers.Reached window.transfer ⟨admission, leases⟩) (perm : leases.Perm (run.inFlight.flatMap PublishWork.leases))
    (waiters : run.state.error = none → ∀ waiter ∈ admission.waiting, queueOf run.state.readyUploads waiter.1 ≠ [])
    (head : ∀ first ∈ run.admission.waiting.head?, queueOf run.state.readyUploads first.1 ≠ [] →
      ∃ other ∈ admission.waiting.head?, other.1 = first.1) : Coherent { run with admission } where
  accounts := coherent.accounts
  listed := coherent.listed
  single := coherent.single
  owing := coherent.owing
  uploads := coherent.uploads
  leased := ⟨leases, reached, perm⟩
  quiet := coherent.quiet
  waiters := waiters
  grouped := coherent.grouped
  passed offset groups scanning idle empty := by
    obtain ⟨presence, upload⟩ := coherent.passed offset groups scanning idle empty
    refine ⟨presence, upload.imp_right ?_⟩
    rintro ⟨first, isFirst, more, ahead⟩
    obtain ⟨other, isHead, same⟩ := head first isFirst more
    exact ⟨other, isHead, same ▸ more, same ▸ ahead⟩
  idle := coherent.idle

/-- A remote without uploads does not wait. -/
theorem forgotten (coherent : Coherent run) (none : queueOf run.state.readyUploads remote = []) :
    Coherent { run with admission := (run.admission.forgetWaiter remote).1 } := by
  obtain ⟨leases, reached, perm⟩ := coherent.leased
  refine coherent.requeued (reached.forgetWaiter remote) perm (fun error waiter member => ?_) fun first isFirst more => ?_
  · exact coherent.waiters error waiter (List.mem_filter.mp member).1
  · obtain ⟨rest, waiting⟩ := List.head?_eq_some_iff.mp isFirst
    refine ⟨first, ?_, rfl⟩
    have other : first.1 ≠ remote := fun same => more (same ▸ none)
    simp only [Admission.forgetWaiter, waiting, List.filter_cons, ne_eq, other, not_false_eq_true, decide_true, if_true, List.head?_cons]
    exact rfl

theorem head?_register {bytes : ℕ} {waiting : List (RemoteId × ℕ)} {first : RemoteId × ℕ} (isFirst : first ∈ waiting.head?) :
    ∃ other ∈ (Admission.register remote bytes waiting).head?, other.1 = first.1 := by
  obtain ⟨rest, rfl⟩ := List.head?_eq_some_iff.mp isFirst
  rw [Admission.register]
  split_ifs
  · exact ⟨_, rfl, rfl⟩
  · exact ⟨first, rfl, rfl⟩

/-! ## Admissions -/

/-- An attempt to upload. It fails without uploads, or behind the first waiter when nothing is in flight. -/
theorem uploadTried (coherent : Coherent run) (scanning : run.phase = .scan offset groups) (remote : RemoteId) :
    Coherent (run.admitUpload remote).2 ∧ Attempts run (run.admitUpload remote).2 ∧ (run.admitUpload remote).2.phase = run.phase ∧
      ((run.admitUpload remote).1 = false →
        (run.admitUpload remote).2.state = run.state ∧ (run.admitUpload remote).2.inFlight = run.inFlight ∧
          (run.inFlight = [] → queueOf run.state.readyUploads remote ≠ [] → ∃ first ∈ run.admission.waiting.head?, first.1 ≠ remote ∧
            ∃ other ∈ (run.admitUpload remote).2.admission.waiting.head?, other.1 = first.1)) := by
  unfold admitUpload
  cases queue : queueOf run.state.readyUploads remote with
  | nil => exact ⟨coherent, .refl run, rfl, fun _ => ⟨rfl, rfl, fun _ some => absurd rfl some⟩⟩
  | cons index rest =>
    obtain ⟨leases, reached, perm⟩ := coherent.leased
    have tried := reached.tryAcquire remote (window.cost index) (window.cost_fits index)
    have queued : index ∈ queueOf run.state.readyUploads remote := by
      rw [queue]
      exact List.mem_cons_self
    obtain ⟨-, missing, valid⟩ := coherent.accounts.facts.ready remote index queued
    rcases run.admission.tryAcquire_cases remote (window.cost index) (window.cost_fits index) with ⟨grants, granted⟩ | ⟨refuses, refused⟩
    · rw [granted] at tried
      dsimp only
      rw [granted]
      dsimp only
      have verifies : (run.inFlight ++ [PublishWork.upload index ⟨remote, window.cost index, window.cost_fits index⟩]).filterMap
          PublishWork.verifies = run.verifications := by
        rw [List.filterMap_append]
        exact List.append_nil _
      refine ⟨⟨?_, coherent.listed, ?_, fun remaining others member => ?_, fun other lease member => ?_,
        ⟨_, tried, ?_⟩, coherent.quiet, fun none waiter member => ?_, coherent.grouped, fun _ _ _ idle => ?_, fun idle => ?_⟩,
        ⟨rfl, rfl, rfl, verifies, _, rfl, fun event member => ?_⟩, rfl, nofun⟩
      · have taken := PipelineState.Accounts.uploadTaken coherent.accounts queue
        have outside : (index :: run.outside).Perm ((groupsOf run.phase).items ++
            (run.inFlight ++ [PublishWork.upload index ⟨remote, window.cost index, window.cost_fits index⟩]).flatMap PublishWork.owes) := by
          rw [List.flatMap_append, ← List.append_assoc]
          exact (List.perm_append_singleton index run.outside).symm
        rw [PublishRun.batch, verifications, verifies]
        exact ⟨taken.facts, taken.placed.perm outside, taken.live⟩
      · rw [verifications, verifies]
        exact coherent.single
      · rcases List.mem_append.mp member with old | new
        · exact coherent.owing remaining others old
        · cases List.mem_singleton.mp new
      · rcases List.mem_append.mp member with old | new
        · exact coherent.uploads other lease old
        · cases List.mem_singleton.mp new
          exact ⟨missing, valid⟩
      · rw [List.flatMap_append]
        exact (List.perm_append_comm.trans (perm.append_right _))
      · obtain ⟨member, other⟩ := List.mem_filter.mp member
        have elsewhere : waiter.1 ≠ remote := of_decide_eq_true other
        rcases Admission.mem_register member with own | old
        · exact absurd (congrArg Prod.fst own) elsewhere
        · unfold queueOf
          dsimp only
          rw [SortedMap.get?_insert, if_neg elsewhere.symm]
          exact coherent.waiters none waiter old
      · exact absurd idle (List.append_ne_nil_of_right_ne_nil _ (List.cons_ne_nil _ _))
      · exact absurd_ended scanning idle
      · exact ⟨index, List.mem_singleton.mp member, valid⟩
    · rw [refused] at tried
      dsimp only
      rw [refused]
      dsimp only
      refine ⟨coherent.requeued tried perm (fun none waiter member => ?_) fun first isFirst _ => head?_register isFirst,
        .of_log rfl rfl rfl rfl rfl, rfl, fun _ => ⟨rfl, rfl, fun idle _ => ?_⟩⟩
      · rcases Admission.mem_register member with own | old
        · rw [own, queue]
          exact List.cons_ne_nil _ _
        · exact coherent.waiters none waiter old
      · have nothing : leases = [] := by
          rw [idle] at perm
          exact perm.eq_nil
        subst nothing
        cases waiting : run.admission.waiting with
        | nil => exact absurd (reached.books.grants (by rw [waiting]; rfl) (window.cost_fits index)) refuses
        | cons first others =>
          refine ⟨first, rfl, fun same => refuses (reached.books.grants ?_ (window.cost_fits index)), head?_register rfl⟩
          rw [waiting, Admission.ahead, List.takeWhile_cons_of_neg (by simpa using same)]

/-- A check is admitted when nothing is in flight. -/
theorem presence_idle (idle : run.inFlight = []) (empty : groups.items = []) (refused : run.admitPresence groups remote = none) :
    queueOf run.state.pendingPresence remote = [] := by
  by_contra some
  obtain ⟨index, rest, queue⟩ := List.exists_cons_of_ne_nil some
  have held : run.heldPresence groups = [] := by
    have nothing : groups.entries.flatMap Prod.snd = [] := empty
    rw [heldPresence, nothing, idle]
    rfl
  have free : tryPresence window.presence (run.heldPresence groups) remote = true := by
    rw [held, tryPresence, List.count_nil, List.length_nil, decide_eq_true window.presence.perRemote_pos,
      decide_eq_true window.presence.global_pos]
    rfl
  simp only [admitPresence, queue, free, if_true] at refused
  split_ifs at refused

/-- An admitted check joins its group, which leaves for the remote when it is full. -/
theorem presenceAdmitted (coherent : Coherent run) (scanning : run.phase = .scan offset groups)
    {others : SortedMap RemoteId (List (Fin window.count))} (admitted : run.admitPresence groups remote = some (next, others)) :
    Coherent { next with phase := .scan 0 others } ∧ Attempts run next := by
  unfold admitPresence at admitted
  cases queue : queueOf run.state.pendingPresence remote with
  | nil =>
    rw [queue] at admitted
    cases admitted
  | cons index rest =>
    rw [queue] at admitted
    dsimp only at admitted
    have groupsOf_phase : groupsOf run.phase = groups := by rw [scanning]; rfl
    have taken := PipelineState.Accounts.presenceTaken coherent.accounts queue
    have grouped := coherent.grouped
    rw [groupsOf_phase] at grouped
    have members := SortedMap.items_perm groups remote
    split_ifs at admitted with permitted full
    · cases admitted
      have verifies : (run.inFlight ++ [PublishWork.presence (queueOf groups remote ++ [index]) (queueOf groups remote ++ [index])]).filterMap
          PublishWork.verifies = run.verifications := by
        rw [List.filterMap_append]
        exact List.append_nil _
      have outside : (index :: run.outside).Perm ((groups.erase remote).items ++ (run.inFlight ++
          [PublishWork.presence (queueOf groups remote ++ [index]) (queueOf groups remote ++ [index])]).flatMap PublishWork.owes) := by
        rw [PublishRun.outside, groupsOf_phase, List.flatMap_append, List.flatMap_singleton, PublishWork.owes]
        refine ((members.append_right _).cons index).trans ?_
        rw [List.perm_iff_count]
        intro other
        simp only [List.count_cons, List.count_append, List.count_nil, queueOf]
        omega
      refine ⟨⟨?_, coherent.listed, ?_, fun remaining leases member => ?_, fun other lease member => ?_, ?_, fun _ => ?_,
        coherent.waiters, fun key group found => ?_, fun _ _ here => ?_, absurd_ended rfl⟩, .of_log rfl rfl rfl verifies rfl⟩
      · rw [PublishRun.batch, verifications, verifies]
        exact ⟨taken.facts, taken.placed.perm outside, taken.live⟩
      · rw [verifications, verifies]
        exact coherent.single
      · rcases List.mem_append.mp member with old | new
        · exact coherent.owing remaining leases old
        · cases List.mem_singleton.mp new
          exact List.append_ne_nil_of_right_ne_nil _ (List.cons_ne_nil _ _)
      · rcases List.mem_append.mp member with old | new
        · exact coherent.uploads other lease old
        · cases List.mem_singleton.mp new
      · obtain ⟨leases, reached, perm⟩ := coherent.leased
        refine ⟨leases, reached, ?_⟩
        rw [List.flatMap_append]
        exact perm.trans (List.Perm.of_eq (List.append_nil _).symm)
      · exact coherent.quiet (scanning ▸ by rintro ⟨⟩)
      · have found : (groups.erase remote).get? key = some group := found
        rw [SortedMap.get?_erase] at found
        split_ifs at found
        exact grouped key group found
      · cases here
        exact fun _ _ => passed_zero _
    · cases admitted
      have outside : (index :: run.outside).Perm ((groups.insert remote (queueOf groups remote ++ [index])).items ++
          run.inFlight.flatMap PublishWork.owes) := by
        rw [PublishRun.outside, groupsOf_phase]
        refine ((members.append_right _).cons index).trans ?_
        refine List.Perm.trans ?_ ((SortedMap.items_insert_perm groups remote (queueOf groups remote ++ [index])).symm.append_right _)
        rw [List.perm_iff_count]
        intro other
        simp only [List.count_cons, List.count_append, List.count_nil, queueOf]
        omega
      refine ⟨⟨⟨taken.facts, taken.placed.perm outside, taken.live⟩, coherent.listed, coherent.single, coherent.owing, coherent.uploads,
        coherent.leased, fun _ => coherent.quiet (scanning ▸ by rintro ⟨⟩), coherent.waiters, fun key group found => ?_, fun _ _ here => ?_, absurd_ended rfl⟩,
        .of_log rfl rfl rfl rfl rfl⟩
      · have found : (groups.insert remote (queueOf groups remote ++ [index])).get? key = some group := found
        rw [SortedMap.get?_insert] at found
        split_ifs at found
        · cases found
          exact List.append_ne_nil_of_right_ne_nil _ (List.cons_ne_nil _ _)
        · exact grouped key group found
      · cases here
        exact fun _ _ => passed_zero _

/-! ## A visit -/

/-- Admitted work starts the next scan. -/
theorem rescans (coherent : Coherent run) (scanning : run.phase = .scan offset groups) (remote : RemoteId) (position : ℕ) (kind : QueueKind) :
    Coherent (run.admitted groups remote position kind) := by
  have outside : (run.admitted groups remote position kind).outside = run.outside := by
    rw [PublishRun.outside, PublishRun.outside, scanning]
    rfl
  have grouped := coherent.grouped
  rw [scanning] at grouped
  refine ⟨?_, coherent.listed, coherent.single, coherent.owing, coherent.uploads, coherent.leased, fun _ => coherent.quiet (scanning ▸ by rintro ⟨⟩),
    coherent.waiters, grouped, fun _ _ here => ?_, absurd_ended rfl⟩
  · rw [outside]
    exact ⟨{ coherent.accounts.facts with }, ⟨coherent.accounts.placed.atMost, coherent.accounts.placed.atLeast⟩, coherent.accounts.live⟩
  · cases here
    exact fun _ _ => passed_zero _

theorem visited_succ {other : RemoteId} (here : run.scanned offset = some remote) (visited : run.Visited (offset + 1) other) :
    run.Visited offset other ∨ other = remote := by
  obtain ⟨earlier, before, same⟩ := visited
  rcases Nat.lt_succ_iff_lt_or_eq.mp before with earlier_lt | rfl
  · exact .inl ⟨earlier, earlier_lt, same⟩
  · exact .inr (Option.some.inj (same.symm.trans here))

/-- A first waiter that a scan meets with uploads has not been passed. -/
theorem ahead_of_first (coherent : Coherent run) (scanning : run.phase = .scan offset groups) (here : run.scanned offset = some remote)
    (idle : run.inFlight = []) (empty : groups.items = []) {first : RemoteId × ℕ} (isFirst : first ∈ run.admission.waiting.head?)
    (other : first.1 ≠ remote) (more : queueOf run.state.readyUploads first.1 ≠ []) : ¬run.Visited (offset + 1) first.1 := by
  intro visited
  rcases visited_succ here visited with before | same
  · rcases (coherent.passed offset groups scanning idle empty).upload with none | ⟨head, isHead, -, ahead⟩
    · exact more (none first.1 before)
    · cases Option.some.inj (isFirst.symm.trans isHead)
      exact ahead before
  · exact other same

/-- A remote without work to admit is passed. -/
theorem skips (coherent : Coherent run) (scanning : run.phase = .scan offset groups) (here : run.scanned offset = some remote)
    (stuck : run.inFlight = [] → groups.items = [] → queueOf run.state.pendingPresence remote = [] ∧
      (queueOf run.state.readyUploads remote = [] ∨ ∃ first ∈ run.admission.waiting.head?,
        queueOf run.state.readyUploads first.1 ≠ [] ∧ ¬run.Visited (offset + 1) first.1)) :
    Coherent { run with phase := .scan (offset + 1) groups } := by
  have outside : run.outside = ({ run with phase := .scan (offset + 1) groups } : PublishRun window).outside := by
    rw [PublishRun.outside, PublishRun.outside, scanning]
    rfl
  have grouped := coherent.grouped
  rw [scanning] at grouped
  refine ⟨outside ▸ coherent.accounts, coherent.listed, coherent.single, coherent.owing, coherent.uploads, coherent.leased,
    fun _ => coherent.quiet (scanning ▸ by rintro ⟨⟩), coherent.waiters, grouped, fun _ _ next idle empty => ?_, absurd_ended rfl⟩
  cases next
  obtain ⟨presence, upload⟩ := coherent.passed offset groups scanning idle empty
  obtain ⟨noPresence, noUpload⟩ := stuck idle empty
  refine ⟨fun other visited => ?_, ?_⟩
  · rcases visited_succ here visited with before | rfl
    · exact presence other before
    · exact noPresence
  · rcases noUpload with none | behind
    · rcases upload with nothing | ⟨first, isFirst, more, ahead⟩
      · refine .inl fun other visited => ?_
        rcases visited_succ here visited with before | rfl
        · exact nothing other before
        · exact none
      · refine .inr ⟨first, isFirst, more, fun visited => ?_⟩
        rcases visited_succ here visited with before | same
        · exact ahead before
        · exact more (same ▸ none)
    · exact .inr behind

theorem selectQueueKind_eq_none {presence upload : Bool} {last : Option QueueKind} (none : selectQueueKind presence upload last = none) :
    presence = false ∧ upload = false := by
  cases presence <;> cases upload
  · exact ⟨rfl, rfl⟩
  · cases none
  · cases none
  · cases last with
    | none => cases none
    | some kind => cases kind <;> cases none

/-- A visit that ends without work has passed its remote. -/
theorem passesOn (coherent : Coherent run) (scanning : run.phase = .scan offset groups) (here : run.scanned offset = some remote)
    (meets : run.Meets (.visit remote)) (kept : Coherent next) (phase : next.phase = run.phase) (state : next.state = run.state)
    (inFlight : next.inFlight = run.inFlight)
    (noPresence : run.inFlight = [] → groups.items = [] → queueOf run.state.pendingPresence remote = [])
    (noUpload : run.inFlight = [] → queueOf run.state.readyUploads remote ≠ [] → ∃ first ∈ run.admission.waiting.head?, first.1 ≠ remote ∧
      ∃ other ∈ next.admission.waiting.head?, other.1 = first.1) :
    Coherent { next with phase := .scan (offset + 1) groups } := by
  have scanned_eq (earlier : ℕ) : next.scanned earlier = run.scanned earlier := by rw [scanned, scanned, state]
  refine kept.skips (phase.trans scanning) ((scanned_eq offset).trans here) fun idle empty => ?_
  rw [inFlight] at idle
  rw [state]
  refine ⟨noPresence idle empty, or_iff_not_imp_left.mpr fun some => ?_⟩
  obtain ⟨first, isFirst, elsewhere, head, isHead, same⟩ := noUpload idle some
  have groupsEmpty : (groupsOf run.phase).items = [] := by
    rw [scanning]
    exact empty
  have more := meets idle groupsEmpty (noPresence idle empty) some first isFirst
  refine ⟨head, isHead, same ▸ more, fun visited => ?_⟩
  obtain ⟨earlier, before, there⟩ := visited
  exact coherent.ahead_of_first scanning here idle empty isFirst elsewhere more ⟨earlier, before, (scanned_eq earlier).symm.trans (same ▸ there)⟩

/-- A visit keeps a run coherent. -/
theorem visit (coherent : Coherent run) (scanning : run.phase = .scan offset groups) (here : run.scanned offset = some remote)
    (meets : run.Meets (.visit remote)) : Coherent (run.visit offset groups remote) ∧ Attempts run (run.visit offset groups remote) := by
  obtain ⟨start, started, begun, begins, phase, state, inFlight, same⟩ : ∃ start,
      (if queueOf run.state.readyUploads remote ≠ [] then run else { run with admission := (run.admission.forgetWaiter remote).1 }) = start ∧
        Coherent start ∧ Attempts run start ∧ start.phase = run.phase ∧ start.state = run.state ∧ start.inFlight = run.inFlight ∧
          (queueOf run.state.readyUploads remote ≠ [] → start = run) := by
    by_cases none : queueOf run.state.readyUploads remote = []
    · exact ⟨_, if_neg (not_not.mpr none), coherent.forgotten none, .of_log rfl rfl rfl rfl rfl, rfl, rfl, rfl, fun some => absurd none some⟩
    · exact ⟨_, if_pos none, coherent, .refl run, rfl, rfl, rfl, fun _ => rfl⟩
  obtain ⟨tried, tries, triedPhase, refused⟩ := begun.uploadTried (phase.trans scanning) remote
  -- a refused upload leaves the remote behind the first waiter
  have noUpload (last : PublishRun window) (failed : start.admitUpload remote = (false, last)) : last.state = run.state ∧
      last.inFlight = run.inFlight ∧ last.phase = run.phase ∧ (run.inFlight = [] → queueOf run.state.readyUploads remote ≠ [] →
        ∃ first ∈ run.admission.waiting.head?, first.1 ≠ remote ∧ ∃ other ∈ last.admission.waiting.head?, other.1 = first.1) := by
    rw [failed] at refused triedPhase
    obtain ⟨lastState, lastInFlight, behind⟩ := refused rfl
    refine ⟨lastState.trans state, lastInFlight.trans inFlight, triedPhase.trans phase, fun idle some => ?_⟩
    have unchanged := same some
    subst unchanged
    exact behind idle some
  unfold PublishRun.visit
  dsimp only
  rw [started]
  cases chosen : selectQueueKind (decide (queueOf run.state.pendingPresence remote ≠ [])) (decide (queueOf run.state.readyUploads remote ≠ []))
      (start.state.lastAdmittedByRemote.get? remote) with
  | none =>
    obtain ⟨noCheck, nothing⟩ := selectQueueKind_eq_none chosen
    refine ⟨coherent.passesOn scanning here meets begun phase state inFlight (fun _ _ => ?_) fun _ some => ?_,
      begins.trans (.of_log rfl rfl rfl rfl rfl)⟩
    · simpa using noCheck
    · exact absurd some (by simpa using nothing)
  | some kind =>
    cases kind with
    | presence =>
      dsimp only
      cases check : start.admitPresence groups remote with
      | some admitted =>
        obtain ⟨next, others⟩ := admitted
        obtain ⟨kept, attempts⟩ := begun.presenceAdmitted (phase.trans scanning) check
        exact ⟨kept.rescans rfl remote _ .presence, begins.trans (attempts.trans (.of_log rfl rfl rfl rfl rfl))⟩
      | none =>
        dsimp only
        cases upload : start.admitUpload remote with
        | mk success last =>
          rw [upload] at tried tries triedPhase
          cases success with
          | true => exact ⟨tried.rescans (triedPhase.trans (phase.trans scanning)) remote _ .upload,
              begins.trans (tries.trans (.of_log rfl rfl rfl rfl rfl))⟩
          | false =>
            obtain ⟨lastState, lastInFlight, lastPhase, behind⟩ := noUpload last upload
            refine ⟨coherent.passesOn scanning here meets tried lastPhase lastState lastInFlight (fun idle empty => ?_) behind,
              begins.trans (tries.trans (.of_log rfl rfl rfl rfl rfl))⟩
            have nothing := presence_idle (inFlight.trans idle) empty check
            rwa [state] at nothing
    | upload =>
      dsimp only
      cases upload : start.admitUpload remote with
      | mk success last =>
        rw [upload] at tried tries triedPhase
        cases success with
        | true => exact ⟨tried.rescans (triedPhase.trans (phase.trans scanning)) remote _ .upload,
            begins.trans (tries.trans (.of_log rfl rfl rfl rfl rfl))⟩
        | false =>
          obtain ⟨lastState, lastInFlight, lastPhase, behind⟩ := noUpload last upload
          dsimp only
          cases check : last.admitPresence groups remote with
          | some admitted =>
            obtain ⟨next, others⟩ := admitted
            obtain ⟨kept, attempts⟩ := tried.presenceAdmitted (lastPhase.trans scanning) check
            exact ⟨kept.rescans rfl remote _ .presence, begins.trans (tries.trans (attempts.trans (.of_log rfl rfl rfl rfl rfl)))⟩
          | none =>
            refine ⟨coherent.passesOn scanning here meets tried lastPhase lastState lastInFlight (fun idle empty => ?_) behind,
              begins.trans (tries.trans (.of_log rfl rfl rfl rfl rfl))⟩
            have nothing := presence_idle (lastInFlight.trans idle) empty check
            rwa [lastState] at nothing

end Coherent

end PublishRun

end Gat
