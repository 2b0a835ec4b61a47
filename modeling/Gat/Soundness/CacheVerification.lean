import Gat.Proofs.CacheVerification

/-! # Cache verdicts are never older than a publication

What a client remembers, and what its valid tickets carry, was observed after the last publication of the object. A publication
invalidates all tickets, and an invalid ticket is verified again.
-/

namespace Gat

namespace CacheRun

variable {β : Type} {hash : β → Oid} {contents : Oid → StatProof → β} {run next : CacheRun β} {event : Event}

/-- The status is what hashing gives for a file that has stood there since the last publication. -/
def Seen (hash : β → Oid) (seen : Oid → List (CacheFile β)) (oid : Oid) (status : ObjectVerification) : Prop :=
  ∃ file ∈ seen oid, plainHashing hash file oid = some status

/-- A pending object whose prior proof and outcome are right. -/
structure PendingSound (hash : β → Oid) (contents : Oid → StatProof → β) (seen : Oid → List (CacheFile β)) (object : PendingObject) : Prop where
  prior : Proves hash contents object.oid object.prior
  outcome : ∀ outcome, object.outcome = some outcome → Seen hash seen object.oid outcome.1.status ∧
    ∀ delta ∈ outcome.2, Proves hash contents delta.oid delta.proof

/-- A ticket that may be committed. -/
structure TicketSound (hash : β → Oid) (contents : Oid → StatProof → β) (seen : Oid → List (CacheFile β)) (ticket : CacheTicket) : Prop where
  known : ∀ oid observation, ticket.known oid = some observation → Seen hash seen oid observation.status
  pending : ∀ object ∈ ticket.pending, PendingSound hash contents seen object
  covers : ∀ oid ∈ ticket.oids, (ticket.known oid).isSome ∨ ∃ object ∈ ticket.pending, object.oid = oid

/-- What holds between steps. -/
structure Sound (hash : β → Oid) (contents : Oid → StatProof → β) (run : CacheRun β) : Prop where
  stable : ∀ oid, Stable contents oid (run.files oid)
  current : ∀ oid, run.files oid ∈ run.seen oid
  index : ProvesAll hash contents run.index
  memo : ∀ oid observation, run.client.memo oid = some observation → Seen hash run.seen oid observation.status
  issued : ∀ ticket ∈ run.tickets, ticket.generation.client = run.client.generation.client →
    ticket.generation.number ≤ run.client.generation.number
  tickets : ∀ ticket ∈ run.tickets, ticket.generation = run.client.generation → TicketSound hash contents run.seen ticket
  committing : ∀ ticket, run.phase = .committing ticket → TicketSound hash contents run.seen ticket
  verifying : ∀ oid prior, run.phase = .verifying oid prior → Proves hash contents oid prior
  window : ∀ oids pending, run.phase = .window oids pending →
    (∀ object ∈ pending, PendingSound hash contents run.seen object) ∧ pending.map PendingObject.oid = oids

section Parts

variable {seen later : Oid → List (CacheFile β)} {ticket : CacheTicket} {object : PendingObject} {pending following : List PendingObject} {oid : Oid}

theorem Seen.mono {status : ObjectVerification} (observed : Seen hash seen oid status) (more : seen oid ⊆ later oid) : Seen hash later oid status := by
  obtain ⟨file, member, plain⟩ := observed
  exact ⟨file, more member, plain⟩

theorem PendingSound.mono (sound : PendingSound hash contents seen object) (more : ∀ oid, seen oid ⊆ later oid) :
    PendingSound hash contents later object :=
  ⟨sound.prior, fun outcome found => ⟨(sound.outcome outcome found).1.mono (more _), (sound.outcome outcome found).2⟩⟩

theorem TicketSound.mono (sound : TicketSound hash contents seen ticket) (more : ∀ oid, seen oid ⊆ later oid) :
    TicketSound hash contents later ticket :=
  ⟨fun oid observation found => (sound.known oid observation found).mono (more oid), fun object member => (sound.pending object member).mono more,
    sound.covers⟩

/-- Observing an object keeps a batch right and its objects in place. -/
theorem Observes.sound {files : Oid → CacheFile β} (observes : Observes hash files pending following)
    (stable : ∀ oid, Stable contents oid (files oid)) (current : ∀ oid, files oid ∈ seen oid)
    (sound : ∀ object ∈ pending, PendingSound hash contents seen object) :
    (∀ object ∈ following, PendingSound hash contents seen object) ∧ following.map PendingObject.oid = pending.map PendingObject.oid := by
  obtain ⟨before, object, after, outcome, rfl, -, verified, rfl⟩ := observes
  have here := sound object (List.mem_append_right _ List.mem_cons_self)
  obtain ⟨plain, proves⟩ := verifyObjectPathFs_spec (stable object.oid) here.prior verified
  refine ⟨fun other member => ?_, by rw [List.map_append, List.map_append, List.map_cons, List.map_cons]⟩
  rcases List.mem_append.mp member with early | rest
  · exact sound other (List.mem_append_left _ early)
  · rcases List.mem_cons.mp rest with rfl | late
    · refine ⟨here.prior, fun found same => ?_⟩
      cases same
      exact ⟨⟨_, current _, plain⟩, fun delta member => (proves delta member).1.symm ▸ (proves delta member).2⟩
    · exact sound other (List.mem_append_right _ (List.mem_cons_of_mem _ late))

/-- A ticket with an object more observed. -/
theorem TicketSound.observed {files : Oid → CacheFile β} (sound : TicketSound hash contents seen ticket)
    (observes : Observes hash files ticket.pending following) (stable : ∀ oid, Stable contents oid (files oid))
    (current : ∀ oid, files oid ∈ seen oid) : TicketSound hash contents seen { ticket with pending := following } := by
  obtain ⟨kept, same⟩ := observes.sound stable current sound.pending
  refine ⟨sound.known, kept, fun oid member => (sound.covers oid member).imp_right ?_⟩
  rintro ⟨object, pending, rfl⟩
  have listed : object.oid ∈ following.map PendingObject.oid := same ▸ List.mem_map_of_mem pending
  obtain ⟨other, found, equal⟩ := List.mem_map.mp listed
  exact ⟨other, found, equal⟩

/-- A prepared batch holds what is remembered and will verify the rest. -/
theorem TicketSound.prepared {client : CacheClient} {index priors : ProofIndex}
    (memo : ∀ oid observation, client.memo oid = some observation → Seen hash seen oid observation.status)
    (proves : ProvesAll hash contents index) (reads : Reads index priors) (oids : List Oid) :
    TicketSound hash contents seen (client.prepareVerification priors oids) := by
  refine ⟨fun oid observation found => ?_, fun object member => ?_, fun oid member => ?_⟩
  · simp only [CacheClient.prepareVerification] at found
    split_ifs at found
    exact memo oid observation found
  · obtain ⟨oid, -, rfl⟩ := List.mem_map.mp member
    refine ⟨fun stat found => ?_, nofun⟩
    rcases reads with rfl | rfl
    · exact proves oid stat found
    · cases found
  · cases known : client.memo oid with
    | some observation =>
      have requested : oid ∈ oids := member
      refine .inl ?_
      simp only [CacheClient.prepareVerification, if_pos requested, known, Option.isSome_some]
    | none =>
      refine .inr ⟨_, List.mem_map_of_mem (List.mem_eraseDups.mpr (List.mem_filter.mpr ⟨member, ?_⟩)), rfl⟩
      rw [known, Option.isNone_none]

/-- What is remembered after a batch is what was, or what the batch observed. -/
theorem remember_cases (results : List (Oid × CacheObservation)) (memo : Oid → Option CacheObservation) (oid : Oid) :
    (results.foldl remember memo oid = memo oid ∧ ∀ result ∈ results, result.1 ≠ oid) ∨
      ∃ observation, (oid, observation) ∈ results ∧ results.foldl remember memo oid = some observation := by
  induction results generalizing memo with
  | nil => exact .inl ⟨rfl, nofun⟩
  | cons result results ih =>
    rcases ih (remember memo result) with ⟨same, absent⟩ | ⟨observation, member, found⟩
    · by_cases here : result.1 = oid
      · subst here
        refine .inr ⟨result.2, List.mem_cons_self, same.trans ?_⟩
        rw [remember, Function.update_self]
      · refine .inl ⟨same.trans ?_, List.forall_mem_cons.mpr ⟨here, absent⟩⟩
        rw [remember, Function.update_of_ne (Ne.symm here)]
    · exact .inr ⟨observation, List.mem_cons_of_mem _ member, found⟩

theorem mem_results {observation : CacheObservation} (member : (oid, observation) ∈ ticket.results) :
    ∃ object ∈ ticket.pending, ∃ delta, object.oid = oid ∧ object.outcome = some (observation, delta) := by
  obtain ⟨object, listed, same⟩ := List.mem_filterMap.mp member
  obtain ⟨⟨found, delta⟩, outcome, equal⟩ := Option.map_eq_some_iff.mp same
  cases equal
  exact ⟨object, listed, delta, rfl, outcome⟩

/-- A committed batch answers every requested object with what was seen, and remembers nothing else. -/
theorem TicketSound.committed {client : CacheClient} (sound : TicketSound hash contents seen ticket) (completed : ticket.Completed)
    (memo : ∀ oid observation, client.memo oid = some observation → Seen hash seen oid observation.status) :
    (∀ oid observation, (client.commitVerification ticket).1.memo oid = some observation → Seen hash seen oid observation.status) ∧
      List.Forall₂ (Seen hash seen) ticket.oids (client.commitVerification ticket).2 := by
  have result (oid : Oid) (observation : CacheObservation) (member : (oid, observation) ∈ ticket.results) :
      Seen hash seen oid observation.status := by
    obtain ⟨object, listed, delta, rfl, outcome⟩ := mem_results member
    exact ((sound.pending object listed).outcome _ outcome).1
  have remembered (oid : Oid) (observation : CacheObservation)
      (found : ticket.results.foldl remember client.memo oid = some observation) : Seen hash seen oid observation.status := by
    rcases remember_cases ticket.results client.memo oid with ⟨same, -⟩ | ⟨other, member, same⟩
    · exact memo oid observation (same.symm.trans found)
    · cases same.symm.trans found
      exact result oid observation member
  refine ⟨remembered, ?_⟩
  rw [CacheClient.commitVerification, List.forall₂_map_right_iff, List.forall₂_same]
  intro oid requested
  cases known : ticket.known oid with
  | some observation => exact sound.known oid observation known
  | none =>
    rw [Option.none_or]
    rcases remember_cases ticket.results client.memo oid with ⟨-, absent⟩ | ⟨observation, member, found⟩
    · rcases sound.covers oid requested with some | ⟨object, listed, rfl⟩
      · rw [known] at some
        cases some
      · obtain ⟨outcome, done⟩ := Option.isSome_iff_exists.mp (completed object listed)
        refine absurd rfl (absent (object.oid, outcome.1) (List.mem_filterMap.mpr ⟨object, listed, ?_⟩))
        rw [done, Option.map_some]
    · rw [found]
      exact remembered oid observation found

theorem mem_deltas {delta : CachePublication} (sound : TicketSound hash contents seen ticket) (member : delta ∈ ticket.deltas) :
    Proves hash contents delta.oid delta.proof := by
  obtain ⟨object, listed, same⟩ := List.mem_filterMap.mp member
  obtain ⟨outcome, done, found⟩ := Option.bind_eq_some_iff.mp same
  exact ((sound.pending object listed).outcome outcome done).2 delta found

end Parts

namespace Sound

theorem opened (opened : Opened hash contents run) : Sound hash contents run where
  stable := opened.stable
  current oid := by
    rw [opened.seen]
    exact List.mem_cons_self
  index := opened.proves
  memo oid observation found := nomatch (opened.memo oid).symm.trans found
  issued ticket member := by
    rw [opened.tickets] at member
    cases member
  tickets ticket member := by
    rw [opened.tickets] at member
    cases member
  committing ticket committing := nomatch opened.phase.symm.trans committing
  verifying oid prior verifying := nomatch opened.phase.symm.trans verifying
  window oids pending opened' := nomatch opened.phase.symm.trans opened'

/-- Files may change: more has been seen. -/
theorem changed (sound : Sound hash contents run) {files : Oid → CacheFile β} (stable : ∀ oid, Stable contents oid (files oid)) :
    Sound hash contents { run with files, seen := fun oid => files oid :: run.seen oid } := by
  have more (oid : Oid) : run.seen oid ⊆ files oid :: run.seen oid := List.subset_cons_self ..
  exact {
    stable := stable
    current := fun oid => List.mem_cons_self
    index := sound.index
    memo := fun oid observation found => (sound.memo oid observation found).mono (more oid)
    issued := sound.issued
    tickets := fun ticket member same => (sound.tickets ticket member same).mono more
    committing := fun ticket committing => (sound.committing ticket committing).mono more
    verifying := sound.verifying
    window := fun oids pending opened =>
      ⟨fun object member => ((sound.window oids pending opened).1 object member).mono more, (sound.window oids pending opened).2⟩ }

/-- A publication: what it forgets starts anew, and no outstanding ticket is valid any more. -/
theorem forgotten (sound : Sound hash contents run) (idle : run.phase = .idle) (oids : List Oid) {index : ProofIndex}
    (proves : ProvesAll hash contents index) :
    Sound hash contents { run with
      client := run.client.forgetMemo oids
      index
      seen := fun oid => if oid ∈ oids then [run.files oid] else run.seen oid } where
  stable := sound.stable
  current oid := by
    dsimp only
    split_ifs
    · exact List.mem_cons_self
    · exact sound.current oid
  index := proves
  memo oid observation found := by
    simp only [CacheClient.forgetMemo] at found
    split_ifs at found with forgotten
    refine (sound.memo oid observation found).mono ?_
    dsimp only
    rw [if_neg forgotten]
    exact List.Subset.refl _
  issued ticket member same := by
    have bound := sound.issued ticket member
    simp only [CacheClient.forgetMemo] at same ⊢
    split_ifs at same ⊢
    · exact bound same
    · exact (bound same).trans (Nat.le_succ _)
  tickets ticket member same := by
    have bound := sound.issued ticket member
    simp only [CacheClient.forgetMemo] at same
    split_ifs at same with none
    · refine (sound.tickets ticket member same).mono fun oid => ?_
      dsimp only
      rw [List.isEmpty_iff.mp none, if_neg List.not_mem_nil]
      exact List.Subset.refl _
    · rw [same] at bound
      exact absurd (bound rfl) (Nat.not_succ_le_self _)
  committing ticket committing := nomatch idle.symm.trans committing
  verifying oid prior verifying := nomatch idle.symm.trans verifying
  window oids pending opened := nomatch idle.symm.trans opened

/-- The tickets of a coherent client after one has changed or left. -/
theorem with_tickets (sound : Sound hash contents run) {tickets : List CacheTicket}
    (issued : ∀ ticket ∈ tickets, ticket.generation.client = run.client.generation.client → ticket.generation.number ≤ run.client.generation.number)
    (valid : ∀ ticket ∈ tickets, ticket.generation = run.client.generation → TicketSound hash contents run.seen ticket) :
    Sound hash contents { run with tickets } :=
  ⟨sound.stable, sound.current, sound.index, sound.memo, issued, valid, sound.committing, sound.verifying, sound.window⟩

/-- The coordinator goes on with a phase whose work is right. -/
theorem with_phase (sound : Sound hash contents run) {phase : CachePhase}
    (committing : ∀ ticket, phase = .committing ticket → TicketSound hash contents run.seen ticket)
    (verifying : ∀ oid prior, phase = .verifying oid prior → Proves hash contents oid prior)
    (window : ∀ oids pending, phase = .window oids pending →
      (∀ object ∈ pending, PendingSound hash contents run.seen object) ∧ pending.map PendingObject.oid = oids) :
    Sound hash contents { run with phase } :=
  ⟨sound.stable, sound.current, sound.index, sound.memo, sound.issued, sound.tickets, committing, verifying, window⟩

/-- The coordinator remembers what it has seen. -/
theorem remembered (sound : Sound hash contents run) {memo : Oid → Option CacheObservation} {index : ProofIndex}
    (seen : ∀ oid observation, memo oid = some observation → Seen hash run.seen oid observation.status) (proves : ProvesAll hash contents index) :
    Sound hash contents { run with client := { run.client with memo }, index, phase := .idle } :=
  ⟨sound.stable, sound.current, proves, seen, sound.issued, sound.tickets, nofun, nofun, nofun⟩

theorem reads (sound : Sound hash contents run) {priors : ProofIndex} (reads : Reads run.index priors) : ProvesAll hash contents priors := by
  rcases reads with rfl | rfl
  · exact sound.index
  · exact fun oid stat found => nomatch found

end Sound

/-- The outcomes of a window are those of its objects. -/
theorem windowOutcomes {seen : Oid → List (CacheFile β)} {pending : List PendingObject}
    {outcomes : List (CacheObservation × Option CachePublication)} (sound : ∀ object ∈ pending, PendingSound hash contents seen object)
    (all : pending.mapM PendingObject.outcome = some outcomes) :
    List.Forall₂ (Seen hash seen) (pending.map PendingObject.oid) (outcomes.map fun outcome => outcome.1.status) ∧
      ∀ delta ∈ outcomes.filterMap Prod.snd, Proves hash contents delta.oid delta.proof := by
  induction pending generalizing outcomes with
  | nil =>
    cases all
    exact ⟨.nil, nofun⟩
  | cons object pending ih =>
    rw [List.mapM_cons] at all
    obtain ⟨outcome, done, rest⟩ := Option.bind_eq_some_iff.mp all
    obtain ⟨others, later, same⟩ := Option.bind_eq_some_iff.mp rest
    cases same
    obtain ⟨aligned, proves⟩ := ih (fun other member => sound other (List.mem_cons_of_mem _ member)) later
    obtain ⟨seen, own⟩ := (sound object List.mem_cons_self).outcome outcome done
    refine ⟨.cons seen aligned, fun delta member => ?_⟩
    obtain ⟨found, listed, equal⟩ := List.mem_filterMap.mp member
    rcases List.mem_cons.mp listed with rfl | later
    · exact own delta equal
    · exact proves delta (List.mem_filterMap.mpr ⟨found, later, equal⟩)

/-- A verdict is what hashing has given since the last publication. -/
def Event.Current (hash : β → Oid) (seen : Oid → List (CacheFile β)) : Event → Prop
  | .silent => True
  | .verdicts oids statuses => List.Forall₂ (Seen hash seen) oids statuses

theorem Step.sound (step : Step hash contents run event next) (sound : Sound hash contents run) :
    Sound hash contents next ∧ event.Current hash next.seen := by
  cases step with
  | change files stable => exact ⟨sound.changed stable, trivial⟩
  | share index proves =>
    exact ⟨⟨sound.stable, sound.current, proves, sound.memo, sound.issued, sound.tickets, sound.committing, sound.verifying, sound.window⟩, trivial⟩
  | prepare oids idle reads =>
    refine ⟨sound.with_tickets (fun ticket member same => ?_) fun ticket member same => ?_, trivial⟩
    · rcases List.mem_append.mp member with old | new
      · exact sound.issued ticket old same
      · cases List.mem_singleton.mp new
        exact Nat.le_refl _
    · rcases List.mem_append.mp member with old | new
      · exact sound.tickets ticket old same
      · cases List.mem_singleton.mp new
        exact .prepared sound.memo sound.index reads oids
  | foreign foreign other =>
    refine ⟨sound.with_tickets (fun ticket member same => ?_) fun ticket member same => ?_, trivial⟩
    · rcases List.mem_append.mp member with old | new
      · exact sound.issued ticket old same
      · cases List.mem_singleton.mp new
        exact absurd same other
    · rcases List.mem_append.mp member with old | new
      · exact sound.tickets ticket old same
      · cases List.mem_singleton.mp new
        exact absurd (congrArg Generation.client same) other
  | @observe before after changed pending here observes =>
    have listed : changed ∈ run.tickets := here ▸ List.mem_append_right _ List.mem_cons_self
    have split (ticket : CacheTicket) (member : ticket ∈ before ++ { changed with pending } :: after) :
        ticket ∈ run.tickets ∨ ticket = { changed with pending } := by
      rw [here]
      rcases List.mem_append.mp member with early | rest
      · exact .inl (List.mem_append_left _ early)
      · exact (List.mem_cons.mp rest).symm.imp_left fun late => List.mem_append_right _ (List.mem_cons_of_mem _ late)
    refine ⟨sound.with_tickets (fun ticket member same => ?_) fun ticket member same => ?_, trivial⟩
    · rcases split ticket member with old | rfl
      · exact sound.issued ticket old same
      · exact sound.issued changed listed same
    · rcases split ticket member with old | rfl
      · exact sound.tickets ticket old same
      · exact (sound.tickets changed listed same).observed observes sound.stable sound.current
  | @drop before after dropped here =>
    have left (ticket : CacheTicket) (member : ticket ∈ before ++ after) : ticket ∈ run.tickets := by
      rw [here]
      exact (List.mem_append.mp member).elim (List.mem_append_left _) fun late => List.mem_append_right _ (List.mem_cons_of_mem _ late)
    exact ⟨sound.with_tickets (fun ticket member => sound.issued ticket (left ticket member)) fun ticket member =>
      sound.tickets ticket (left ticket member), trivial⟩
  | @commit before after committed priors idle here completed reads =>
    have listed : committed ∈ run.tickets := here ▸ List.mem_append_right _ List.mem_cons_self
    have left (ticket : CacheTicket) (member : ticket ∈ before ++ after) : ticket ∈ run.tickets := by
      rw [here]
      exact (List.mem_append.mp member).elim (List.mem_append_left _) fun late => List.mem_append_right _ (List.mem_cons_of_mem _ late)
    have kept := sound.with_tickets (fun ticket member => sound.issued ticket (left ticket member)) fun ticket member =>
      sound.tickets ticket (left ticket member)
    refine ⟨kept.with_phase (fun ticket same => ?_) nofun nofun, trivial⟩
    cases same
    split_ifs with valid
    · exact sound.tickets committed listed valid
    · exact .prepared sound.memo sound.index reads committed.oids
  | recheck committing observes =>
    refine ⟨sound.with_phase (fun ticket same => ?_) nofun nofun, trivial⟩
    cases same
    exact (sound.committing _ committing).observed observes sound.stable sound.current
  | committed committing completed applied =>
    have ticket := sound.committing _ committing
    obtain ⟨memo, aligned⟩ := ticket.committed completed sound.memo
    exact ⟨sound.remembered memo (sound.index.applyMany (fun delta => mem_deltas ticket) applied), aligned⟩
  | @remembered oid observation idle found => exact ⟨sound, .cons (sound.memo oid observation found) .nil⟩
  | @verify oid priors idle unknown reads =>
    refine ⟨sound.with_phase nofun (fun _ _ same => ?_) nofun, trivial⟩
    cases same
    exact sound.reads reads oid
  | @verified oid prior observation delta index verifying observed applied =>
    obtain ⟨plain, proves⟩ := verifyObjectPathFs_spec (sound.stable oid) (sound.verifying oid prior verifying) observed
    have seen : Seen hash run.seen oid observation.status := ⟨_, sound.current oid, plain⟩
    refine ⟨sound.remembered (fun other found same => ?_) (sound.index.applyMany (fun change member => ?_) applied), .cons seen .nil⟩
    · by_cases here : other = oid
      · rw [here, Function.update_self] at same
        cases same
        exact here ▸ seen
      · rw [Function.update_of_ne here] at same
        exact sound.memo other found same
    · obtain ⟨same, right⟩ := proves change (Option.mem_toList.mp member)
      exact same ▸ right
  | @«open» oids priors idle reads =>
    refine ⟨sound.with_phase nofun nofun fun window pending same => ?_, trivial⟩
    cases same
    refine ⟨fun object member => ?_, ?_⟩
    · obtain ⟨oid, -, rfl⟩ := List.mem_map.mp member
      exact ⟨sound.reads reads oid, nofun⟩
    · rw [List.map_map]
      exact List.map_id _
  | look opened observes =>
    refine ⟨sound.with_phase nofun nofun fun window pending same => ?_, trivial⟩
    cases same
    obtain ⟨kept, oids⟩ := sound.window _ _ opened
    obtain ⟨following, same⟩ := observes.sound sound.stable sound.current kept
    exact ⟨following, same.trans oids⟩
  | @shut oids pending outcomes index opened all applied =>
    obtain ⟨kept, same⟩ := sound.window oids pending opened
    obtain ⟨aligned, proves⟩ := windowOutcomes kept all
    refine ⟨(sound.remembered sound.memo (sound.index.applyMany proves applied)), ?_⟩
    rwa [same] at aligned
  | fail => exact ⟨sound.with_phase nofun nofun nofun, trivial⟩
  | publish receipts idle proves applied => exact ⟨sound.forgotten idle _ (sound.index.applyMany proves applied), trivial⟩
  | removeProofs oids idle applied =>
    refine ⟨sound.forgotten idle _ (sound.index.applyMany (fun delta member => ?_) applied), trivial⟩
    obtain ⟨oid, -, rfl⟩ := List.mem_map.mp member
    exact nofun

theorem Reached.sound (reached : Reached hash contents run) : Sound hash contents run := by
  induction reached with
  | opened start => exact .opened start
  | step _ step sound => exact (step.sound sound).1

end CacheRun

open CacheRun in
/-- In every run of a client each status is what hashing gives for a file that has stood at the path of the object since the last
publication of that object, in the order of the request. No proof of the index changes what is observed. -/
theorem cache_verdicts_follow_publications {β : Type} {hash : β → Oid} {contents : Oid → StatProof → β} {run next : CacheRun β} {event : Event}
    (reached : Reached hash contents run) (step : Step hash contents run event next) :
    (∀ oids statuses, event = .verdicts oids statuses →
      List.Forall₂ (fun oid status => ∃ file ∈ next.seen oid, plainHashing hash file oid = some status) oids statuses) ∧
    ∀ oid priors others left right, Reads run.index priors → Reads run.index others →
      verifyObjectPathFs hash (run.files oid) oid (priors oid) = some left →
      verifyObjectPathFs hash (run.files oid) oid (others oid) = some right →
      left.1 = right.1 ∧ plainHashing hash (run.files oid) oid = some left.1.status := by
  have sound := reached.sound
  refine ⟨fun oids statuses same => ?_, fun oid priors others left right first second leftVerified rightVerified => ⟨?_, ?_⟩⟩
  · subst same
    exact (step.sound sound).2
  · exact verifyObjectPathFs_unique (sound.stable oid) (sound.reads first oid) (sound.reads second oid) leftVerified rightVerified
  · exact (verifyObjectPathFs_spec (sound.stable oid) (sound.reads first oid) leftVerified).1

/-! ## A ticket that a publication has overtaken -/

namespace OvertakenTicket

open CacheRun

def hash (byte : UInt8) : Oid := .filled byte

def contents (_ : Oid) (_ : StatProof) : UInt8 := 1

def object : Oid := hash 1

def proof : StatProof := ⟨1, 0, 0⟩

/-- An empty cache. -/
def start : CacheRun UInt8 where
  files _ := .absent
  seen _ := [.absent]
  index _ := none
  client := ⟨⟨0, 0⟩, fun _ => none⟩
  tickets := []
  phase := .idle

/-- The published object. -/
def files (oid : Oid) : CacheFile UInt8 := if oid = object then .regular (some proof) 1 else .absent

def ticket : CacheTicket := start.client.prepareVerification start.index [object, object]

/-- The object is missing when the batch looks, and published before the batch is committed. -/
def overtaken : CacheRun UInt8 where
  files := files
  seen oid := if oid ∈ [object] then [files oid] else [files oid, .absent]
  index := applyTransactions (fun _ => none) 1 [.upsert object proof]
  client := start.client.forgetMemo [object]
  tickets := [{ ticket with pending := [⟨object, none, some (.missing, none)⟩] }]
  phase := .idle

/-- The batch, prepared and verified again by its commit. -/
def again : CacheTicket :=
  { overtaken.client.prepareVerification overtaken.index [object, object] with pending := [⟨object, some proof, some (.valid 1, none)⟩] }

def rechecked : CacheRun UInt8 := { overtaken with tickets := [], phase := .committing again }

theorem stable (oid : Oid) : Stable contents oid (files oid) := by
  intro stat bytes same
  unfold files at same
  split_ifs at same
  cases same
  rfl

theorem reached_overtaken : Reached hash contents overtaken := by
  have opened : Reached hash contents start :=
    .opened ⟨fun _ => nofun, fun _ => rfl, fun _ => nofun, fun _ => rfl, rfl, rfl⟩
  have prepared := opened.step (.prepare [object, object] rfl (.inl rfl))
  have observed := prepared.step (@Step.observe _ _ _ _ [] [] ticket _ rfl ⟨[], ⟨object, none, none⟩, [], (.missing, none), rfl, rfl, rfl, rfl⟩)
  have changed := observed.step (.change files stable)
  exact changed.step (.publish [.upsert object proof] rfl (by
    intro receipt member stat same
    cases List.mem_singleton.mp member
    rfl) ⟨[.upsert object proof], 1, .refl _, rfl⟩)

end OvertakenTicket

open CacheRun OvertakenTicket in
/-- The overtaken batch is verified again, and both places of its request get the new status. -/
theorem cache_verdicts_follow_publications_overtaken : ∃ run next, Reached hash contents run ∧
    Step hash contents run (.verdicts [object, object] [.valid, .valid]) next ∧
    List.Forall₂ (fun oid status => ∃ file ∈ next.seen oid, plainHashing hash file oid = some status) [object, object] [.valid, .valid] := by
  have committing := reached_overtaken.step (@Step.commit _ _ _ overtaken [] [] _ _ rfl rfl (by
    intro pending member
    cases List.mem_singleton.mp member
    rfl) (.inl rfl))
  have reached : Reached hash contents rechecked :=
    committing.step (.recheck rfl ⟨[], ⟨object, some proof, none⟩, [], (.valid 1, none), rfl, rfl, rfl, rfl⟩)
  have completed : again.Completed := by
    intro pending member
    cases List.mem_singleton.mp member
    rfl
  have committed : Step hash contents rechecked (.verdicts [object, object] [.valid, .valid]) _ :=
    @Step.committed _ hash contents rechecked again _ rfl completed ⟨[], 0, .refl _, rfl⟩
  exact ⟨_, _, reached, committed, (cache_verdicts_follow_publications reached committed).1 _ _ rfl⟩

end Gat
