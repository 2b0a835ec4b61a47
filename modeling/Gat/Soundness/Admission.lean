import Gat.Proofs.Admission

/-! # Admission keeps its books and its queue order

Whatever coordinators do and in whatever order, the counters are the sums over the live leases and stay within the limits,
the queue holds a remote once, and a lease goes to the first waiting remote with room of its own.
-/

namespace Gat

open Usage

namespace Transfers

/-- The books of the admission agree with the live leases. -/
structure Books (limits : RemoteConcurrency) (transfers : Transfers) : Prop where
  sameLimits : transfers.admission.limits = limits
  total : transfers.admission.total = held transfers.leases
  remotes (remote : RemoteId) : transfers.admission.remotes.get? remote = heldBy remote transfers.leases
  jobs : (held transfers.leases).jobs ≤ limits.global
  bytes : (held transfers.leases).bytes ≤ GLOBAL_BYTES
  remoteJobs (remote : RemoteId) : (held (leasesOf remote transfers.leases)).jobs ≤ limits.perRemote
  remoteBytes (remote : RemoteId) : (held (leasesOf remote transfers.leases)).bytes ≤ REMOTE_BYTES
  once : (transfers.admission.waiting.map Prod.fst).Nodup
  costs : ∀ waiter ∈ transfers.admission.waiting, waiter.2 ≤ REMOTE_BYTES

/-- The live leases of a remote leave it a slot, and room for what a waiter asks. -/
def LocalRoom (limits : RemoteConcurrency) (leases : List TransferLease) (waiter : RemoteId × ℕ) : Prop :=
  (held (leasesOf waiter.1 leases)).jobs < limits.perRemote ∧ (held (leasesOf waiter.1 leases)).bytes + waiter.2 ≤ REMOTE_BYTES

namespace Books

variable {limits : RemoteConcurrency} {admission : Admission} {leases : List TransferLease}

/-- The admission sees the room that the live leases leave. -/
theorem hasLocalRoom_iff (books : Books limits ⟨admission, leases⟩) {waiter : RemoteId × ℕ} (fits : waiter.2 ≤ REMOTE_BYTES) :
    admission.hasLocalRoom waiter ↔ LocalRoom limits leases waiter := by
  unfold Admission.hasLocalRoom LocalRoom
  rw [books.remotes, heldBy, books.sameLimits]
  split_ifs with idle
  · rw [idle, held_nil]
    exact iff_of_true rfl ⟨limits.perRemote_pos, by simpa [Usage.zero] using fits⟩
  · simp

theorem new (limits : RemoteConcurrency) : Books limits ⟨.new limits, []⟩ where
  sameLimits := rfl
  total := rfl
  remotes _ := rfl
  jobs := Nat.zero_le _
  bytes := Nat.zero_le _
  remoteJobs _ := Nat.zero_le _
  remoteBytes _ := Nat.zero_le _
  once := List.nodup_nil
  costs := nofun

/-- A lease is counted when it is granted, and the limits leave room for it. -/
theorem granted (books : Books limits ⟨admission, leases⟩) {remote : RemoteId} {bytes : ℕ} (fits : bytes ≤ REMOTE_BYTES)
    (grants : admission.Grants remote bytes) {waiting : List (RemoteId × ℕ)} (once : (waiting.map Prod.fst).Nodup)
    (costs : ∀ waiter ∈ waiting, waiter.2 ≤ REMOTE_BYTES) :
    Books limits ⟨{ admission with
      waiting
      total := admission.total.reserve bytes
      remotes := admission.remotes.insert remote (((admission.remotes.get? remote).getD .zero).reserve bytes) },
      ⟨remote, bytes, fits⟩ :: leases⟩ := by
  obtain ⟨localJobs, localBytes⟩ := (books.hasLocalRoom_iff fits).mp grants.room
  have jobs := grants.jobs
  have roomBytes := grants.bytes
  rw [books.total] at jobs roomBytes
  rw [books.sameLimits] at jobs
  refine ⟨books.sameLimits, ?_, fun other => ?_, ?_, ?_, fun other => ?_, fun other => ?_, once, costs⟩
  · rw [held_cons, ← books.total]
  · dsimp only
    rw [SortedMap.get?_insert, heldBy, leasesOf_cons]
    by_cases same : remote = other
    · subst same
      have known : admission.remotes.get? remote = heldBy remote leases := books.remotes remote
      rw [if_pos rfl, if_pos rfl, if_neg (List.cons_ne_nil _ _), known, getD_heldBy, held_cons]
    · rw [if_neg same, if_neg same]
      exact books.remotes other
  · rw [held_cons]
    exact jobs
  · rw [held_cons]
    exact roomBytes
  · rw [leasesOf_cons]
    split_ifs with same
    · obtain rfl : remote = other := same
      rw [held_cons]
      exact localJobs
    · exact books.remoteJobs other
  · rw [leasesOf_cons]
    split_ifs with same
    · obtain rfl : remote = other := same
      rw [held_cons]
      exact localBytes
    · exact books.remoteBytes other

/-- Only the queue changes. -/
theorem waited (books : Books limits ⟨admission, leases⟩) {waiting : List (RemoteId × ℕ)} (once : (waiting.map Prod.fst).Nodup)
    (costs : ∀ waiter ∈ waiting, waiter.2 ≤ REMOTE_BYTES) : Books limits ⟨{ admission with waiting }, leases⟩ :=
  ⟨books.sameLimits, books.total, books.remotes, books.jobs, books.bytes, books.remoteJobs, books.remoteBytes, once, costs⟩

theorem tryAcquire (books : Books limits ⟨admission, leases⟩) (remote : RemoteId) {bytes : ℕ} (fits : bytes ≤ REMOTE_BYTES) :
    Books limits ⟨(admission.tryAcquire remote bytes fits).2, (admission.tryAcquire remote bytes fits).1.toList ++ leases⟩ := by
  have once : ((Admission.register remote bytes admission.waiting).map Prod.fst).Nodup := Admission.nodup_register books.once
  have costs : ∀ waiter ∈ Admission.register remote bytes admission.waiting, waiter.2 ≤ REMOTE_BYTES := by
    intro waiter member
    rcases Admission.mem_register member with rfl | old
    · exact fits
    · exact books.costs waiter old
  rcases admission.tryAcquire_cases remote bytes fits with ⟨grants, granted⟩ | ⟨-, refused⟩
  · rw [granted]
    refine books.granted fits grants (once.sublist (List.filter_sublist.map _)) fun waiter member => ?_
    exact costs waiter (List.mem_filter.mp member).1
  · rw [refused]
    exact books.waited once costs

theorem forgetWaiter (books : Books limits ⟨admission, leases⟩) (remote : RemoteId) :
    Books limits ⟨(admission.forgetWaiter remote).1, leases⟩ :=
  books.waited (books.once.sublist (List.filter_sublist.map _)) fun waiter member => books.costs waiter (List.mem_filter.mp member).1

/-- A live lease can be dropped: no counter underflows and its remote has counters. -/
theorem exists_drop (books : Books limits ⟨admission, leases⟩) {lease : TransferLease} (live : lease ∈ leases) :
    ∃ next, admission.drop lease = some next ∧ Books limits ⟨next, leases.erase lease⟩ := by
  have own := mem_leasesOf live
  have known : admission.remotes.get? lease.remote = some (held (leasesOf lease.remote leases)) := by
    rw [books.remotes, heldBy, if_neg (List.ne_nil_of_mem own)]
  rw [Admission.drop, books.total, release_held live, known]
  dsimp only [Option.bind_eq_bind, Option.bind_some]
  rw [release_held own]
  refine ⟨_, rfl, ?_⟩
  have less (remote : RemoteId) : (leasesOf remote (leases.erase lease)).Sublist (leasesOf remote leases) := List.erase_sublist.filter _
  obtain ⟨fewerJobs, fewerBytes⟩ := held_le_of_sublist (leases.erase_sublist (a := lease))
  refine ⟨books.sameLimits, rfl, fun other => ?_, fewerJobs.trans books.jobs, fewerBytes.trans books.bytes, fun other => ?_, fun other => ?_,
    books.once, books.costs⟩
  · by_cases same : lease.remote = other
    · subst same
      rw [heldBy, leasesOf_erase_self]
      -- the counters vanish with the last job, which is the last lease
      have last : (held ((leasesOf lease.remote leases).erase lease)).jobs = 0 ↔ (leasesOf lease.remote leases).erase lease = [] :=
        List.length_eq_zero_iff
      split_ifs with noJobs idle idle
      · exact (SortedMap.get?_erase ..).trans (if_pos rfl)
      · exact absurd (last.mp noJobs) idle
      · exact absurd (last.mpr idle) noJobs
      · exact (SortedMap.get?_insert ..).trans (if_pos rfl)
    · rw [heldBy, leasesOf_erase_of_ne same]
      refine Eq.trans ?_ (books.remotes other)
      dsimp only
      split_ifs with noJobs
      · exact (SortedMap.get?_erase ..).trans (if_neg same)
      · exact (SortedMap.get?_insert ..).trans (if_neg same)
  · exact (held_le_of_sublist (less other)).1.trans (books.remoteJobs other)
  · exact (held_le_of_sublist (less other)).2.trans (books.remoteBytes other)

end Books

theorem Reached.books {limits : RemoteConcurrency} {transfers : Transfers} (reached : Reached limits transfers) : Books limits transfers := by
  induction reached with
  | new => exact .new limits
  | tryAcquire remote bytes fits _ books => exact books.tryAcquire remote fits
  | forgetWaiter remote _ books => exact books.forgetWaiter remote
  | drop live dropped _ books =>
    obtain ⟨next, same, kept⟩ := books.exists_drop live
    cases dropped.symm.trans same
    exact kept

/-- A lease is granted to a remote only when no remote ahead of it has room for its registered cost. -/
theorem Books.first {limits : RemoteConcurrency} {admission : Admission} {leases : List TransferLease}
    (books : Books limits ⟨admission, leases⟩) {remote : RemoteId} {bytes : ℕ} {fits : bytes ≤ REMOTE_BYTES} {lease : TransferLease}
    (granted : (admission.tryAcquire remote bytes fits).1 = some lease) :
    ∀ waiter ∈ Admission.ahead remote admission.waiting, ¬LocalRoom limits leases waiter := by
  rcases admission.tryAcquire_cases remote bytes fits with ⟨grants, -⟩ | ⟨-, refused⟩
  · intro waiter member room
    have costs := books.costs waiter (Admission.ahead_subset _ _ member)
    exact Bool.false_ne_true ((grants.first waiter member).symm.trans ((books.hasLocalRoom_iff costs).mpr room))
  · rw [refused] at granted
    cases granted

/-- Without leases a remote is granted its own when nobody is ahead of it. -/
theorem Books.grants {limits : RemoteConcurrency} {admission : Admission} (books : Books limits ⟨admission, []⟩) {remote : RemoteId}
    (nobody : Admission.ahead remote admission.waiting = []) {bytes : ℕ} (fits : bytes ≤ REMOTE_BYTES) : admission.Grants remote bytes := by
  refine ⟨(books.hasLocalRoom_iff fits).mpr ⟨limits.perRemote_pos, ?_⟩, nobody ▸ nofun, ?_, ?_⟩
  · exact (Nat.zero_add bytes).trans_le fits
  · rw [books.total, books.sameLimits]
    exact limits.global_pos
  · rw [books.total]
    exact (Nat.zero_add bytes).trans_le (fits.trans (by decide))

/-- The first waiting remote is granted its lease when there is no other. -/
theorem Books.idle {limits : RemoteConcurrency} {admission : Admission} (books : Books limits ⟨admission, []⟩) {remote : RemoteId} {cost : ℕ}
    (isFirst : admission.waiting.head? = some (remote, cost)) {bytes : ℕ} (fits : bytes ≤ REMOTE_BYTES) :
    (admission.tryAcquire remote bytes fits).1 = some ⟨remote, bytes, fits⟩ := by
  have nobody : Admission.ahead remote admission.waiting = [] := by
    obtain ⟨rest, waiting⟩ := List.head?_eq_some_iff.mp isFirst
    rw [Admission.ahead, waiting, List.takeWhile_cons_of_neg (by simp)]
  rcases admission.tryAcquire_cases remote bytes fits with ⟨-, granted⟩ | ⟨refuses, -⟩
  · rw [granted]
  · exact absurd (books.grants nobody fits) refuses

end Transfers

open Transfers in
/-- Whatever coordinators have reached, the counters are the sums over the live leases and within the limits, every lease can
be dropped, and the queue has each remote once. A granted lease passes nobody who has room, and without leases the
first waiting remote is granted one. -/
theorem transfer_admission_keeps_books_and_order {limits : RemoteConcurrency} {admission : Admission} {leases : List TransferLease}
    (reached : Reached limits ⟨admission, leases⟩) :
    (admission.total = held leases ∧ (held leases).jobs ≤ limits.global ∧ (held leases).bytes ≤ GLOBAL_BYTES) ∧
      (∀ remote, admission.remotes.get? remote = heldBy remote leases ∧ (held (leasesOf remote leases)).jobs ≤ limits.perRemote ∧
        (held (leasesOf remote leases)).bytes ≤ REMOTE_BYTES) ∧
      (∀ lease ∈ leases, ∃ next, admission.drop lease = some next) ∧
      (admission.waiting.map Prod.fst).Nodup ∧
      (∀ remote bytes fits lease, (admission.tryAcquire remote bytes fits).1 = some lease →
        ∀ waiter ∈ Admission.ahead remote admission.waiting, ¬LocalRoom limits leases waiter) ∧
      (leases = [] → ∀ remote cost, admission.waiting.head? = some (remote, cost) → ∀ bytes fits,
        (admission.tryAcquire remote bytes fits).1 = some ⟨remote, bytes, fits⟩) := by
  have books := reached.books
  refine ⟨⟨books.total, books.jobs, books.bytes⟩, fun remote => ⟨books.remotes remote, books.remoteJobs remote, books.remoteBytes remote⟩,
    fun lease live => ?_, books.once, fun remote bytes fits lease granted => books.first granted, ?_⟩
  · obtain ⟨next, dropped, -⟩ := books.exists_drop live
    exact ⟨next, dropped⟩
  · rintro rfl remote cost isFirst bytes fits
    exact books.idle isFirst fits

/-! ## A refused remote -/

namespace QueuedTransfer

def limits : RemoteConcurrency := ⟨1, 1, Nat.one_pos, Nat.one_pos⟩

def granted : Option TransferLease × Admission := (Admission.new limits).tryAcquire ⟨0⟩ 7 (by decide)

def refused : Option TransferLease × Admission := granted.2.tryAcquire ⟨1⟩ 5 (by decide)

theorem reached : Transfers.Reached limits ⟨refused.2, refused.1.toList ++ (granted.1.toList ++ [])⟩ :=
  .tryAcquire ⟨1⟩ 5 (by decide) (.tryAcquire ⟨0⟩ 7 (by decide) .new)

end QueuedTransfer

open QueuedTransfer in
/-- With one slot a second remote waits, and is counted nowhere. -/
theorem transfer_admission_keeps_books_and_order_queued :
    refused.1 = none ∧ refused.2.waiting = [(⟨1⟩, 5)] ∧ refused.2.total = ⟨1, 7⟩ :=
  ⟨by decide, by decide, (transfer_admission_keeps_books_and_order reached).1.1.trans (by decide)⟩

end Gat
