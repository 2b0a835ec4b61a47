import Gat.Model.Admission
import Mathlib

/-! # The books of the admission

The counters are those of the live leases, for the whole process and for each remote. A lease is granted exactly when
its remote has room, no remote ahead of it has, and the process has room.
-/

namespace Gat

/-! ## Usage of leases -/

namespace Usage

/-- The usage of leases. -/
def held (leases : List TransferLease) : Usage := ⟨leases.length, (leases.map TransferLease.bytes).sum⟩

/-- The leases of a remote. -/
def leasesOf (remote : RemoteId) (leases : List TransferLease) : List TransferLease := leases.filter fun lease => lease.remote = remote

/-- The counters of a remote, which exist while it has a lease. -/
def heldBy (remote : RemoteId) (leases : List TransferLease) : Option Usage :=
  if leasesOf remote leases = [] then none else some (held (leasesOf remote leases))

@[simp] theorem held_nil : held [] = zero := rfl

theorem held_cons (lease : TransferLease) (leases : List TransferLease) : held (lease :: leases) = (held leases).reserve lease.bytes := by
  rw [held, List.length_cons, List.map_cons, List.sum_cons, reserve, held, Nat.add_comm lease.bytes]

/-- Giving back a live lease leaves the usage of the others. -/
theorem release_held {lease : TransferLease} {leases : List TransferLease} (live : lease ∈ leases) :
    (held leases).release lease.bytes = some (held (leases.erase lease)) := by
  have jobs := List.length_erase_add_one live
  have bytes := List.sum_map_erase TransferLease.bytes live
  rw [release, held, held]
  dsimp only
  rw [if_pos (by omega)]
  refine congrArg some (Usage.ext ?_ ?_)
  · dsimp only
    omega
  · dsimp only
    omega

/-- Fewer leases use less. -/
theorem held_le_of_sublist {fewer leases : List TransferLease} (sublist : fewer.Sublist leases) :
    (held fewer).jobs ≤ (held leases).jobs ∧ (held fewer).bytes ≤ (held leases).bytes :=
  ⟨sublist.length_le, (sublist.map TransferLease.bytes).sum_le_sum fun _ _ => Nat.zero_le _⟩

theorem leasesOf_cons (remote : RemoteId) (lease : TransferLease) (leases : List TransferLease) :
    leasesOf remote (lease :: leases) = if lease.remote = remote then lease :: leasesOf remote leases else leasesOf remote leases := by
  simp only [leasesOf, List.filter_cons, decide_eq_true_eq]

theorem leasesOf_erase_self (lease : TransferLease) (leases : List TransferLease) :
    leasesOf lease.remote (leases.erase lease) = (leasesOf lease.remote leases).erase lease := List.erase_filter.symm

theorem leasesOf_erase_of_ne {remote : RemoteId} {lease : TransferLease} (other : lease.remote ≠ remote) (leases : List TransferLease) :
    leasesOf remote (leases.erase lease) = leasesOf remote leases := by
  rw [leasesOf, ← List.erase_filter, List.erase_of_not_mem fun member => other (by simpa using (List.mem_filter.mp member).2)]
  rfl

theorem mem_leasesOf {lease : TransferLease} {leases : List TransferLease} (live : lease ∈ leases) :
    lease ∈ leasesOf lease.remote leases := List.mem_filter.mpr ⟨live, decide_eq_true rfl⟩

theorem getD_heldBy (remote : RemoteId) (leases : List TransferLease) : (heldBy remote leases).getD zero = held (leasesOf remote leases) := by
  unfold heldBy
  split_ifs with idle
  · rw [idle]
    rfl
  · rfl

end Usage

/-! ## The queue -/

namespace Admission

/-- The waiters that are registered ahead of a remote. -/
def ahead (remote : RemoteId) (waiting : List (RemoteId × ℕ)) : List (RemoteId × ℕ) := waiting.takeWhile fun waiter => waiter.1 ≠ remote

theorem ahead_subset (remote : RemoteId) (waiting : List (RemoteId × ℕ)) : ahead remote waiting ⊆ waiting :=
  (List.takeWhile_sublist _).subset

theorem ne_of_mem_ahead {remote : RemoteId} {waiting : List (RemoteId × ℕ)} {waiter : RemoteId × ℕ} (member : waiter ∈ ahead remote waiting) :
    waiter.1 ≠ remote := of_decide_eq_true (List.all_eq_true.mp List.all_takeWhile waiter member)

/-- Registering puts the remote where it is, or last. -/
theorem register_eq (remote : RemoteId) (bytes : ℕ) (waiting : List (RemoteId × ℕ)) :
    ∃ behind, behind ⊆ waiting ∧ register remote bytes waiting = ahead remote waiting ++ (remote, bytes) :: behind := by
  induction waiting with
  | nil => exact ⟨[], List.Subset.refl _, rfl⟩
  | cons waiter rest ih =>
    rw [register, ahead, List.takeWhile_cons]
    by_cases same : waiter.1 = remote
    · exact ⟨rest, List.subset_cons_self .., by simp [same]⟩
    · obtain ⟨behind, within, registered⟩ := ih
      refine ⟨behind, List.subset_cons_of_subset _ within, ?_⟩
      rw [if_neg same, registered]
      simp [same, ahead]

theorem mem_register {remote : RemoteId} {bytes : ℕ} {waiting : List (RemoteId × ℕ)} {waiter : RemoteId × ℕ}
    (member : waiter ∈ register remote bytes waiting) : waiter = (remote, bytes) ∨ waiter ∈ waiting := by
  obtain ⟨behind, within, registered⟩ := register_eq remote bytes waiting
  rw [registered, List.mem_append, List.mem_cons] at member
  rcases member with before | same | after
  · exact .inr (ahead_subset _ _ before)
  · exact .inl same
  · exact .inr (within after)

theorem nodup_register {remote : RemoteId} {bytes : ℕ} {waiting : List (RemoteId × ℕ)} (once : (waiting.map Prod.fst).Nodup) :
    ((register remote bytes waiting).map Prod.fst).Nodup := by
  induction waiting with
  | nil => exact List.nodup_singleton _
  | cons waiter rest ih =>
    rw [List.map_cons, List.nodup_cons] at once
    rw [register]
    split_ifs with same
    · exact List.nodup_cons.mpr once
    · refine List.nodup_cons.mpr ⟨fun again => ?_, ih once.2⟩
      obtain ⟨other, member, equal⟩ := List.mem_map.mp again
      rcases mem_register member with rfl | old
      · exact same equal.symm
      · exact once.1 (equal ▸ List.mem_map_of_mem old)

/-- The first waiter with room is the registered one exactly when it has room and nobody ahead of it has. -/
theorem find?_register {remote : RemoteId} {bytes : ℕ} {waiting : List (RemoteId × ℕ)} {room : RemoteId × ℕ → Bool} :
    (register remote bytes waiting).find? room = some (remote, bytes) ↔
      room (remote, bytes) ∧ ∀ waiter ∈ ahead remote waiting, room waiter = false := by
  obtain ⟨behind, -, registered⟩ := register_eq remote bytes waiting
  rw [registered, List.find?_append]
  cases found : (ahead remote waiting).find? room with
  | some waiter =>
    have member := List.mem_of_find?_eq_some found
    refine iff_of_false (fun first => ?_) fun both => ?_
    · exact ne_of_mem_ahead member (congrArg Prod.fst (Option.some.inj first))
    · exact Bool.false_ne_true ((both.2 waiter member).symm.trans (List.find?_some found))
  | none =>
    have none : ∀ waiter ∈ ahead remote waiting, room waiter = false := by simpa using found
    rw [Option.none_or, List.find?_cons, and_iff_left none]
    cases own : room (remote, bytes) with
    | true => exact iff_of_true rfl rfl
    | false =>
      refine iff_of_false (fun later => ?_) Bool.false_ne_true
      exact Bool.false_ne_true (own.symm.trans (List.find?_some later))

/-! ## One attempt -/

/-- The admission grants the lease. -/
structure Grants (admission : Admission) (remote : RemoteId) (bytes : ℕ) : Prop where
  room : admission.hasLocalRoom (remote, bytes)
  first : ∀ waiter ∈ ahead remote admission.waiting, admission.hasLocalRoom waiter = false
  jobs : admission.total.jobs < admission.limits.global
  bytes : admission.total.bytes + bytes ≤ GLOBAL_BYTES

/-- An attempt grants the lease and takes the remote out of the queue, or leaves it in the queue with its new cost. -/
theorem tryAcquire_cases (admission : Admission) (remote : RemoteId) (bytes : ℕ) (fits : bytes ≤ REMOTE_BYTES) :
    (admission.Grants remote bytes ∧ admission.tryAcquire remote bytes fits = (some ⟨remote, bytes, fits⟩, { admission with
      waiting := (register remote bytes admission.waiting).filter fun waiter => waiter.1 ≠ remote
      total := admission.total.reserve bytes
      remotes := admission.remotes.insert remote (((admission.remotes.get? remote).getD .zero).reserve bytes) })) ∨
    (¬admission.Grants remote bytes ∧
      admission.tryAcquire remote bytes fits = (none, { admission with waiting := register remote bytes admission.waiting })) := by
  by_cases grants : admission.Grants remote bytes
  · refine .inl ⟨grants, if_neg fun refused => ?_⟩
    rcases refused with notFirst | noJob | noBytes
    · exact notFirst (find?_register.mpr ⟨grants.room, grants.first⟩)
    · exact absurd grants.jobs (not_lt.mpr noJob)
    · exact absurd grants.bytes (not_le.mpr noBytes)
  · refine .inr ⟨grants, if_pos ?_⟩
    by_contra accepted
    push Not at accepted
    obtain ⟨first, jobs, bytes⟩ := accepted
    obtain ⟨room, nobody⟩ := find?_register.mp first
    exact grants ⟨room, nobody, jobs, bytes⟩

end Admission

end Gat
