import Gat.Model.CacheVerification
import Mathlib.Data.List.Perm.Basic
import Mathlib.Data.List.Nodup

/-! # What a verification observes

A proof of the index never changes a verdict, and the index keeps proofs of the right bytes however its changes are grouped
and wherever they stop.
-/

namespace Gat

variable {β : Type} {hash : β → Oid} {contents : Oid → StatProof → β} {oid : Oid}

/-- The status that hashing the file gives, without any proof. -/
def plainHashing (hash : β → Oid) (file : CacheFile β) (oid : Oid) : Option ObjectVerification :=
  match file with
  | .absent => some .missing
  | .special => some .corrupt
  | .unreadable => none
  | .regular none _ => none
  | .regular (some _) bytes => some (if hash bytes = oid then .valid else .corrupt)

open CacheRun

/-- A verification reports what hashing would, and a proof of what it has hashed. -/
theorem verifyObjectPathFs_spec {file : CacheFile β} {prior : Option StatProof} {outcome : CacheObservation × Option CachePublication}
    (stable : Stable contents oid file) (proves : Proves hash contents oid prior) (verified : verifyObjectPathFs hash file oid prior = some outcome) :
    plainHashing hash file oid = some outcome.1.status ∧
      ∀ delta ∈ outcome.2, delta.oid = oid ∧ Proves hash contents oid delta.proof := by
  unfold verifyObjectPathFs at verified
  split at verified
  case h_1 =>
    cases verified
    exact ⟨rfl, nofun⟩
  case h_2 => cases verified
  case h_3 =>
    cases verified
    refine ⟨rfl, fun delta same => ?_⟩
    cases same
    exact ⟨rfl, nofun⟩
  case h_4 stat bytes =>
    cases stat with
    | none => split_ifs at verified <;> cases verified
    | some current =>
      have same : bytes = contents oid current := stable current bytes rfl
      split_ifs at verified with matching hashed
      · cases verified
        have valid : hash bytes = oid := same ▸ proves current matching.2.symm
        exact ⟨congrArg some (if_pos valid), nofun⟩
      · cases verified
        refine ⟨congrArg some (if_pos hashed), fun delta same' => ?_⟩
        cases same'
        refine ⟨rfl, fun stat equal => ?_⟩
        cases equal
        exact same ▸ hashed
      · cases verified
        refine ⟨congrArg some (if_neg hashed), fun delta same' => ?_⟩
        cases same'
        exact ⟨rfl, nofun⟩

/-- With right proofs the observation does not depend on them. -/
theorem verifyObjectPathFs_unique {file : CacheFile β} {left right : Option StatProof} {first second : CacheObservation × Option CachePublication}
    (stable : Stable contents oid file) (leftProves : Proves hash contents oid left) (rightProves : Proves hash contents oid right)
    (leftVerified : verifyObjectPathFs hash file oid left = some first) (rightVerified : verifyObjectPathFs hash file oid right = some second) :
    first.1 = second.1 := by
  have statuses := (verifyObjectPathFs_spec stable leftProves leftVerified).1.symm.trans (verifyObjectPathFs_spec stable rightProves rightVerified).1
  unfold verifyObjectPathFs at leftVerified rightVerified
  cases file with
  | absent =>
    cases leftVerified
    cases rightVerified
    rfl
  | unreadable => cases leftVerified
  | special =>
    cases leftVerified
    cases rightVerified
    rfl
  | regular stat bytes =>
    cases stat with
    | none =>
      dsimp only at leftVerified
      split_ifs at leftVerified <;> cases leftVerified
    | some current =>
      dsimp only at leftVerified rightVerified
      split_ifs at leftVerified rightVerified <;> cases leftVerified <;> cases rightVerified <;> first | rfl | cases statuses

/-! ## The proof index -/

theorem mem_of_mem_coalesce {delta : CachePublication} {deltas : List CachePublication} (member : delta ∈ coalesce deltas) : delta ∈ deltas := by
  induction deltas with
  | nil => exact member
  | cons first rest ih =>
    rw [coalesce] at member
    split_ifs at member
    · exact List.mem_cons_of_mem _ (ih member)
    · rcases List.mem_cons.mp member with rfl | later
      · exact List.mem_cons_self
      · exact List.mem_cons_of_mem _ (ih later)

/-- A proof index whose rows prove their objects. -/
def ProvesAll (hash : β → Oid) (contents : Oid → StatProof → β) (index : ProofIndex) : Prop := ∀ oid, Proves hash contents oid (index oid)

theorem ProvesAll.foldl {index : ProofIndex} (kept : ProvesAll hash contents index) {deltas : List CachePublication}
    (proves : ∀ delta ∈ deltas, Proves hash contents delta.oid delta.proof) : ProvesAll hash contents (deltas.foldl applyPublication index) := by
  induction deltas generalizing index with
  | nil => exact kept
  | cons delta deltas ih =>
    refine ih (fun oid => ?_) fun other member => proves other (List.mem_cons_of_mem _ member)
    unfold applyPublication
    by_cases same : oid = delta.oid
    · subst same
      rw [Function.update_self]
      exact proves delta List.mem_cons_self
    · rw [Function.update_of_ne same]
      exact kept oid

/-- Publications of the right bytes keep an index right, wherever their transactions stop. -/
theorem ProvesAll.applyMany {index next : ProofIndex} (kept : ProvesAll hash contents index) {deltas : List CachePublication}
    (proves : ∀ delta ∈ deltas, Proves hash contents delta.oid delta.proof) (applied : ApplyMany index deltas next) :
    ProvesAll hash contents next := by
  obtain ⟨order, count, perm, rfl⟩ := applied
  have proves : ∀ delta ∈ order, Proves hash contents delta.oid delta.proof := fun delta member =>
    proves delta (mem_of_mem_coalesce (perm.mem_iff.mp member))
  clear perm
  induction count generalizing index order with
  | zero => exact kept
  | succ count ih =>
    have group (delta : CachePublication) (member : delta ∈ order.take TRANSACTION_CHUNK) := proves delta (List.mem_of_mem_take member)
    refine ih ?_ _ fun delta member => proves delta (List.mem_of_mem_drop member)
    exact (kept.foldl fun delta member => group delta (List.mem_filter.mp member).1).foldl fun delta member =>
      group delta (List.mem_filter.mp member).1

end Gat
