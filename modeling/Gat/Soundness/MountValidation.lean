import Gat.Proofs.Config
import Gat.ToMathlib.Fallible

/-! # Mount targets are validated pairwise

The ordered scan and the check of one more target decide the same question: whether two differently named mounts
own a common path.
-/

namespace Gat

/-- One of the targets owns the other one. -/
def Overlap (first second : GatPath) : Prop := GatPath.Under first second ∨ GatPath.Under second first

theorem Overlap.symm {first second : GatPath} (overlap : Overlap first second) : Overlap second first := Or.symm overlap

namespace MountsConfig

variable {mounts : MountsConfig}

/-- Differently named mounts have targets that do not overlap. -/
def Apart (mounts : MountsConfig) : Prop :=
  ∀ first ∈ mounts.byName.entries, ∀ second ∈ mounts.byName.entries, first.1 ≠ second.1 → ¬Overlap first.2.target second.2.target

/-- A rejected scan names a mount and an earlier one that owns its target. -/
theorem exists_of_scanTargets_error {earlier candidates rest : List (MountName × MountConfig)} {error : ConfigError}
    (listed : candidates ⊆ earlier) (rejected : scanTargets rest candidates = .error error) :
    ∃ second mount, [second, mount].Sublist (earlier ++ rest) ∧ GatPath.Under second.2.target mount.2.target ∧
      error = .mountTargetOverlap (some mount.1) mount.2.target.text second.1 second.2.target.text := by
  induction rest generalizing earlier candidates with
  | nil => cases rejected
  | cons mount rest ih =>
    have kept : beginning candidates mount ⊆ earlier := fun prior member => listed ((List.dropWhile_suffix _).subset member)
    have further : mount :: beginning candidates mount ⊆ earlier ++ [mount] :=
      List.cons_subset.mpr ⟨by simp, fun prior member => List.mem_append_left _ (kept member)⟩
    have later (rejected : scanTargets rest (mount :: beginning candidates mount) = .error error) := ih further rejected
    rw [List.append_assoc, List.singleton_append] at later
    rw [scanTargets] at rejected
    cases top : (beginning candidates mount).head? with
    | none =>
      simp only [top] at rejected
      exact later rejected
    | some other =>
      simp only [top] at rejected
      split_ifs at rejected with owns
      · cases rejected
        have inside : other ∈ earlier := kept (List.mem_of_mem_head? top)
        refine ⟨other, mount, ?_, GatPath.isOrUnder_iff.mp owns, rfl⟩
        exact (List.singleton_sublist.mpr inside).append (List.singleton_sublist.mpr List.mem_cons_self)
      · exact later rejected

/-- A rejected configuration has two mounts with overlapping targets, and the failure names them. -/
theorem exists_of_validateEffective_error {error : ConfigError} (rejected : mounts.validateEffective = .error error) :
    ∃ mount ∈ mounts.byName.entries, ∃ other ∈ mounts.byName.entries, mount.1 ≠ other.1 ∧ Overlap mount.2.target other.2.target ∧
      error = .mountTargetOverlap (some mount.1) mount.2.target.text other.1 other.2.target.text := by
  obtain ⟨other, mount, inOrder, owns, same⟩ := exists_of_scanTargets_error (List.Subset.refl []) rejected
  rw [List.nil_append] at inOrder
  have order : mounts.orderedTargets.Perm mounts.byName.entries := List.mergeSort_perm _ _
  have names : (mounts.orderedTargets.map Prod.fst).Nodup :=
    (order.map Prod.fst).nodup_iff.mpr (List.pairwise_map.mpr (mounts.byName.sorted.imp ne_of_lt))
  have distinct := (inOrder.map Prod.fst).nodup names
  rw [List.map_cons, List.map_singleton, List.nodup_cons, List.mem_singleton] at distinct
  refine ⟨mount, order.mem_iff.mp (inOrder.subset (by simp)), other, order.mem_iff.mp (inOrder.subset (by simp)), ?_, Or.inr owns, same⟩
  exact fun equal => distinct.1 equal.symm

theorem validateEffective_eq_ok_iff : mounts.validateEffective = .ok () ↔ mounts.Apart := by
  constructor
  · intro accepted first isFirst second isSecond named overlap
    rcases overlap with owns | owned
    · exact named (congrArg Prod.fst (apart_of_validateEffective accepted isFirst isSecond owns))
    · exact named (congrArg Prod.fst (apart_of_validateEffective accepted isSecond isFirst owned)).symm
  · intro apart
    cases validated : mounts.validateEffective with
    | ok _ => rfl
    | error error =>
      obtain ⟨mount, isMount, other, isOther, named, overlap, -⟩ := exists_of_validateEffective_error validated
      exact absurd overlap (apart mount isMount other isOther named)

/-! ## One more target -/

theorem checkTarget_eq_ok_iff {target : GatPath} {excludeName : Option MountName} :
    mounts.checkTarget target excludeName = .ok () ↔
      ∀ other ∈ mounts.byName.entries, some other.1 ≠ excludeName → ¬Overlap target other.2.target := by
  unfold checkTarget
  rw [Except.forM_eq_ok_iff]
  refine forall₂_congr fun other _ => ?_
  unfold Overlap
  simp only [GatPath.isOrUnder_iff]
  split_ifs with excluded overlap
  · exact iff_of_true rfl (fun other => absurd excluded other)
  · exact iff_of_false nofun fun free => free excluded overlap.symm
  · exact iff_of_true rfl fun _ => overlap ∘ Or.symm

theorem exists_of_checkTarget_error {target : GatPath} {excludeName : Option MountName} {error : ConfigError}
    (rejected : mounts.checkTarget target excludeName = .error error) :
    ∃ other ∈ mounts.byName.entries, some other.1 ≠ excludeName ∧ Overlap target other.2.target ∧
      error = .mountTargetOverlap excludeName target.text other.1 other.2.target.text := by
  obtain ⟨other, isOther, failed⟩ := Except.exists_of_forM_error rejected
  simp only [GatPath.isOrUnder_iff] at failed
  split_ifs at failed with excluded overlap
  cases failed
  exact ⟨other, isOther, excluded, overlap.symm, rfl⟩

/-- Add a mount, or move the one of this name. -/
def withTarget (mounts : MountsConfig) (name : MountName) (target : GatPath) : MountsConfig := ⟨mounts.byName.insert name ⟨target⟩⟩

theorem mem_withTarget {name : MountName} {target : GatPath} {entry : MountName × MountConfig} :
    entry ∈ (mounts.withTarget name target).byName.entries ↔
      entry = (name, ⟨target⟩) ∨ entry.1 ≠ name ∧ entry ∈ mounts.byName.entries := by
  obtain ⟨other, mount⟩ := entry
  rw [← SortedMap.get?_eq_some_iff, ← SortedMap.get?_eq_some_iff, withTarget, SortedMap.get?_insert]
  by_cases same : name = other
  · subst same
    simp [eq_comm]
  · rw [if_neg same]
    simp [Ne.symm same]

/-- A target fits beside valid mounts exactly when the check of it against the others passes. -/
theorem apart_withTarget_iff (apart : mounts.Apart) {name : MountName} {target : GatPath} :
    (mounts.withTarget name target).Apart ↔ mounts.checkTarget target (some name) = .ok () := by
  rw [checkTarget_eq_ok_iff]
  constructor
  · intro fits other isOther named overlap
    rw [ne_eq, Option.some.injEq] at named
    exact fits (name, ⟨target⟩) (mem_withTarget.mpr (Or.inl rfl)) other (mem_withTarget.mpr (Or.inr ⟨named, isOther⟩)) (Ne.symm named) overlap
  · intro passes first isFirst second isSecond named overlap
    rcases mem_withTarget.mp isFirst with rfl | ⟨firstNamed, isFirst⟩
    · rcases mem_withTarget.mp isSecond with rfl | ⟨secondNamed, isSecond⟩
      · exact named rfl
      · exact passes second isSecond (by simpa using secondNamed) overlap
    · rcases mem_withTarget.mp isSecond with rfl | ⟨secondNamed, isSecond⟩
      · exact passes first isFirst (by simpa using firstNamed) overlap.symm
      · exact apart first isFirst second isSecond named overlap

/-- A new name is excluded by not being there. -/
theorem checkTarget_none_iff {name : MountName} (fresh : mounts.byName.get? name = none) {target : GatPath} :
    mounts.checkTarget target none = .ok () ↔ mounts.checkTarget target (some name) = .ok () := by
  rw [checkTarget_eq_ok_iff, checkTarget_eq_ok_iff]
  refine forall₂_congr fun other isOther => ?_
  have named : other.1 ≠ name := SortedMap.get?_eq_none_iff.mp fresh other isOther
  simp [named]

end MountsConfig

/-- Validation of the effective mounts succeeds exactly when no two differently named mounts have overlapping targets. It agrees with the
check of a target that is added under a new name or moved under its own, and every rejection names two mounts that overlap. -/
theorem mount_validation_decides (mounts : MountsConfig) :
    (mounts.validateEffective = .ok () ↔ mounts.Apart) ∧
      (mounts.validateEffective = .ok () → ∀ name target,
        ((mounts.withTarget name target).validateEffective = .ok () ↔ mounts.checkTarget target (some name) = .ok ()) ∧
        (mounts.byName.get? name = none →
          ((mounts.withTarget name target).validateEffective = .ok () ↔ mounts.checkTarget target none = .ok ()))) ∧
      (∀ error, mounts.validateEffective = .error error →
        ∃ mount ∈ mounts.byName.entries, ∃ other ∈ mounts.byName.entries, mount.1 ≠ other.1 ∧ Overlap mount.2.target other.2.target ∧
          error = .mountTargetOverlap (some mount.1) mount.2.target.text other.1 other.2.target.text) ∧
      ∀ target excludeName error, mounts.checkTarget target excludeName = .error error →
        ∃ other ∈ mounts.byName.entries, some other.1 ≠ excludeName ∧ Overlap target other.2.target ∧
          error = .mountTargetOverlap excludeName target.text other.1 other.2.target.text := by
  refine ⟨MountsConfig.validateEffective_eq_ok_iff, fun accepted name target => ?_,
    fun error => MountsConfig.exists_of_validateEffective_error, fun target excludeName error => MountsConfig.exists_of_checkTarget_error⟩
  have apart := MountsConfig.validateEffective_eq_ok_iff.mp accepted
  have fits_iff : (mounts.withTarget name target).validateEffective = .ok () ↔ mounts.checkTarget target (some name) = .ok () :=
    MountsConfig.validateEffective_eq_ok_iff.trans (MountsConfig.apart_withTarget_iff apart)
  exact ⟨fits_iff, fun fresh => fits_iff.trans (MountsConfig.checkTarget_none_iff fresh).symm⟩

end Gat
