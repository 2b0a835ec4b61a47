import Gat.Proofs.LockCodec

/-! # Validation decides well-formedness

The ordered scan accepts a strictly increasing separated list, and anything else makes it fail or ask for
the sorted order, in which it then decides.
-/

namespace Gat

open AncestorFree

/-- Distinct paths without an ancestor pair. -/
structure PathSet (paths : List Str) : Prop where
  unique : paths.Nodup
  separated : Separated Byte.slash paths

theorem PathSet.perm {paths others : List Str} (same : paths.Perm others) (set : PathSet paths) : PathSet others :=
  ⟨same.nodup_iff.mp set.unique, set.separated.subset same.symm.subset⟩

theorem Lock.wellFormed_iff {lock : Lock} : lock.WellFormed ↔ PathSet lock.paths := by
  have nodup_iff : (lock.entries.map Entry.path).Nodup ↔ lock.paths.Nodup := by
    rw [← List.nodup_map_iff (f := GatPath.text) (fun _ _ same => GatPath.ext same), List.map_map]
    rfl
  exact ⟨fun formed => ⟨nodup_iff.mp formed.unique, formed.separated⟩,
    fun set => ⟨nodup_iff.mpr set.unique, set.separated⟩⟩

/-- What the ordered scan says about a list. -/
inductive ScanResult (paths : List Str) : Outcome LockDomainError Bool → Prop
  | accepted (ordered : paths.Pairwise (· < ·)) (separated : Separated Byte.slash paths) :
    ScanResult paths (.ok true)
  | unordered (disorder : ¬paths.Pairwise (· ≤ ·)) : ScanResult paths (.ok false)
  | rejected (error : LockDomainError) (conflict : ¬PathSet paths) : ScanResult paths (Outcome.fail error)

private theorem validatePathsFrom_cases {earlier candidates : List Str} {previous : Str}
    (chain : PrefixStack earlier previous candidates) (ordered : (earlier ++ [previous]).Pairwise (· < ·))
    (separated : Separated Byte.slash (earlier ++ [previous])) (rest : List Str) :
    ScanResult (earlier ++ [previous] ++ rest) (validatePathsFrom previous candidates rest) := by
  induction rest generalizing earlier previous candidates with
  | nil =>
    rw [List.append_nil]
    exact ScanResult.accepted ordered separated
  | cons path rest ih =>
    have largest : ∀ name ∈ earlier, name < previous := fun name member =>
      (List.pairwise_append.mp ordered).2.2 name member previous List.mem_cons_self
    have previousListed : previous ∈ earlier ++ [previous] := by simp
    rw [validatePathsFrom]
    match order : Str.cmp previous path with
    | .eq =>
      refine ScanResult.rejected _ fun set => ?_
      obtain rfl := Str.cmp_eq_eq_iff.mp order
      exact (List.nodup_append.mp set.unique).2.2 previous previousListed previous List.mem_cons_self rfl
    | .gt =>
      refine ScanResult.unordered fun weak => ?_
      have below := (List.pairwise_append.mp weak).2.2 previous previousListed path List.mem_cons_self
      exact absurd (Str.cmp_eq_gt_iff.mp order) (not_lt.mpr below)
    | .lt =>
      have later := Str.cmp_eq_lt_iff.mp order
      have extended := chain.extend largest later
      have further : ∀ name ∈ earlier ++ [previous], name < path := by
        intro name member
        rcases List.mem_append.mp member with member | single
        · exact (largest name member).trans later
        · rw [List.mem_singleton.mp single]
          exact later
      have ordered' : (earlier ++ [previous] ++ [path]).Pairwise (· < ·) := by
        refine List.pairwise_append.mpr ⟨ordered, List.pairwise_singleton _ _, fun name member other single => ?_⟩
        rw [List.mem_singleton.mp single]
        exact further name member
      have ancestor_iff := extended.exists_ancestor_iff separated
      have accept (free : ∀ name ∈ earlier ++ [previous], ¬IsAncestor Byte.slash name path) (stack : List Str)
          (chain' : PrefixStack (earlier ++ [previous]) path stack) :
          ScanResult (earlier ++ [previous] ++ path :: rest) (validatePathsFrom path stack rest) := by
        have next := ih chain' ordered' ((separated_concat_iff further).mpr ⟨separated, free⟩)
        rwa [List.append_assoc (earlier ++ [previous]), List.singleton_append] at next
      dsimp only
      generalize (if previous.length < path.length ∧ previous <+: path then
        previous :: candidates.dropWhile (fun name => decide (path.length ≤ name.length) || !name.isPrefixOf path)
        else candidates.dropWhile (fun name => decide (path.length ≤ name.length) || !name.isPrefixOf path)) = stack
        at extended ancestor_iff
      cases stack with
      | nil =>
        refine accept (fun name member above => ?_) [] extended
        simpa using ancestor_iff.mp ⟨name, member, above⟩
      | cons top stack =>
        by_cases conflict : path[top.length]? = some Byte.slash
        · obtain ⟨name, member, above⟩ := ancestor_iff.mpr ⟨top, rfl, conflict⟩
          dsimp only
          rw [if_pos conflict]
          refine ScanResult.rejected _ fun set => ?_
          exact set.separated name (List.mem_append_left _ member) path (by simp) above
        · dsimp only
          rw [if_neg conflict]
          refine accept (fun name member above => ?_) (top :: stack) extended
          obtain ⟨head, same, letter⟩ := ancestor_iff.mp ⟨name, member, above⟩
          obtain rfl : top = head := by simpa using same
          exact conflict letter

/-- The ordered scan accepts exactly the ordered separated lists. -/
theorem validatePathsIfOrdered_cases (paths : List Str) : ScanResult paths (validatePathsIfOrdered paths) := by
  cases paths with
  | nil => exact ScanResult.accepted List.Pairwise.nil separated_nil
  | cons path rest =>
    refine validatePathsFrom_cases (PrefixStack.nil path) (List.pairwise_singleton _ _) ?_ rest
    rw [separated_concat_iff (by simp)]
    exact ⟨separated_nil, by simp⟩

/-- Validation accepts exactly the well-formed locks and never panics. -/
theorem Lock.validate_cases (lock : Lock) :
    (lock.validate = .ok () ∧ lock.WellFormed) ∨ (∃ error, lock.validate = Outcome.fail error) ∧ ¬lock.WellFormed := by
  have sortedPaths : ((Lock.sortedEntries lock.entries).map fun entry => entry.path.text).Perm lock.paths :=
    (sortedEntries_perm lock.entries).map _
  unfold Lock.validate
  rw [Lock.wellFormed_iff]
  have first := validatePathsIfOrdered_cases lock.paths
  generalize validatePathsIfOrdered lock.paths = scanned at first
  cases first with
  | accepted ordered separated => exact Or.inl ⟨rfl, ordered.imp ne_of_lt, separated⟩
  | rejected error conflict => exact Or.inr ⟨⟨error, rfl⟩, conflict⟩
  | unordered disorder =>
    have second := validatePathsIfOrdered_cases ((Lock.sortedEntries lock.entries).map fun entry => entry.path.text)
    rw [Outcome.ok_bind, if_neg Bool.false_ne_true]
    generalize validatePathsIfOrdered ((Lock.sortedEntries lock.entries).map fun entry => entry.path.text) = rescanned
      at second
    cases second with
    | accepted ordered separated => exact Or.inl ⟨rfl, PathSet.perm sortedPaths ⟨ordered.imp ne_of_lt, separated⟩⟩
    | rejected error conflict => exact Or.inr ⟨⟨error, rfl⟩, fun set => conflict (set.perm sortedPaths.symm)⟩
    | unordered disorder =>
      refine absurd (List.pairwise_map.mpr ?_) disorder
      exact (sortedEntries_pairwise_le lock.entries).imp GatPath.le_iff.mp

theorem Lock.validate_eq_ok_iff {lock : Lock} : lock.validate = .ok () ↔ lock.WellFormed := by
  rcases lock.validate_cases with ⟨accepted, formed⟩ | ⟨⟨error, rejected⟩, malformed⟩
  · exact iff_of_true accepted formed
  · exact iff_of_false (by rw [rejected]; exact Outcome.fail_ne_ok _ _) malformed

end Gat
