import Gat.Proofs.LockValidate

/-! # Validation of resident locks

The order of the entries decides only which conflict is reported. Every reported conflict is one of the entries,
and whether there is one depends on their paths as a multiset.
-/

namespace Gat

open AncestorFree

/-- What a validation failure says about the paths. -/
inductive NamesConflict (paths : List Str) : LockDomainError → Prop
  | duplicate (path : Str) (twice : 2 ≤ paths.count path) : NamesConflict paths (.duplicatePath path none)
  | ancestor (above path : Str) (isAbove : above ∈ paths) (isPath : path ∈ paths) (continues : IsAncestor Byte.slash above path) :
    NamesConflict paths (.directoryPrefixConflict above path)

theorem NamesConflict.perm {paths others : List Str} {error : LockDomainError} (conflict : NamesConflict paths error)
    (same : paths.Perm others) : NamesConflict others error := by
  cases conflict with
  | duplicate path twice => exact .duplicate path (same.count_eq path ▸ twice)
  | ancestor above path isAbove isPath continues => exact .ancestor above path (same.mem_iff.mp isAbove) (same.mem_iff.mp isPath) continues

/-- The scan compares a path with its predecessor and with an earlier path that begins it. -/
theorem validatePathsFrom_namesConflict {earlier candidates rest : List Str} {previous : Str} {error : LockDomainError}
    (listed : candidates ⊆ earlier ++ [previous]) (failed : validatePathsFrom previous candidates rest = Outcome.fail error) :
    NamesConflict (earlier ++ [previous] ++ rest) error := by
  induction rest generalizing earlier previous candidates with
  | nil => cases failed
  | cons path rest ih =>
    have whole : earlier ++ [previous] ++ path :: rest = earlier ++ [previous] ++ [path] ++ rest := by simp
    rw [validatePathsFrom] at failed
    cases order : Str.cmp previous path with
    | eq =>
      obtain rfl := Str.cmp_eq_eq_iff.mp order
      rw [order] at failed
      cases failed
      refine .duplicate previous ?_
      rw [whole, List.count_append, List.count_append, List.count_append, List.count_singleton_self]
      omega
    | gt =>
      rw [order] at failed
      cases failed
    | lt =>
      rw [order] at failed
      dsimp only at failed
      have popped : candidates.dropWhile (fun name => decide (path.length ≤ name.length) || !name.isPrefixOf path) ⊆ earlier ++ [previous] :=
        fun name member => listed ((List.dropWhile_suffix _).subset member)
      have begins : ∀ name, (candidates.dropWhile fun name => decide (path.length ≤ name.length) || !name.isPrefixOf path).head? = some name →
          name <+: path := by
        intro name isHead
        have stays := List.head?_dropWhile_not (fun name => decide (path.length ≤ name.length) || !name.isPrefixOf path) candidates
        rw [isHead] at stays
        simp only [Bool.or_eq_false_iff] at stays
        simpa using stays.2
      generalize candidates.dropWhile (fun name => decide (path.length ≤ name.length) || !name.isPrefixOf path) = kept at failed popped begins
      obtain ⟨stack, isStack⟩ : ∃ stack, stack = if previous.length < path.length ∧ previous <+: path then previous :: kept else kept := ⟨_, rfl⟩
      rw [← isStack] at failed
      have stacked : stack ⊆ earlier ++ [previous] := by
        rw [isStack]
        split_ifs
        · exact List.cons_subset.mpr ⟨by simp, popped⟩
        · exact popped
      have topBegins : ∀ name, stack.head? = some name → name <+: path := by
        rw [isStack]
        split_ifs with extends_
        · rintro name ⟨⟩
          exact extends_.2
        · exact begins
      have further : stack ⊆ earlier ++ [previous] ++ [path] := fun name member => List.mem_append_left _ (stacked member)
      cases stack with
      | nil =>
        rw [whole]
        exact ih further failed
      | cons top stack =>
        dsimp only at failed
        split_ifs at failed with letter
        · cases failed
          refine .ancestor top path ?_ (by simp) (isAncestor_iff.mpr ⟨topBegins top rfl, letter⟩)
          exact List.mem_append_left _ (stacked List.mem_cons_self)
        · rw [whole]
          exact ih further failed

theorem validatePathsIfOrdered_namesConflict {paths : List Str} {error : LockDomainError}
    (failed : validatePathsIfOrdered paths = Outcome.fail error) : NamesConflict paths error := by
  cases paths with
  | nil => cases failed
  | cons path rest =>
    have nothing : ([] : List Str) ⊆ [] ++ [path] := List.nil_subset _
    exact validatePathsFrom_namesConflict nothing failed

namespace Lock

/-- Every failure names a conflict of the entries. -/
theorem validate_namesConflict {lock : Lock} {error : LockDomainError} (failed : lock.validate = Outcome.fail error) :
    NamesConflict lock.paths error := by
  have sortedPaths : ((sortedEntries lock.entries).map fun entry => entry.path.text).Perm lock.paths := (sortedEntries_perm lock.entries).map _
  unfold validate at failed
  cases scanned : validatePathsIfOrdered lock.paths with
  | error fault =>
    rw [scanned, Outcome.error_bind] at failed
    cases failed
    exact validatePathsIfOrdered_namesConflict scanned
  | ok ordered =>
    rw [scanned, Outcome.ok_bind] at failed
    cases ordered with
    | true => cases failed
    | false =>
      rw [if_neg Bool.false_ne_true] at failed
      cases rescanned : validatePathsIfOrdered ((sortedEntries lock.entries).map fun entry => entry.path.text) with
      | error fault =>
        rw [rescanned, Outcome.error_bind] at failed
        cases failed
        exact (validatePathsIfOrdered_namesConflict rescanned).perm sortedPaths
      | ok _ =>
        rw [rescanned, Outcome.ok_bind] at failed
        cases failed

theorem WellFormed.perm {first second : Lock} (formed : first.WellFormed) (same : first.entries.Perm second.entries) : second.WellFormed :=
  wellFormed_iff.mpr ((wellFormed_iff.mp formed).perm (same.map _))

end Lock

/-- A validation of a set of paths decides whether it is separated, and a failure names an ancestor and its descendant. -/
theorem validateNoPathDirectoryConflicts_cases (paths : Finset Str) :
    validateNoPathDirectoryConflicts paths = .ok () ∧ Separated Byte.slash paths.sort ∨
      (∃ above ∈ paths, ∃ path ∈ paths, IsAncestor Byte.slash above path ∧
        validateNoPathDirectoryConflicts paths = Outcome.fail (.directoryPrefixConflict above path)) := by
  have ascending : paths.sort.Pairwise (· < ·) := paths.sortedLT_sort.pairwise
  have cases := validatePathsIfOrdered_cases paths.sort
  unfold validateNoPathDirectoryConflicts
  generalize scanned : validatePathsIfOrdered paths.sort = result at cases
  cases cases with
  | accepted ordered separated => exact Or.inl ⟨rfl, separated⟩
  | unordered disorder => exact absurd (ascending.imp le_of_lt) disorder
  | rejected error conflict =>
    refine Or.inr ?_
    cases validatePathsIfOrdered_namesConflict scanned with
    | duplicate path twice =>
      have once := List.nodup_iff_count_le_one.mp (ascending.imp ne_of_lt) path
      omega
    | ancestor above path isAbove isPath continues => exact ⟨above, (Finset.mem_sort _).mp isAbove, path, (Finset.mem_sort _).mp isPath, continues, rfl⟩

/-- For every list of entries in any order, validation succeeds exactly when no path occurs twice and no path is an ancestor of
another one. Otherwise it fails without a panic and names a path that occurs twice or an ancestor with its descendant. The order of
the entries does not matter. -/
theorem lock_validate_decides (lock : Lock) :
    (lock.validate = .ok () ↔
        (lock.entries.map Entry.path).Nodup ∧ ∀ first ∈ lock.entries, ∀ second ∈ lock.entries, ¬IsAncestor Byte.slash first.path.text second.path.text) ∧
      (lock.validate ≠ .ok () → ∃ error, lock.validate = Outcome.fail error ∧ NamesConflict lock.paths error) ∧
      ∀ other : Lock, lock.entries.Perm other.entries → (lock.validate = .ok () ↔ other.validate = .ok ()) := by
  refine ⟨?_, fun rejected => ?_, fun other same => ?_⟩
  · rw [Lock.validate_eq_ok_iff]
    constructor
    · intro formed
      refine ⟨formed.unique, fun first isFirst second isSecond => ?_⟩
      exact formed.separated _ (List.mem_map_of_mem isFirst) _ (List.mem_map_of_mem isSecond)
    · rintro ⟨unique, apart⟩
      refine ⟨unique, fun above isAbove path isPath => ?_⟩
      obtain ⟨first, isFirst, rfl⟩ := List.mem_map.mp isAbove
      obtain ⟨second, isSecond, rfl⟩ := List.mem_map.mp isPath
      exact apart first isFirst second isSecond
  · rcases lock.validate_cases with ⟨accepted, -⟩ | ⟨⟨error, failed⟩, -⟩
    · exact absurd accepted rejected
    · exact ⟨error, failed, Lock.validate_namesConflict failed⟩
  · rw [Lock.validate_eq_ok_iff, Lock.validate_eq_ok_iff]
    exact ⟨fun formed => formed.perm same, fun formed => formed.perm same.symm⟩

end Gat
