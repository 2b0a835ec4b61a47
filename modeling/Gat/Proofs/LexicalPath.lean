import Gat.Model.LockFormat
import Gat.Proofs.Text
import Gat.ToMathlib.Fallible

/-! # Path validation

Strict validation accepts exactly the canonical paths of the grammar, and neither validation nor the
normalization that explains its failures can panic.
-/

namespace Gat

open LockFormat

namespace Outcome

variable {ε α : Type}

theorem forM_cons (item : α) (items : List α) (check : α → Outcome ε Unit) :
    (item :: items).forM check = check item >>= fun _ => items.forM check := rfl

theorem forM_eq_ok_iff {items : List α} {check : α → Outcome ε Unit} :
    items.forM check = .ok () ↔ ∀ item ∈ items, check item = .ok () := Except.forM_eq_ok_iff

theorem forM_ne_panic {items : List α} {check : α → Outcome ε Unit}
    (safe : ∀ item ∈ items, check item ≠ panic) : items.forM check ≠ panic := by
  induction items with
  | nil => simp [List.forM]
  | cons item items ih =>
    rw [List.forall_mem_cons] at safe
    rw [forM_cons]
    cases result : check item with
    | error fault =>
      rw [error_bind]
      rw [result] at safe
      simpa [panic] using safe.1
    | ok value => simpa using ih safe.2

theorem foldlM_ne_panic {β : Type} {items : List α} {step : β → α → Outcome ε β}
    (safe : ∀ state item, step state item ≠ panic) (state : β) : items.foldlM step state ≠ panic := by
  induction items generalizing state with
  | nil => simp
  | cons item items ih =>
    rw [List.foldlM_cons]
    cases result : step state item with
    | error fault =>
      have first := safe state item
      rw [result] at first
      rw [error_bind]
      simpa [panic] using first
    | ok value => simpa using ih value

end Outcome

theorem validateComponent_ne_panic (raw component : Str) : validateComponent raw component ≠ Outcome.panic := by
  unfold validateComponent
  split_ifs <;> simp

theorem validateComponent_eq_ok_iff {raw component : Str} :
    validateComponent raw component = .ok () ↔
      component ≠ [] ∧ component ≠ ascii "." ∧ component ≠ ascii ".." ∧ Byte.backslash ∉ component := by
  unfold validateComponent
  split_ifs <;> simp_all

theorem validateCanonicalStr_ne_panic (raw : Str) : validateCanonicalStr raw ≠ Outcome.panic := by
  unfold validateCanonicalStr
  split_ifs
  · exact Outcome.fail_ne_panic _
  · exact Outcome.fail_ne_panic _
  · exact Outcome.forM_ne_panic fun component _ => validateComponent_ne_panic raw component

theorem validateCanonicalStr_eq_ok_iff {raw : Str} :
    validateCanonicalStr raw = .ok () ↔ IsCanonical raw := by
  unfold validateCanonicalStr IsCanonical
  split_ifs with empty rooted
  · simp [empty]
  · -- a rooted path has an empty first component
    refine iff_of_false (Outcome.fail_ne_ok _ _) ?_
    rintro ⟨-, components⟩
    cases raw with
    | nil => exact empty rfl
    | cons head rest =>
      obtain rfl : head = Byte.slash := by simpa using rooted
      have first : ([] : Str) ∈ (Byte.slash :: rest).splitOn Byte.slash := by
        rw [List.splitOn_cons_eq_if_modifyHead]
        simp
      exact (components [] first).1 rfl
  · simp only [Outcome.forM_eq_ok_iff, validateComponent_eq_ok_iff, ne_eq, empty, not_false_eq_true, true_and]

theorem normalize_ne_panic (raw : Str) : normalize raw ≠ Outcome.panic := by
  have lexical : normalizeLexical raw ≠ Outcome.panic := by
    unfold normalizeLexical
    split_ifs
    · exact Outcome.fail_ne_panic _
    · refine Outcome.foldlM_ne_panic (fun normalized component => ?_) _
      unfold pushComponent
      split_ifs <;> simp
  unfold normalize
  cases result : normalizeLexical raw with
  | error fault =>
    rw [result] at lexical
    rw [Outcome.error_bind]
    simpa [Outcome.panic] using lexical
  | ok pattern =>
    rw [Outcome.ok_bind]
    split_ifs <;> simp

/-- A row path passes exactly when it is canonical; otherwise the failure names it. -/
theorem validatePath_cases (path : Str) (line : ℕ) :
    validatePath path line = .ok () ∧ IsCanonical path ∨
      (∃ failure, validatePath path line = Outcome.fail failure) ∧ ¬IsCanonical path := by
  rw [← validateCanonicalStr_eq_ok_iff]
  unfold validatePath
  match strict : validateCanonicalStr path with
  | .ok () => exact Or.inl ⟨rfl, rfl⟩
  | .error .panic => exact absurd strict (validateCanonicalStr_ne_panic path)
  | .error (.error _) =>
    refine Or.inr ⟨?_, by simp⟩
    match lenient : normalize path with
    | .ok _ => exact ⟨_, rfl⟩
    | .error .panic => exact absurd lenient (normalize_ne_panic path)
    | .error (.error source) => exact ⟨_, rfl⟩

theorem GatPath.isCanonical (path : GatPath) : IsCanonical path.text :=
  validateCanonicalStr_eq_ok_iff.mp path.canonical

theorem GatPath.fromValidated_text {ε : Type} (path : GatPath) :
    (GatPath.fromValidated path.text : Outcome ε GatPath) = .ok path := by
  unfold GatPath.fromValidated
  rw [dif_pos ⟨path.utf8, path.canonical⟩]

theorem GatPath.fromValidated_eq_ok_iff {ε : Type} {raw : Str} {path : GatPath} :
    (GatPath.fromValidated raw : Outcome ε GatPath) = .ok path ↔ path.text = raw := by
  constructor
  · intro success
    unfold GatPath.fromValidated at success
    split_ifs at success with certified
    · cases success
      rfl
    · simp [Outcome.panic] at success
  · rintro rfl
    exact path.fromValidated_text

theorem GatPath.parseCanonical_eq_ok_iff {raw : Str} {path : GatPath} : GatPath.parseCanonical raw = .ok path ↔ path.text = raw := by
  unfold GatPath.parseCanonical
  rw [Outcome.bind_eq_ok_iff]
  constructor
  · rintro ⟨-, -, certified⟩
    exact GatPath.fromValidated_eq_ok_iff.mp certified
  · rintro rfl
    exact ⟨(), path.canonical, path.fromValidated_text⟩

end Gat
