import Gat.Soundness.Publish
import Mathlib.Order.Bounds.Basic

/-! # The error of a publication

A run that leaves no earlier obligation behind returns the first failure, whatever completes when. Two steps leave one behind:
an obligation that waits for a verification nobody runs any more, and an idle coordinator whose first waiter has been pruned.
-/

namespace Gat

/-- The own work of an obligation fails in one way. -/
theorem PublishWindow.Fails.unique {ε : Type} {window : PublishWindow ε} {index : Fin window.count} {left right : PublishError ε}
    (first : window.Fails index left) (second : window.Fails index right) : left = right := by
  cases first with
  | presence failed =>
    cases second with
    | presence again => exact congrArg _ (Except.error.inj (failed.symm.trans again))
    | verification missing => cases failed.symm.trans missing
    | upload uploads => cases failed.symm.trans uploads.1
  | verification missing failed =>
    cases second with
    | presence again => cases missing.symm.trans again
    | verification _ again => exact congrArg _ (Except.error.inj (failed.symm.trans again))
    | upload uploads => cases failed.symm.trans uploads.2
  | upload uploads failed =>
    cases second with
    | presence again => cases uploads.1.symm.trans again
    | verification _ again => cases uploads.2.symm.trans again
    | upload _ again => exact congrArg _ (Except.error.inj (failed.symm.trans again))

namespace PublishRun

variable {ε : Type} {window : PublishWindow ε} {run : PublishRun window} {current : Fin window.count × PublishError ε}

theorem error_of_result (failed : run.result = some (.error current)) : run.state.error = some current := by
  unfold result at failed
  cases erred : run.state.error with
  | none =>
    rw [erred] at failed
    obtain ⟨statuses, -, same⟩ := Option.map_eq_some_iff.mp failed
    cases same
  | some other =>
    rw [erred] at failed
    cases failed
    rfl

/-- The error of a run is the failure of its first failing obligation. -/
theorem Coherent.isLeast (coherent : Coherent run) (returned : run.phase = .returned) (failed : run.state.error = some current) :
    IsLeast {index | ∃ error, window.Fails index error} current.1 := by
  refine ⟨⟨current.2, coherent.accounts.facts.failed current failed⟩, fun index fails => ?_⟩
  obtain ⟨error, fails⟩ := fails
  by_contra before
  have below : run.state.Below index := by
    intro other same
    cases failed.symm.trans same
    exact not_le.mp before
  obtain ⟨status, -, terminal⟩ := coherent.resolved returned below
  exact terminal.not_fails fails

/-- Runs that leave nothing behind return the same error. -/
theorem Coherent.same_error {other : PublishRun window} (coherent : Coherent run) (returned : run.phase = .returned)
    (failed : run.state.error = some current) (kept : Coherent other) (ended : other.phase = .returned) : other.state.error = some current := by
  have fails := coherent.accounts.facts.failed current failed
  cases erred : other.state.error with
  | none =>
    obtain ⟨status, -, terminal⟩ := kept.resolved ended fun frontier found => nomatch erred.symm.trans found
    exact absurd fails terminal.not_fails
  | some found =>
    have index := (kept.isLeast ended erred).unique (coherent.isLeast returned failed)
    have again := kept.accounts.facts.failed found erred
    rw [index] at again
    rw [Prod.ext index (again.unique fails)]

end PublishRun

open PublishRun in
/-- A run that leaves nothing behind and returns an error has brought every earlier obligation to its terminal status. The error
is the failure of the first failing obligation, and every other such run returns it. -/
theorem publication_reports_first_error {ε : Type} {window : PublishWindow ε} {run : PublishRun window} (reached : Reached window Meets run)
    (returned : run.phase = .returned) {current : Fin window.count × PublishError ε} (failed : run.result = some (.error current)) :
    (∀ index < current.1, ∃ status, run.state.statuses index = some status ∧ window.Terminal index status) ∧
      window.Fails current.1 current.2 ∧ IsLeast {index | ∃ error, window.Fails index error} current.1 ∧
      ∀ other : PublishRun window, Reached window Meets other → other.phase = .returned → other.result = some (.error current) := by
  have coherent := reached.coherent
  have error := error_of_result failed
  refine ⟨fun index before => ?_, coherent.accounts.facts.failed current error, coherent.isLeast returned error, fun other kept ended => ?_⟩
  · refine coherent.resolved returned fun frontier found => ?_
    cases error.symm.trans found
    exact before
  · rw [result, coherent.same_error returned error kept.coherent ended]

/-! ## A shared object that cannot be verified -/

namespace PublishRun

/-- A check that a step leaves no earlier obligation behind. -/
def leavesNone (run : PublishRun window) : Event (Fin window.count) → Bool
  | .presence index =>
    match run.state.verification.get? (window.oidOf index) with
    | some (.running _) => window.oidOf index ∈ run.batch ++ run.state.pendingVerification
    | _ => true
  | .visit _ => !run.inFlight.isEmpty || run.admission.waiting.head?.all fun first => !(queueOf run.state.readyUploads first.1).isEmpty
  | _ => true

theorem meets_of_leavesNone (run : PublishRun window) (event : Event (Fin window.count)) (leaves : run.leavesNone event) : run.Meets event := by
  cases event with
  | presence index =>
    intro _ _ waiting found
    unfold leavesNone at leaves
    dsimp only at leaves
    rw [found] at leaves
    exact of_decide_eq_true leaves
  | visit remote =>
    intro idle _ _ _ first isFirst empty
    have more : run.admission.waiting.head?.all fun first => !(queueOf run.state.readyUploads first.1).isEmpty := by
      simpa [leavesNone, idle] using leaves
    rw [Option.mem_def.mp isFirst, Option.all_some, empty] at more
    cases more
  | _ => trivial

end PublishRun

namespace SharedFailure

/-- The last two of three obligations share an object that the cache cannot verify. -/
def window : PublishWindow Unit where
  count := 3
  remoteOf index := ⟨index.val⟩
  oidOf index := if index.val = 0 then PartialCache.object 0 else PartialCache.object 1
  probe _ := .ok false
  verify oid := if oid = PartialCache.object 0 then .ok .valid else .error ()
  upload _ := .ok ()
  cost _ := 1
  cost_fits _ := by decide
  batchLimit _ := 1
  batchLimit_pos _ := by decide
  presence := ⟨3, 1, by decide, Nat.one_pos⟩
  transfer := PartialCache.limits

/-- The checks complete from the last to the first. Then the shared verification fails, and the other object is verified and uploaded. -/
def choices : List (Option ℕ) :=
  List.replicate 7 none ++ [some 2] ++ List.replicate 5 none ++ [some 1] ++ List.replicate 5 none ++ [some 0] ++ List.replicate 5 none ++
    [some 0] ++ List.replicate 5 none ++ [some 0] ++ List.replicate 6 none ++ [some 0] ++ List.replicate 6 none

end SharedFailure

open PublishRun SharedFailure in
/-- The error is that of the second obligation, and the first has been uploaded. -/
theorem publication_reports_first_error_shared :
    ∃ run : PublishRun window, Reached window Meets run ∧ run.phase = .returned ∧
      run.result = some (.error (⟨1, by decide⟩, .verification ())) ∧ run.state.statuses ⟨0, by decide⟩ = some .uploaded ∧
      IsLeast {index | ∃ error, window.Fails index error} (⟨1, by decide⟩ : Fin window.count) ∧
      ∀ other : PublishRun window, Reached window Meets other → other.phase = .returned →
        other.result = some (.error (⟨1, by decide⟩, .verification ())) := by
  have leads : ((schedule leavesNone choices : Option (PublishRun window)).filter returns).map
      (fun run => (run.state.error, run.state.statuses ⟨0, by decide⟩)) =
        some (some (⟨1, by decide⟩, .verification ()), some .uploaded) := by decide +kernel
  obtain ⟨run, reached, returned, read⟩ := exists_of_schedule meets_of_leavesNone leads
  rw [Prod.mk.injEq] at read
  have failed : run.result = some (.error (⟨1, by decide⟩, .verification ())) := by rw [result, read.1]
  obtain ⟨-, -, least, same⟩ := publication_reports_first_error reached returned failed
  exact ⟨run, reached, returned, failed, read.2, least, same⟩

/-! ## Obligations left behind -/

namespace SharedObject

/-- Two obligations share an object that the cache cannot verify. -/
def window : PublishWindow Unit where
  count := 2
  remoteOf index := ⟨index.val⟩
  oidOf _ := PartialCache.object 0
  probe _ := .ok false
  verify _ := .error ()
  upload _ := .ok ()
  cost _ := 1
  cost_fits := PartialCache.cost_fits
  batchLimit _ := 1
  batchLimit_pos _ := by decide
  presence := PartialCache.limits
  transfer := PartialCache.limits

/-- The second check completes first, the verification fails, and the first check completes. -/
def choices : List (Option ℕ) :=
  List.replicate 5 none ++ [some 1] ++ List.replicate 4 none ++ [some 1] ++ List.replicate 4 none ++ [some 0] ++ List.replicate 5 none

/-- Both checks complete before the verification. -/
def inOrder : List (Option ℕ) :=
  List.replicate 5 none ++ [some 0] ++ List.replicate 4 none ++ [some 0] ++ List.replicate 4 none ++ [some 0] ++ List.replicate 5 none

end SharedObject

namespace StaleReservation

/-- Three remotes share one transfer slot. -/
def window : PublishWindow Unit where
  count := 4
  remoteOf index := ⟨min index.val 2⟩
  oidOf _ := PartialCache.object 0
  probe index := .ok (index.val = 3)
  verify _ := .ok .valid
  upload index := if index.val = 1 then .error () else .ok ()
  cost _ := 1
  cost_fits _ := by decide
  batchLimit _ := 1
  batchLimit_pos _ := by decide
  presence := ⟨4, 1, by decide, Nat.one_pos⟩
  transfer := ⟨1, 1, Nat.one_pos, Nat.one_pos⟩

/-- The upload of the second obligation fails while the third remote waits before the first. -/
def choices : List (Option ℕ) :=
  List.replicate 7 none ++ [some 1] ++ List.replicate 5 none ++ [some 2] ++ List.replicate 7 none ++ [some 1] ++ List.replicate 6 none ++
    [some 0] ++ List.replicate 5 none ++ [some 1] ++ List.replicate 5 none ++ [some 0] ++ List.replicate 6 none

end StaleReservation

open PublishRun in
/-- With a shared object the second obligation is reported though the first fails as well, and another order reports the first. With a
reservation of a pruned remote an obligation before the error keeps its upload and no status. -/
theorem publication_leaves_earlier_obligations :
    (∃ run other : PublishRun SharedObject.window, Reached SharedObject.window (fun _ _ => True) run ∧ run.phase = .returned ∧
      run.result = some (.error (⟨1, by decide⟩, .verification ())) ∧ run.state.statuses ⟨0, by decide⟩ = none ∧
      SharedObject.window.Fails ⟨0, by decide⟩ (.verification ()) ∧ Reached SharedObject.window (fun _ _ => True) other ∧
      other.phase = .returned ∧ other.result = some (.error (⟨0, by decide⟩, .verification ()))) ∧
    ∃ run : PublishRun StaleReservation.window, Reached StaleReservation.window (fun _ _ => True) run ∧ run.phase = .returned ∧
      run.result = some (.error (⟨1, by decide⟩, .upload ())) ∧ run.state.statuses ⟨0, by decide⟩ = none := by
  have shared : ((schedule (fun _ _ => true) SharedObject.choices : Option (PublishRun SharedObject.window)).filter returns).map
      (fun run => (run.state.error, run.state.statuses ⟨0, by decide⟩)) = some (some (⟨1, by decide⟩, .verification ()), none) := by decide
  have inOrder : ((schedule (fun _ _ => true) SharedObject.inOrder : Option (PublishRun SharedObject.window)).filter returns).map
      (fun run => run.state.error) = some (some (⟨0, by decide⟩, .verification ())) := by decide
  have stale : ((schedule (fun _ _ => true) StaleReservation.choices : Option (PublishRun StaleReservation.window)).filter returns).map
      (fun run => (run.state.error, run.state.statuses ⟨0, by decide⟩)) = some (some (⟨1, by decide⟩, .upload ()), none) := by decide
  obtain ⟨run, reached, returned, read⟩ := exists_of_schedule (fun _ _ _ => trivial) shared
  obtain ⟨other, otherReached, otherReturned, otherRead⟩ := exists_of_schedule (fun _ _ _ => trivial) inOrder
  obtain ⟨late, lateReached, lateReturned, lateRead⟩ := exists_of_schedule (fun _ _ _ => trivial) stale
  rw [Prod.mk.injEq] at read lateRead
  exact ⟨⟨run, other, reached, returned, by rw [result, read.1], read.2, .verification rfl rfl, otherReached, otherReturned,
    by rw [result, otherRead]⟩, late, lateReached, lateReturned, by rw [result, lateRead.1], lateRead.2⟩

end Gat
