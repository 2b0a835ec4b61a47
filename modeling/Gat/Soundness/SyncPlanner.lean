import Gat.Proofs.SyncMerge

/-! # The sync planner delivers every classification

The windows of the planner decide only when deliveries happen. Actions arrive in path order and refreshes
arrive in path order, each decided by its own path alone. A refresh does not wait for actions that are
still buffered, so the two sequences interleave by the windows.
-/

namespace Gat

variable {ε : Type}

/-- Every run of the planner is a trace of the union's classifications, one for each path at most. -/
theorem plan_delivers_union (context : PlanContext ε) (windows : PlanWindows) (desired : DesiredStream ε)
    (prior : PriorStream ε) :
    ∃ trace result, Delivers (fun _ sink => mergeDesiredWithPrior context windows sink desired prior) trace result ∧
      PlanTrace context desired prior trace result ∧
      (∀ event ∈ trace, plannedAt context desired prior event.path = .ok (some event)) ∧
      (trace.map PlanEvent.path).Nodup := by
  obtain ⟨trace, result, delivers, traced⟩ := exists_planTrace context windows desired prior
  exact ⟨trace, result, delivers, traced, fun _ => traced.planned, traced.nodup_paths⟩

/-! ## A refresh overtakes a buffered action -/

namespace Overtaking

def missingPath : GatPath := .a

def cleanPath : GatPath := .b

def object : Oid := .filled 0

/-- The first path has no file; the second is clean and was read again. -/
def context : PlanContext Unit where
  policy := .validate false
  fileStatus _ := .ok (.matching (some ⟨0, 0, 0⟩))
  fileStatusWithoutPrior _ _ := .ok .absent
  verify _ := .ok .valid

def desired : DesiredStream Unit := ⟨[⟨missingPath, object⟩, ⟨cleanPath, object⟩], by decide, none⟩

def prior : PriorStream Unit := ⟨[⟨cleanPath, object, none⟩], by decide, none⟩

/-- A sink that keeps the order of its calls. -/
def recordSink : PlanSink Unit (List PlanEvent) where
  action decision := modify (· ++ [.action decision])
  stateMutation mutation := modify (· ++ [.refresh mutation])

end Overtaking

open Overtaking in
/-- With a window of two rows the refresh of the later path is delivered before the action of the earlier one. -/
theorem refresh_overtakes_action :
    AllOk (plannedOutcomes Overtaking.context Overtaking.desired Overtaking.prior) ∧
      ¬Delivers (fun _ sink => mergeDesiredWithPrior Overtaking.context ⟨2, 2⟩ sink Overtaking.desired Overtaking.prior)
        (eventsOf (plannedOutcomes Overtaking.context Overtaking.desired Overtaking.prior)) (.ok ⟨⟩) := by
  have outcomes : plannedOutcomes Overtaking.context desired prior =
      [.ok (some (.action (.materialize ⟨missingPath, object⟩))),
        .ok (some (.refresh (.refreshStat cleanPath ⟨0, 0, 0⟩)))] := by
    rw [← map_planRow_visitedRows]
    unfold desired prior
    simp only [visitedRows]
    rfl
  have recorded : ((mergeDesiredWithPrior Overtaking.context ⟨2, 2⟩ recordSink desired prior).exec []).2 =
      [.refresh (.refreshStat cleanPath ⟨0, 0, 0⟩), .action (.materialize ⟨missingPath, object⟩)] := by
    unfold mergeDesiredWithPrior desired prior
    simp only [RowStream.readable, mergeRows]
    rfl
  constructor
  · rw [outcomes]
    rintro _ member
    rcases List.mem_cons.mp member with rfl | later
    · rfl
    · cases List.mem_singleton.mp later
      rfl
  · intro delivers
    rw [outcomes] at delivers
    have ran := congrArg (fun program => (program.exec []).2) (delivers _ recordSink)
    dsimp only at ran
    rw [recorded] at ran
    exact absurd ran (by decide)

end Gat
