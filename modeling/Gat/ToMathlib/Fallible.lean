import Mathlib.Data.List.Forall2

/-! # Programs that keep their state when they fail

A program over a state ends with a value or with a failure, and the state it has reached is kept either
way. `exec` runs a program, and a bind stops at the first failure. The rules for a program that sends a
list of items one by one say what every stop preserves and what a complete delivery establishes.
-/

/-- A traversal succeeds with the values that its steps return. -/
theorem Except.mapM_eq_ok_iff {ε α β : Type} {step : α → Except ε β} {items : List α} {values : List β} :
    items.mapM step = .ok values ↔ List.Forall₂ (fun item value => step item = .ok value) items values := by
  induction items generalizing values with
  | nil => simp [pure, Except.pure, eq_comm]
  | cons item items ih =>
    rw [List.mapM_cons, List.forall₂_cons_left_iff]
    constructor
    · intro done
      rcases first : step item with failure | value
      · rw [first] at done
        cases done
      rcases rest : items.mapM step with failure | others
      · rw [first, rest] at done
        cases done
      rw [first, rest] at done
      cases done
      exact ⟨value, others, rfl, ih.mp rest, rfl⟩
    · rintro ⟨value, others, first, rest, rfl⟩
      rw [first, ih.mpr rest]
      rfl

theorem Option.mapM_eq_some_iff {α β : Type} {step : α → Option β} {items : List α} {values : List β} :
    items.mapM step = some values ↔ List.Forall₂ (fun item value => step item = some value) items values := by
  induction items generalizing values with
  | nil => simp [eq_comm]
  | cons item items ih =>
    rw [List.mapM_cons, List.forall₂_cons_left_iff]
    simp only [Option.bind_eq_bind, Option.pure_def, Option.bind_eq_some_iff, Option.some.injEq, ih]
    constructor
    · rintro ⟨value, first, others, rest, rfl⟩
      exact ⟨value, others, first, rest, rfl⟩
    · rintro ⟨value, others, first, rest, rfl⟩
      exact ⟨value, first, others, rest, rfl⟩

theorem Except.mapError_eq_ok_iff {ε δ α : Type} {convert : ε → δ} {answer : Except ε α} {value : α} :
    answer.mapError convert = .ok value ↔ answer = .ok value := by
  cases answer <;> simp [Except.mapError]

/-- A traversal fails with the failure of one of its steps. -/
theorem Except.exists_of_mapM_error {ε α β : Type} {step : α → Except ε β} {items : List α} {failure : ε}
    (failed : items.mapM step = .error failure) : ∃ item ∈ items, step item = .error failure := by
  induction items with
  | nil => cases failed
  | cons item items ih =>
    rw [List.mapM_cons] at failed
    rcases first : step item with error | value
    · rw [first] at failed
      cases failed
      exact ⟨item, List.mem_cons_self, first⟩
    rcases rest : items.mapM step with error | values
    · rw [first, rest] at failed
      cases failed
      obtain ⟨other, member, same⟩ := ih rest
      exact ⟨other, List.mem_cons_of_mem item member, same⟩
    · rw [first, rest] at failed
      cases failed

/-- A check of every item passes when each of them does. -/
theorem Except.forM_eq_ok_iff {ε α : Type} {check : α → Except ε Unit} {items : List α} :
    items.forM check = .ok () ↔ ∀ item ∈ items, check item = .ok () := by
  induction items with
  | nil => exact iff_of_true rfl nofun
  | cons item items ih =>
    rw [List.forall_mem_cons, ← ih]
    change (check item >>= fun _ => items.forM check) = .ok () ↔ _
    rcases first : check item with failure | _
    · exact iff_of_false nofun nofun
    · exact ⟨fun rest => ⟨rfl, rest⟩, fun both => both.2⟩

/-- A check of every item fails with the failure of one of them. -/
theorem Except.exists_of_forM_error {ε α : Type} {check : α → Except ε Unit} {items : List α} {failure : ε}
    (failed : items.forM check = .error failure) : ∃ item ∈ items, check item = .error failure := by
  induction items with
  | nil => cases failed
  | cons item items ih =>
    change (check item >>= fun _ => items.forM check) = .error failure at failed
    rcases first : check item with error | _
    · rw [first] at failed
      cases failed
      exact ⟨item, List.mem_cons_self, first⟩
    · rw [first] at failed
      obtain ⟨other, member, same⟩ := ih failed
      exact ⟨other, List.mem_cons_of_mem item member, same⟩

/-- An element on the left of related lists has a partner. -/
theorem List.exists_of_forall₂ {α β : Type} {relation : α → β → Prop} {left : List α} {right : List β}
    (related : List.Forall₂ relation left right) {element : α} (member : element ∈ left) :
    ∃ other ∈ right, relation element other := by
  induction related with
  | nil => simp at member
  | cons head _ ih =>
    rcases List.mem_cons.mp member with rfl | later
    · exact ⟨_, List.mem_cons_self, head⟩
    · obtain ⟨other, isOther, held⟩ := ih later
      exact ⟨other, List.mem_cons_of_mem _ isOther, held⟩

theorem List.exists_forall₂ {α β : Type} {R : α → β → Prop} {items : List α} (each : ∀ item ∈ items, ∃ value, R item value) :
    ∃ values, List.Forall₂ R items values := by
  induction items with
  | nil => exact ⟨[], .nil⟩
  | cons item items ih =>
    rw [List.forall_mem_cons] at each
    obtain ⟨value, first⟩ := each.1
    obtain ⟨values, rest⟩ := ih each.2
    exact ⟨value :: values, .cons first rest⟩

/-- A program over a state `σ` that may fail with an `ε`. -/
abbrev Fallible (ε σ α : Type) := ExceptT ε (StateM σ) α

namespace Fallible

variable {ε σ α β : Type}

/-- The result of a program and the state it leaves. -/
def exec (program : Fallible ε σ α) (state : σ) : Except ε α × σ := StateT.run (ExceptT.run program) state

/-- End with a result that is already known. -/
def raise (result : Except ε α) : Fallible ε σ α := ExceptT.mk (pure result)

@[ext] theorem ext {left right : Fallible ε σ α} (same : ∀ state, left.exec state = right.exec state) : left = right :=
  funext same

@[simp] theorem exec_pure (value : α) (state : σ) : (pure value : Fallible ε σ α).exec state = (.ok value, state) := rfl

@[simp] theorem exec_throw (failure : ε) (state : σ) :
    (throw failure : Fallible ε σ α).exec state = (.error failure, state) := rfl

@[simp] theorem exec_raise (result : Except ε α) (state : σ) :
    (raise result : Fallible ε σ α).exec state = (result, state) := rfl

@[simp] theorem exec_get (state : σ) : (get : Fallible ε σ σ).exec state = (.ok state, state) := rfl

@[simp] theorem exec_modify (change : σ → σ) (state : σ) :
    (modify change : Fallible ε σ PUnit).exec state = (.ok ⟨⟩, change state) := rfl

theorem exec_bind (program : Fallible ε σ α) (next : α → Fallible ε σ β) (state : σ) :
    (program >>= next).exec state =
      match program.exec state with
      | (.ok value, after) => (next value).exec after
      | (.error failure, after) => (.error failure, after) := by
  change StateT.run (ExceptT.run (program >>= next)) state = _
  rw [ExceptT.run_bind]
  simp only [StateT.run_bind, exec]
  rcases StateT.run (ExceptT.run program) state with ⟨result, after⟩
  cases result <;> rfl

theorem exec_bind_ok {program : Fallible ε σ α} {next : α → Fallible ε σ β} {state after : σ} {value : α}
    (ran : program.exec state = (.ok value, after)) :
    (program >>= next).exec state = (next value).exec after := by
  rw [exec_bind, ran]

theorem exec_bind_error {program : Fallible ε σ α} {next : α → Fallible ε σ β} {state after : σ} {failure : ε}
    (ran : program.exec state = (.error failure, after)) :
    (program >>= next).exec state = (.error failure, after) := by
  rw [exec_bind, ran]

@[simp] theorem raise_ok (value : α) : (raise (.ok value) : Fallible ε σ α) = pure value := rfl

@[simp] theorem throw_bind (failure : ε) (next : α → Fallible ε σ β) :
    ((throw failure : Fallible ε σ α) >>= next) = throw failure := rfl

@[simp] theorem raise_error (failure : ε) : (raise (.error failure) : Fallible ε σ α) = throw failure := rfl

/-- Run a program for its result, whatever it is. -/
def observe {ε' : Type} (program : Fallible ε σ α) : Fallible ε' σ (Except ε α) :=
  ExceptT.mk (Except.ok <$> program.run)

@[simp] theorem exec_observe {ε' : Type} (program : Fallible ε σ α) (state : σ) :
    (observe program : Fallible ε' σ (Except ε α)).exec state = (.ok (program.exec state).1, (program.exec state).2) := rfl

/-! ## Sending items one by one -/

variable {send : α → Fallible ε σ PUnit}

/-- What every single send preserves, failing or not, is preserved wherever the delivery stops. -/
theorem exec_forM_preserves {Holds : σ → Prop} {items : List α}
    (step : ∀ item ∈ items, ∀ state, Holds state → Holds ((send item).exec state).2) {state : σ} (start : Holds state) :
    Holds ((forM items send).exec state).2 := by
  induction items generalizing state with
  | nil => exact start
  | cons item items ih =>
    have first := step item List.mem_cons_self state start
    rw [List.forM_cons, exec_bind]
    rcases ran : (send item).exec state with ⟨result, after⟩
    rw [ran] at first
    cases result with
    | error failure => exact first
    | ok value => exact ih (fun other member => step other (List.mem_cons_of_mem item member)) first

/-- What each successful send advances holds of everything sent once the delivery is complete. -/
theorem exec_forM_complete (Holds : List α → σ → Prop) {items : List α}
    (step : ∀ sent item state after, Holds sent state → (send item).exec state = (.ok ⟨⟩, after) →
      Holds (sent ++ [item]) after)
    {sent : List α} {state after : σ} (start : Holds sent state)
    (complete : (forM items send).exec state = (.ok ⟨⟩, after)) : Holds (sent ++ items) after := by
  induction items generalizing sent state with
  | nil =>
    obtain rfl : state = after := congrArg Prod.snd complete
    rwa [List.append_nil]
  | cons item items ih =>
    rw [List.forM_cons, exec_bind] at complete
    rcases ran : (send item).exec state with ⟨result, between⟩
    rw [ran] at complete
    cases result with
    | error failure => cases congrArg Prod.fst complete
    | ok value =>
      have next := ih (step sent item state between start ran) complete
      rwa [List.append_assoc, List.singleton_append] at next

end Fallible
