import Mathlib.Data.List.Perm.Basic
import Mathlib.Logic.Relation

/-! # Programs whose steps are durable

A program makes one durable step after another and ends with a value or with a failure. When it is stopped in between, the
steps made so far stay. The rules say what every stop keeps and what a complete run establishes.
-/

namespace Durable

/-- A run: the states after each of its steps, and its end. -/
structure Run (ε σ α : Type) where
  passed : List σ
  outcome : Except ε α

variable {ε σ α β : Type}

/-- The state that a run from a start has reached. -/
def Run.last (run : Run ε σ α) (start : σ) : σ := run.passed.getLast?.getD start

end Durable

/-- A program over a durable state `σ` that may fail with an `ε`. -/
def Durable (ε σ α : Type) := σ → Durable.Run ε σ α

namespace Durable

variable {ε σ α β : Type}

instance : Monad (Durable ε σ) where
  pure value := fun _ => ⟨[], .ok value⟩
  bind program next := fun start =>
    match (program start).outcome with
    | .ok value =>
      let rest := next value ((program start).last start)
      ⟨(program start).passed ++ rest.passed, rest.outcome⟩
    | .error failure => ⟨(program start).passed, .error failure⟩

/-- One durable step. -/
def step (change : σ → σ) : Durable ε σ Unit := fun start => ⟨[change start], .ok ()⟩

/-- Look at the state. -/
def get : Durable ε σ σ := fun start => ⟨[], .ok start⟩

/-- End with a result that is already known. -/
def raise (result : Except ε α) : Durable ε σ α := fun _ => ⟨[], result⟩

theorem get_bind_apply {next : σ → Durable ε σ β} {start : σ} : (Durable.get >>= next) start = next start start := rfl

theorem raise_ok_bind_apply {value : α} {next : α → Durable ε σ β} {start : σ} : (Durable.raise (.ok value) >>= next) start = next value start := rfl

/-- The program can be stopped in this state: before its first step or after some step. -/
def Stops (program : Durable ε σ α) (start state : σ) : Prop := state = start ∨ state ∈ (program start).passed

/-- Programs of a kind run one after another, and each of them can be stopped. -/
def Interrupted (allowed : Durable ε σ Unit → Prop) : σ → σ → Prop :=
  Relation.ReflTransGen fun start state => ∃ program, allowed program ∧ Stops program start state

/-- Every stop keeps one condition, and a complete run establishes another one. -/
structure Keeps (Holds : σ → Prop) (program : Durable ε σ α) (start : σ) (Ends : α → σ → Prop) : Prop where
  during : ∀ state, Stops program start state → Holds state
  after : ∀ value, (program start).outcome = .ok value → Ends value ((program start).last start)

variable {Holds : σ → Prop} {start : σ} {Ends : α → σ → Prop}

namespace Keeps

theorem pure {value : α} (holds : Holds start) (ends : Ends value start) : Keeps Holds (pure value : Durable ε σ α) start Ends where
  during state stops := by
    rcases stops with rfl | passed
    · exact holds
    · cases passed
  after other same := by
    cases same
    exact ends

theorem step {change : σ → σ} {Ends : Unit → σ → Prop} (before : Holds start) (holds : Holds (change start)) (ends : Ends () (change start)) :
    Keeps Holds (step change : Durable ε σ Unit) start Ends where
  during state stops := by
    rcases stops with rfl | passed
    · exact before
    · rw [List.mem_singleton.mp passed]
      exact holds
  after _ _ := ends

theorem raise {result : Except ε α} (holds : Holds start) (ends : ∀ value, result = .ok value → Ends value start) :
    Keeps Holds (raise result : Durable ε σ α) start Ends where
  during state stops := by
    rcases stops with rfl | passed
    · exact holds
    · cases passed
  after := ends

/-- What the first program establishes the second one starts from. -/
theorem bind {program : Durable ε σ α} {next : α → Durable ε σ β} (Between : α → σ → Prop) {Ends : β → σ → Prop}
    (first : Keeps Holds program start Between) (second : ∀ value state, Between value state → Keeps Holds (next value) state Ends) :
    Keeps Holds (program >>= next) start Ends := by
  have unfolded : (program >>= next) start = match (program start).outcome with
      | .ok value =>
        let rest := next value ((program start).last start)
        ⟨(program start).passed ++ rest.passed, rest.outcome⟩
      | .error failure => ⟨(program start).passed, .error failure⟩ := rfl
  cases ended : (program start).outcome with
  | error failure =>
    rw [ended] at unfolded
    refine ⟨fun state stops => first.during state ?_, fun value same => ?_⟩
    · rwa [Stops, unfolded] at stops
    · rw [unfolded] at same
      cases same
  | ok value =>
    rw [ended] at unfolded
    dsimp only at unfolded
    have later := second value _ (first.after value ended)
    refine ⟨fun state stops => ?_, fun other same => ?_⟩
    · rw [Stops, unfolded, List.mem_append, ← or_assoc] at stops
      rcases stops with early | late
      · exact first.during state early
      · exact later.during state (Or.inr late)
    · rw [unfolded] at same ⊢
      have ends := later.after other same
      rwa [Run.last, List.getLast?_append, Option.getD_or]

theorem weaken {program : Durable ε σ α} {Other : σ → Prop} (keeps : Keeps Holds program start Ends) (implies : ∀ state, Holds state → Other state) :
    Keeps Other program start Ends where
  during state stops := implies state (keeps.during state stops)
  after := keeps.after

/-- The stops and the end themselves. -/
theorem trace {program : Durable ε σ α} : Keeps (Stops program start) program start fun value state =>
    (program start).outcome = .ok value ∧ (program start).last start = state where
  during _ stops := stops
  after _ ended := ⟨ended, rfl⟩

/-- A choice keeps what both of its branches keep. -/
theorem ite {condition : Prop} [Decidable condition] {yes no : Durable ε σ α} (first : condition → Keeps Holds yes start Ends)
    (second : ¬condition → Keeps Holds no start Ends) : Keeps Holds (if condition then yes else no) start Ends := by
  by_cases chosen : condition
  · rw [if_pos chosen]
    exact first chosen
  · rw [if_neg chosen]
    exact second chosen

/-- After a look the program goes on with the state that it starts in. -/
theorem get_bind {next : σ → Durable ε σ β} {Ends : β → σ → Prop} (later : Keeps Holds (next start) start Ends) :
    Keeps Holds (Durable.get >>= next) start Ends where
  during state stops := later.during state stops
  after value ended := later.after value ended

/-- After a step the program goes on with the changed state. -/
theorem step_bind {change : σ → σ} {next : Unit → Durable ε σ β} {Ends : β → σ → Prop} (before : Holds start)
    (later : Keeps Holds (next ()) (change start) Ends) : Keeps Holds (Durable.step change >>= next) start Ends := by
  refine bind (fun _ state => state = change start) (step before (later.during _ (Or.inl rfl)) rfl) ?_
  rintro _ _ rfl
  exact later

/-- After a known result the program goes on when it was a success. -/
theorem raise_bind {result : Except ε α} {next : α → Durable ε σ β} {Ends : β → σ → Prop} (before : Holds start)
    (later : ∀ value, result = .ok value → Keeps Holds (next value) start Ends) : Keeps Holds (Durable.raise result >>= next) start Ends := by
  refine bind (fun value state => result = .ok value ∧ state = start) (raise before fun value same => ⟨same, rfl⟩) ?_
  rintro value _ ⟨same, rfl⟩
  exact later value same

theorem mono {program : Durable ε σ α} {Other : α → σ → Prop} (keeps : Keeps Holds program start Ends)
    (implies : ∀ value state, Holds state → Ends value state → Other value state) : Keeps Holds program start Other where
  during := keeps.during
  after value ended := by
    refine implies value _ (keeps.during _ ?_) (keeps.after value ended)
    unfold Run.last Stops
    cases reached : (program start).passed.getLast? with
    | none => exact Or.inl rfl
    | some state => exact Or.inr (List.mem_of_getLast? reached)

/-- A loop keeps what each of its rounds keeps. -/
theorem forM {items : List α} {send : α → Durable ε σ PUnit} (Ends : σ → Prop) (initially : Ends start) (holds : ∀ state, Ends state → Holds state)
    (each : ∀ item ∈ items, ∀ state, Ends state → Keeps Holds (send item) state fun _ => Ends) :
    Keeps Holds (forM items send) start fun _ => Ends := by
  induction items generalizing start with
  | nil => exact Keeps.pure (holds start initially) initially
  | cons item items ih =>
    rw [List.forM_cons]
    refine Keeps.bind _ (each item List.mem_cons_self start initially) fun _ state ends => ?_
    exact ih ends fun other member => each other (List.mem_cons_of_mem item member)

end Keeps

/-- What every program keeps from every state, all of them keep however they are stopped. -/
theorem Interrupted.keeps {allowed : Durable ε σ Unit → Prop} {start state : σ} (interrupted : Interrupted allowed start state)
    (each : ∀ program, allowed program → ∀ state, Holds state → Keeps Holds program state fun _ _ => True) (holds : Holds start) : Holds state := by
  induction interrupted with
  | refl => exact holds
  | tail _ stopped ih =>
    obtain ⟨program, isAllowed, stops⟩ := stopped
    exact (each program isAllowed _ ih).during _ stops

/-! ## Reaching a stop -/

namespace Stops

variable {state : σ}

theorem refl (program : Durable ε σ α) (start : σ) : Stops program start start := Or.inl rfl

theorem get_bind {next : σ → Durable ε σ β} (stops : Stops (next start) start state) : Stops (Durable.get >>= next) start state := stops

theorem raise_bind {result : Except ε α} {next : α → Durable ε σ β} {value : α} (known : result = .ok value)
    (stops : Stops (next value) start state) : Stops (Durable.raise result >>= next) start state := by
  subst known
  exact stops

theorem step_bind {change : σ → σ} {next : Unit → Durable ε σ β} (stops : Stops (next ()) (change start) state) :
    Stops (Durable.step change >>= next) start state := by
  refine Or.inr ?_
  rcases stops with rfl | passed
  · exact List.mem_cons_self
  · exact List.mem_cons_of_mem _ passed

/-- A complete run goes on with the next program. -/
theorem bind {program : Durable ε σ α} {next : α → Durable ε σ β} {value : α} (ended : (program start).outcome = .ok value)
    (stops : Stops (next value) ((program start).last start) state) : Stops (program >>= next) start state := by
  have unfolded : (program >>= next) start = match (program start).outcome with
      | .ok value =>
        let rest := next value ((program start).last start)
        ⟨(program start).passed ++ rest.passed, rest.outcome⟩
      | .error failure => ⟨(program start).passed, .error failure⟩ := rfl
  rw [ended] at unfolded
  dsimp only at unfolded
  rw [Stops, unfolded, List.mem_append]
  rcases stops with rfl | passed
  · unfold Run.last
    cases reached : (program start).passed.getLast? with
    | none => exact Or.inl rfl
    | some state => exact Or.inr (Or.inl (List.mem_of_getLast? reached))
  · exact Or.inr (Or.inr passed)

end Stops

end Durable
