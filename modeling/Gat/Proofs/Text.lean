import Gat.Model.Text

/-! # Slicing facts

A slice returns exactly when it lies between two character boundaries, and a span found inside a text
stays there when the text grows by further text.
-/

namespace Gat

namespace Outcome

variable {ε α β : Type}

@[simp] theorem ok_bind (value : α) (next : α → Outcome ε β) :
    ((Except.ok value : Outcome ε α) >>= next) = next value := rfl

@[simp] theorem pure_eq_ok (value : α) : (pure value : Outcome ε α) = Except.ok value := rfl

@[simp] theorem error_bind (fault : Fault ε) (next : α → Outcome ε β) :
    ((Except.error fault : Outcome ε α) >>= next) = Except.error fault := rfl

@[simp] theorem fail_bind (value : ε) (next : α → Outcome ε β) :
    ((fail value : Outcome ε α) >>= next) = fail value := rfl

@[simp] theorem fail_ne_panic (value : ε) : (fail value : Outcome ε α) ≠ panic := by
  simp [fail, panic]

@[simp] theorem ok_ne_panic (value : α) : (Except.ok value : Outcome ε α) ≠ panic := by
  simp [panic]

@[simp] theorem fail_ne_ok (value : ε) (result : α) : (fail value : Outcome ε α) ≠ Except.ok result := by
  simp [fail]

theorem bind_eq_ok_iff {action : Outcome ε α} {next : α → Outcome ε β} {result : β} :
    (action >>= next) = .ok result ↔ ∃ value, action = .ok value ∧ next value = .ok result := by
  cases action with
  | error fault => simp
  | ok value => simp

end Outcome

namespace Str

variable {ε : Type}

theorem sliceBytes_append (before middle after : Str) :
    (sliceBytes (before ++ (middle ++ after)) before.length (before.length + middle.length) : Outcome ε Str) =
      .ok middle := by
  unfold sliceBytes
  rw [if_pos ⟨by omega, by simp only [List.length_append]; omega⟩, List.drop_left, Nat.add_sub_cancel_left,
    List.take_left]

/-- The path occupies the span of the text that starts at `start`, between character boundaries. -/
def Spans (text : Str) (start : ℕ) (path : Str) : Prop :=
  ∃ before after, text = before ++ (path ++ after) ∧ before.length = start ∧
    Utf8.IsBoundary text start ∧ Utf8.IsBoundary text (start + path.length)

theorem Spans.slice_eq {text path : Str} {start : ℕ} (spans : Spans text start path) :
    (slice text start (start + path.length) : Outcome ε Str) = .ok path := by
  obtain ⟨before, after, rfl, rfl, first, last⟩ := spans
  unfold slice
  rw [if_pos ⟨by omega, first, last⟩, List.drop_left, Nat.add_sub_cancel_left, List.take_left]

theorem Spans.sliceFrom_eq {before path : Str} (valid : Utf8.Valid path) :
    (sliceFrom (before ++ path) before.length : Outcome ε Str) = .ok path := by
  have spans : Spans (before ++ path) before.length path :=
    ⟨before, [], by simp, rfl, Utf8.isBoundary_append valid, by simp [← List.length_append]⟩
  simpa only [sliceFrom, List.length_append] using spans.slice_eq

/-- Growing a text by further text keeps its boundaries. -/
theorem isBoundary_append_right {text more : Str} {index : ℕ} (valid : Utf8.Valid more)
    (boundary : Utf8.IsBoundary text index) : Utf8.IsBoundary (text ++ more) index := by
  rcases boundary with rfl | rfl | ⟨byte, found, starts⟩
  · exact Utf8.isBoundary_zero _
  · exact Utf8.isBoundary_append valid
  · have bound := (List.getElem?_eq_some_iff.mp found).1
    exact Or.inr (Or.inr ⟨byte, by rwa [List.getElem?_append_left bound], starts⟩)

theorem Spans.append {text path more : Str} {start : ℕ} (valid : Utf8.Valid more)
    (spans : Spans text start path) : Spans (text ++ more) start path := by
  obtain ⟨before, after, equal, rfl, first, last⟩ := spans
  refine ⟨before, after ++ more, by rw [equal]; simp, rfl, ?_, ?_⟩
  · exact isBoundary_append_right valid first
  · exact isBoundary_append_right valid last

/-- A valid path between valid texts is a span. -/
theorem spans_of_valid (before : Str) {path after : Str} (pathValid : Utf8.Valid path)
    (afterValid : Utf8.Valid after) : Spans (before ++ (path ++ after)) before.length path := by
  refine ⟨before, after, rfl, rfl, Utf8.isBoundary_append (pathValid.append afterValid), ?_⟩
  rw [← List.append_assoc, ← List.length_append]
  exact Utf8.isBoundary_append afterValid

theorem cmp_eq_lt_iff {left right : Str} : cmp left right = .lt ↔ left < right := by
  unfold cmp
  split_ifs <;> simp_all

theorem cmp_eq_eq_iff {left right : Str} : cmp left right = .eq ↔ left = right := by
  unfold cmp
  split_ifs with less same
  · simpa using less.ne
  · simpa using same
  · simpa using same

theorem cmp_eq_gt_iff {left right : Str} : cmp left right = .gt ↔ right < left := by
  unfold cmp
  split_ifs with less same
  · simpa using less.le
  · simp [same]
  · simpa using lt_of_le_of_ne (not_lt.mp less) (Ne.symm same)

theorem stripPrefix_eq_some_iff {text pattern rest : Str} :
    stripPrefix text pattern = some rest ↔ text = pattern ++ rest := by
  unfold stripPrefix
  split
  · next below =>
      obtain ⟨tail, rfl⟩ := below
      simp only [List.drop_left, Option.some.injEq, List.append_cancel_left_eq]
  · next apart =>
      constructor
      · simp
      · rintro rfl
        exact absurd (List.prefix_append _ _) apart

theorem stripPrefix_eq_none_iff {text pattern : Str} :
    stripPrefix text pattern = none ↔ ∀ rest, text ≠ pattern ++ rest := by
  rw [Option.eq_none_iff_forall_ne_some]
  exact forall_congr' fun rest => not_congr stripPrefix_eq_some_iff

theorem stripSuffix_eq_some_iff {text pattern rest : Str} : stripSuffix text pattern = some rest ↔ text = rest ++ pattern := by
  unfold stripSuffix
  split
  · next below =>
      obtain ⟨front, rfl⟩ := below
      rw [List.length_append, Nat.add_sub_cancel, List.take_left, Option.some.injEq, List.append_left_inj]
  · next apart =>
      refine iff_of_false nofun ?_
      rintro rfl
      exact apart (List.suffix_append _ _)

@[simp] theorem trimCarriageReturn_append (text : Str) :
    trimCarriageReturn (text ++ [Byte.carriageReturn]) = text := by
  simp [trimCarriageReturn]

/-- Trimming removes at most one carriage return from the end. -/
theorem trimCarriageReturn_cases (text : Str) :
    text = trimCarriageReturn text ++ [Byte.carriageReturn] ∨
      trimCarriageReturn text = text ∧ text.getLast? ≠ some Byte.carriageReturn := by
  unfold trimCarriageReturn
  split
  · next ends =>
      have nonempty : text ≠ [] := by
        rintro rfl
        simp at ends
      have last : text.getLast nonempty = Byte.carriageReturn := by
        simpa only [List.getLast?_eq_some_getLast nonempty, Option.some.injEq] using ends
      exact Or.inl (by rw [← last, List.dropLast_concat_getLast])
  · next open_ => exact Or.inr ⟨rfl, open_⟩

/-- A span stays one without its trailing carriage return. -/
theorem Spans.trimCarriageReturn {text raw : Str} {start : ℕ} (spans : Spans text start raw) :
    Spans text start raw.trimCarriageReturn := by
  rcases trimCarriageReturn_cases raw with framed | ⟨bare, -⟩
  · obtain ⟨before, after, rfl, rfl, first, -⟩ := spans
    rw [framed, List.append_assoc] at first ⊢
    refine ⟨before, [Byte.carriageReturn] ++ after, by simp, rfl, first, ?_⟩
    rw [trimCarriageReturn_append, ← List.append_assoc, ← List.length_append]
    exact Utf8.isBoundary_before_ascii (by decide)
  · rwa [bare]

theorem valid_trimCarriageReturn {raw : Str} (valid : Utf8.Valid raw) : Utf8.Valid raw.trimCarriageReturn := by
  rcases trimCarriageReturn_cases raw with framed | ⟨bare, -⟩
  · rw [framed] at valid
    exact (Utf8.Valid.split_ascii (by decide) valid).1
  · rwa [bare]

end Str

end Gat
