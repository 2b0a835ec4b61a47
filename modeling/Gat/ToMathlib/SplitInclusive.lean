import Mathlib.Data.List.Basic
import Mathlib.Tactic.Common

/-! # Lists cut behind a letter

A list is cut behind each occurrence of a terminator, so every piece but the last ends with its only terminator. The
pieces of a list are the only such pieces that it can be put together from, and a list that ends with a terminator is
cut at its end, whatever follows.
-/

namespace List

variable {α : Type*} [DecidableEq α] {terminator : α}

/-- Cut behind each terminator, which stays in its piece. -/
def splitInclusive (terminator : α) : List α → List (List α)
  | [] => []
  | letter :: rest =>
    if letter = terminator then [letter] :: splitInclusive terminator rest
    else
      match splitInclusive terminator rest with
      | [] => [[letter]]
      | piece :: pieces => (letter :: piece) :: pieces

/-- A piece with its terminator. -/
def Terminated (terminator : α) (piece : List α) : Prop := ∃ text, terminator ∉ text ∧ piece = text ++ [terminator]

/-- Pieces of which all but the last are terminated. -/
inductive Pieces (terminator : α) : List (List α) → Prop
  | nil : Pieces terminator []
  | last {text : List α} (some : text ≠ []) (free : terminator ∉ text) : Pieces terminator [text]
  | cons {piece : List α} {pieces : List (List α)} (terminated : Terminated terminator piece) (rest : Pieces terminator pieces) :
    Pieces terminator (piece :: pieces)

theorem splitInclusive_of_notMem {text : List α} (some : text ≠ []) (free : terminator ∉ text) : splitInclusive terminator text = [text] := by
  induction text with
  | nil => exact absurd rfl some
  | cons letter text ih =>
    rw [mem_cons, not_or] at free
    rw [splitInclusive, if_neg (Ne.symm free.1)]
    cases text with
    | nil => rfl
    | cons next text => rw [ih (cons_ne_nil _ _) free.2]

theorem splitInclusive_cons_terminated {piece : List α} (terminated : Terminated terminator piece) (rest : List α) :
    splitInclusive terminator (piece ++ rest) = piece :: splitInclusive terminator rest := by
  obtain ⟨text, free, rfl⟩ := terminated
  induction text with
  | nil => simp [splitInclusive]
  | cons letter text ih =>
    rw [mem_cons, not_or] at free
    rw [cons_append, cons_append, splitInclusive, if_neg (Ne.symm free.1), ih free.2]

/-- The pieces of a list are the only ones. -/
theorem Pieces.splitInclusive_flatten {pieces : List (List α)} (cut : Pieces terminator pieces) :
    splitInclusive terminator pieces.flatten = pieces := by
  induction cut with
  | nil => rfl
  | last some free => rw [flatten_cons, flatten_nil, append_nil, splitInclusive_of_notMem some free]
  | cons terminated _ ih => rw [flatten_cons, splitInclusive_cons_terminated terminated, ih]

@[simp] theorem flatten_splitInclusive (terminator : α) (text : List α) : (splitInclusive terminator text).flatten = text := by
  induction text with
  | nil => rfl
  | cons letter text ih =>
    rw [splitInclusive]
    split_ifs with ends
    · rw [flatten_cons, ih, singleton_append]
    · cases pieces : splitInclusive terminator text with
      | nil =>
        rw [pieces] at ih
        rw [← ih]
        rfl
      | cons piece others =>
        rw [pieces] at ih
        rw [← ih]
        rfl

theorem pieces_splitInclusive (terminator : α) (text : List α) : Pieces terminator (splitInclusive terminator text) := by
  induction text with
  | nil => exact .nil
  | cons letter text ih =>
    rw [splitInclusive]
    split_ifs with ends
    · exact .cons ⟨[], not_mem_nil, by rw [ends, nil_append]⟩ ih
    · generalize splitInclusive terminator text = pieces at ih
      cases ih with
      | nil => exact .last (cons_ne_nil _ _) (by simpa using Ne.symm ends)
      | last some free => exact .last (cons_ne_nil _ _) (by simpa using ⟨Ne.symm ends, free⟩)
      | cons terminated rest =>
        obtain ⟨front, free, rfl⟩ := terminated
        exact .cons ⟨letter :: front, by simpa using ⟨Ne.symm ends, free⟩, rfl⟩ rest

omit [DecidableEq α] in
theorem Pieces.append {before after : List (List α)} (terminated : ∀ piece ∈ before, Terminated terminator piece)
    (cut : Pieces terminator after) : Pieces terminator (before ++ after) := by
  induction before with
  | nil => exact cut
  | cons piece before ih =>
    rw [forall_mem_cons] at terminated
    exact .cons terminated.1 (ih terminated.2)

omit [DecidableEq α] in
/-- Only the last piece can lack its terminator. -/
theorem Pieces.of_append {before after : List (List α)} (cut : Pieces terminator (before ++ after)) (some : after ≠ []) :
    (∀ piece ∈ before, Terminated terminator piece) ∧ Pieces terminator after := by
  induction before with
  | nil => exact ⟨nofun, cut⟩
  | cons piece before ih =>
    rw [cons_append] at cut
    generalize whole : before ++ after = pieces at cut
    cases cut with
    | last => exact absurd (append_eq_nil_iff.mp whole).2 some
    | cons terminated rest =>
      obtain ⟨earlier, later⟩ := ih (whole ▸ rest)
      exact ⟨forall_mem_cons.mpr ⟨terminated, earlier⟩, later⟩

/-- A list is nothing or ends with a terminator. -/
def Closed (terminator : α) (text : List α) : Prop := ∀ letter ∈ text.getLast?, letter = terminator

instance (text : List α) : Decidable (Closed terminator text) := inferInstanceAs (Decidable (∀ letter ∈ text.getLast?, letter = terminator))

omit [DecidableEq α] in
theorem closed_of_terminated {pieces : List (List α)} (terminated : ∀ piece ∈ pieces, Terminated terminator piece) :
    Closed terminator pieces.flatten := by
  intro letter isLast
  rcases eq_nil_or_concat' pieces with rfl | ⟨front, piece, rfl⟩
  · cases isLast
  · obtain ⟨text, -, rfl⟩ := terminated piece (by simp)
    rw [flatten_append, flatten_singleton, ← append_assoc, getLast?_concat] at isLast
    exact (Option.mem_some_iff.mp isLast).symm

theorem Closed.terminated {text : List α} (closed : Closed terminator text) :
    ∀ piece ∈ splitInclusive terminator text, Terminated terminator piece := by
  have whole := flatten_splitInclusive terminator text
  rcases eq_nil_or_concat' (splitInclusive terminator text) with none | ⟨front, piece, same⟩
  · rw [none]
    exact nofun
  · have cut := pieces_splitInclusive terminator text
    rw [same] at cut whole ⊢
    obtain ⟨earlier, last⟩ := cut.of_append (cons_ne_nil _ _)
    refine forall_mem_append.mpr ⟨earlier, forall_mem_singleton.mpr ?_⟩
    cases last with
    | cons terminated => exact terminated
    | last some free =>
      obtain ⟨texts, letter, rfl⟩ := eq_nil_or_concat' piece |>.resolve_left some
      rw [flatten_append, flatten_singleton] at whole
      have isLast : letter ∈ text.getLast? := by rw [← whole, ← append_assoc, getLast?_concat]; rfl
      exact absurd (mem_append_right _ (mem_singleton.mpr (closed letter isLast).symm)) free

/-- What is not closed ends with letters behind its last terminator. -/
theorem exists_of_not_closed {text : List α} (unclosed : ¬Closed terminator text) :
    ∃ front line, text = front ++ line ∧ Closed terminator front ∧ line ≠ [] ∧ terminator ∉ line := by
  have whole := flatten_splitInclusive terminator text
  have cut := pieces_splitInclusive terminator text
  rcases eq_nil_or_concat' (splitInclusive terminator text) with none | ⟨pieces, piece, same⟩
  · rw [none] at whole
    exact absurd (by rw [← whole]; exact nofun) unclosed
  · rw [same] at cut whole
    obtain ⟨earlier, last⟩ := cut.of_append (cons_ne_nil _ _)
    rw [flatten_append, flatten_singleton] at whole
    cases last with
    | last some free => exact ⟨pieces.flatten, piece, whole.symm, closed_of_terminated earlier, some, free⟩
    | cons terminated =>
      have every : ∀ each ∈ pieces ++ [piece], Terminated terminator each :=
        forall_mem_append.mpr ⟨earlier, forall_mem_singleton.mpr terminated⟩
      have closed := closed_of_terminated every
      rw [flatten_append, flatten_singleton, whole] at closed
      exact absurd closed unclosed

/-- A closed list is cut at its end. -/
theorem splitInclusive_append {text : List α} (closed : Closed terminator text) (rest : List α) :
    splitInclusive terminator (text ++ rest) = splitInclusive terminator text ++ splitInclusive terminator rest := by
  have cut := Pieces.append closed.terminated (pieces_splitInclusive terminator rest)
  have whole := cut.splitInclusive_flatten
  rwa [flatten_append, flatten_splitInclusive, flatten_splitInclusive] at whole

end List
