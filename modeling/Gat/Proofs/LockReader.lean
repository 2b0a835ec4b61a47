import Gat.Proofs.LockRecord

/-! # The row loop

The decoder's spans and stack represent the rows read so far: every row slices to its decoded path, the
rows are certified, and the stack names the earlier paths that are prefixes of the last one. One
iteration either extends this by the record at the cursor or fails because no record there extends it.
-/

namespace Gat

open LockFormat AncestorFree

/-- The stored row is a span that holds the decoded path and carries its identifier. -/
structure HoldsRow (file : ValidatedLockFile) (row : Row) (decoded : Str × Oid) : Prop where
  spans : Str.Spans (if row.arena then file.arena else file.source) row.start decoded.1
  len : row.len = decoded.1.length
  oid : row.oid = decoded.2

theorem HoldsRow.path_eq {ε : Type} {file : ValidatedLockFile} {row : Row} {decoded : Str × Oid}
    (holds : HoldsRow file row decoded) : (file.path row : Outcome ε Str) = .ok decoded.1 := by
  unfold ValidatedLockFile.path
  rw [holds.len]
  exact holds.spans.slice_eq

/-- Extending the arena by further text keeps every row. -/
theorem HoldsRow.extend {file : ValidatedLockFile} {row : Row} {decoded : Str × Oid} {more : Str}
    (valid : Utf8.Valid more) (holds : HoldsRow file row decoded) :
    HoldsRow { file with arena := file.arena ++ more } row decoded := by
  refine ⟨?_, holds.len, holds.oid⟩
  have spans := holds.spans
  split
  · next inArena =>
      rw [if_pos inArena] at spans
      exact spans.append valid
  · next inSource =>
      rw [if_neg inSource] at spans
      exact spans

/-- The rows are canonical, strictly ordered and without an ancestor pair. -/
structure CertifiedRows (rows : List (Str × Oid)) : Prop where
  utf8 : ∀ row ∈ rows, Utf8.Valid row.1
  canonical : ∀ row ∈ rows, IsCanonical row.1
  ordered : (rows.map Prod.fst).Pairwise (· < ·)
  separated : Separated Byte.slash (rows.map Prod.fst)

theorem CertifiedRows.nil : CertifiedRows [] := ⟨by simp, by simp, by simp, by simp⟩

theorem CertifiedRows.concat {rows : List (Str × Oid)} {path : Str} {oid : Oid} (certified : CertifiedRows rows)
    (valid : Utf8.Valid path) (canonical : IsCanonical path) (extends_ : Extends rows path) :
    CertifiedRows (rows ++ [(path, oid)]) := by
  have largest : ∀ name ∈ rows.map Prod.fst, name < path := by
    intro name member
    obtain ⟨row, listed, rfl⟩ := List.mem_map.mp member
    exact (extends_ row listed).1
  refine ⟨?_, ?_, ?_, ?_⟩
  · simpa [or_imp, forall_and] using ⟨fun p o => certified.utf8 (p, o), valid⟩
  · simpa [or_imp, forall_and] using ⟨fun p o => certified.canonical (p, o), canonical⟩
  · rw [List.map_append, List.pairwise_append]
    exact ⟨certified.ordered, by simp, fun name member _ single => by
      obtain rfl := List.mem_singleton.mp single
      exact largest name member⟩
  · rw [List.map_append, List.map_singleton, separated_concat_iff largest]
    refine ⟨certified.separated, fun name member => ?_⟩
    obtain ⟨row, listed, rfl⟩ := List.mem_map.mp member
    exact (extends_ row listed).2

/-- Certified rows extend each of their initial segments. -/
theorem CertifiedRows.extends_of_append {rows more : List (Str × Oid)} {path : Str} {oid : Oid}
    (ordered : ((rows ++ (path, oid) :: more).map Prod.fst).Pairwise (· < ·))
    (separated : Separated Byte.slash ((rows ++ (path, oid) :: more).map Prod.fst)) : Extends rows path := by
  rw [List.map_append, List.map_cons] at ordered separated
  intro row member
  have listed := List.mem_map_of_mem (f := Prod.fst) member
  exact ⟨(List.pairwise_append.mp ordered).2.2 row.1 listed path List.mem_cons_self,
    separated row.1 (by simp [listed]) path (by simp)⟩

/-- The path an index on the stack names. -/
def pathAt (rows : List (Str × Oid)) (index : ℕ) : Str := (rows.map Prod.fst).getD index []

theorem pathAt_of_getElem? {rows : List (Str × Oid)} {index : ℕ} {row : Str × Oid}
    (found : rows[index]? = some row) : pathAt rows index = row.1 := by
  simp [pathAt, found]

theorem pathAt_append {rows more : List (Str × Oid)} {index : ℕ} (bound : index < rows.length) :
    pathAt (rows ++ more) index = pathAt rows index := by
  simp [pathAt, List.getElem?_append_left (show index < (rows.map Prod.fst).length by simpa using bound)]

/-- The decoder state represents the rows decoded so far. -/
structure Represents (source : Str) (state : Decoder) (rows : List (Str × Oid)) : Prop where
  source_eq : state.result.source = source
  arenaValid : Utf8.Valid state.result.arena
  holds : List.Forall₂ (HoldsRow state.result) state.result.rows rows
  certified : CertifiedRows rows
  inRange : ∀ index ∈ state.stack, index < rows.length
  chain : ∀ last, (rows.map Prod.fst).getLast? = some last →
    PrefixStack (rows.map Prod.fst) last (state.stack.map (pathAt rows))

namespace Represents

variable {source : Str} {state : Decoder} {rows : List (Str × Oid)}

theorem length_eq (represents : Represents source state rows) : state.result.rows.length = rows.length :=
  represents.holds.length_eq

theorem extend {more : Str} (valid : Utf8.Valid more) (represents : Represents source state rows) :
    Represents source { state with result.arena := state.result.arena ++ more } rows where
  source_eq := represents.source_eq
  arenaValid := represents.arenaValid.append valid
  holds := represents.holds.imp fun _ _ holds => holds.extend valid
  certified := represents.certified
  inRange := represents.inRange
  chain := represents.chain

theorem getElem? (represents : Represents source state rows) {index : ℕ} (bound : index < rows.length) :
    ∃ row decoded, state.result.rows[index]? = some row ∧ rows[index]? = some decoded ∧
      HoldsRow state.result row decoded := by
  have stored : index < state.result.rows.length := represents.length_eq ▸ bound
  refine ⟨_, _, List.getElem?_eq_getElem stored, List.getElem?_eq_getElem bound, ?_⟩
  exact represents.holds.get stored bound

/-- The last stored row holds the largest path. -/
theorem getLast? (represents : Represents source state rows) :
    (state.result.rows.getLast? = none ∧ rows = []) ∨
      ∃ row decoded, state.result.rows.getLast? = some row ∧ HoldsRow state.result row decoded ∧
        (rows.map Prod.fst).getLast? = some decoded.1 ∧ decoded ∈ rows ∧ ∀ other ∈ rows, other.1 ≤ decoded.1 := by
  rcases List.eq_nil_or_concat rows with rfl | ⟨init, last, rfl⟩
  · left
    have stored := List.eq_nil_of_length_eq_zero represents.length_eq
    simp [stored]
  · right
    obtain ⟨row, decoded, stored, listed, holds⟩ := represents.getElem? (show init.length < _ by simp)
    obtain rfl : last = decoded := by simpa using listed
    refine ⟨row, last, ?_, holds, by simp, by simp, fun other member => ?_⟩
    · rw [List.getLast?_eq_getElem?, represents.length_eq]
      simpa using stored
    · rcases List.mem_append.mp (List.concat_eq_append ▸ member) with earlier | same
      · have ordered := represents.certified.ordered
        rw [List.concat_eq_append, List.map_append, List.pairwise_append] at ordered
        exact (ordered.2.2 other.1 (List.mem_map_of_mem earlier) last.1 (by simp)).le
      · rw [List.mem_singleton.mp same]

/-- Popping compares the lengths of the named paths. -/
theorem popLonger_eq (represents : Represents source state rows) (lcp : ℕ) {stack : List ℕ}
    (inRange : ∀ index ∈ stack, index < rows.length) :
    Decoder.popLonger state.result lcp stack =
      .ok (stack.dropWhile fun index => decide (lcp < (pathAt rows index).length)) := by
  induction stack with
  | nil => rfl
  | cons index stack ih =>
    rw [List.forall_mem_cons] at inRange
    obtain ⟨row, decoded, stored, listed, holds⟩ := represents.getElem? inRange.1
    rw [Decoder.popLonger, Decoder.rowLength, stored, Outcome.ok_bind, holds.len, List.dropWhile_cons,
      pathAt_of_getElem? listed]
    by_cases long : lcp < decoded.1.length
    · rw [if_pos long, if_pos (decide_eq_true long), ih inRange.2]
    · rw [if_neg long, if_neg (by simpa using long)]
      rfl

/-- The order check passes exactly when the path extends the rows, and leaves the stack of their
prefixes of it. -/
theorem checkOrder_cases (represents : Represents source state rows) (path : Str) (line : ℕ) :
    (∃ stack, state.checkOrder path line = .ok stack ∧ Extends rows path ∧
        (∀ index ∈ stack, index < rows.length) ∧ PrefixStack (rows.map Prod.fst) path (stack.map (pathAt rows))) ∨
      (∃ failure, state.checkOrder path line = Outcome.fail failure) ∧ ¬Extends rows path := by
  unfold Decoder.checkOrder
  rcases represents.getLast? with ⟨stored, rfl⟩ | ⟨row, last, stored, holds, isLast, member, largest⟩
  · rw [stored]
    have empty : state.stack = [] := List.eq_nil_iff_forall_not_mem.mpr fun index listed => by
      simpa using represents.inRange index listed
    refine Or.inl ⟨[], by rw [empty], by simp [Extends], by simp, ?_⟩
    exact PrefixStack.nil path
  · simp only [stored, holds.path_eq, Outcome.ok_bind]
    cases order : Str.cmp last.1 path with
    | eq =>
      refine Or.inr ⟨⟨_, rfl⟩, fun extends_ => ?_⟩
      exact absurd (Str.cmp_eq_eq_iff.mp order) (extends_ last member).1.ne
    | gt =>
      refine Or.inr ⟨⟨_, rfl⟩, fun extends_ => ?_⟩
      exact lt_asymm (Str.cmp_eq_gt_iff.mp order) (extends_ last member).1
    | lt =>
      have later : last.1 < path := Str.cmp_eq_lt_iff.mp order
      have chain := (represents.chain last.1 isLast).advance
        (fun name listed => by
          obtain ⟨other, otherMember, rfl⟩ := List.mem_map.mp listed
          exact largest other otherMember) later
      rw [List.dropWhile_map] at chain
      simp only [represents.popLonger_eq _ represents.inRange, Outcome.ok_bind]
      have inRange : ∀ index ∈ state.stack.dropWhile (fun index =>
          decide (List.lcpLength last.1 path < (pathAt rows index).length)), index < rows.length :=
        fun index listed => represents.inRange index ((List.dropWhile_suffix _).subset listed)
      simp only [Function.comp_def] at chain
      generalize state.stack.dropWhile (fun index =>
        decide (List.lcpLength last.1 path < (pathAt rows index).length)) = stack at chain inRange
      have extends_iff : Extends rows path ↔ ¬∃ name ∈ rows.map Prod.fst, IsAncestor Byte.slash name path := by
        push Not
        constructor
        · intro extends_ name listed
          obtain ⟨other, otherMember, rfl⟩ := List.mem_map.mp listed
          exact (extends_ other otherMember).2
        · exact fun free other otherMember => ⟨(largest other otherMember).trans_lt later,
            free other.1 (List.mem_map_of_mem otherMember)⟩
      rw [extends_iff, chain.exists_ancestor_iff represents.certified.separated]
      cases stack with
      | nil => exact Or.inl ⟨[], rfl, by simp, by simp, chain⟩
      | cons index stack =>
        obtain ⟨top, decoded, topStored, listed, topHolds⟩ := represents.getElem? (inRange index List.mem_cons_self)
        simp only [topStored, topHolds.len, topHolds.path_eq, Outcome.ok_bind]
        rw [List.map_cons, List.head?_cons, pathAt_of_getElem? listed]
        split
        · next letter => exact Or.inr ⟨⟨_, rfl⟩, fun none_ => none_ ⟨decoded.1, rfl, letter⟩⟩
        · next other =>
            refine Or.inl ⟨index :: stack, rfl, ?_, inRange, chain⟩
            rintro ⟨_, same, letter⟩
            exact other (Option.some.inj same ▸ letter)

end Represents

/-- A path field decodes to what it spells, and only an escaped one grows the arena. -/
theorem decodeField_eq (arena : Str) {field : Str} (line : ℕ) (valid : Utf8.Valid field) :
    Decoder.decodeField arena field (field.any isSpecial) line =
      match unescape field with
      | none => Outcome.fail (.nonCanonicalPath line field)
      | some path =>
        .ok (path, if field.any isSpecial then arena ++ path else arena, field.any isSpecial) := by
  unfold Decoder.decodeField
  cases special : field.any isSpecial with
  | false =>
    rw [if_neg (by simp), if_neg (by simp), unescape_of_plain special]
    rfl
  | true =>
    by_cases escape : Byte.backslash ∈ field
    · rw [if_pos ⟨rfl, escape⟩, decodeEscaped_eq arena valid, Outcome.ok_bind]
      cases decoded : unescape field with
      | none => rfl
      | some path =>
        have pathValid := (unescape_eq_some_iff.mp decoded).valid valid
        simp only [Option.map_some, Str.Spans.sliceFrom_eq pathValid, Outcome.ok_bind, if_true]
        rfl
    · rw [if_neg (by simp [escape]), if_pos rfl, unescape_of_control special escape]

namespace Represents

variable {source : Str} {state : Decoder} {rows : List (Str × Oid)}

/-- Appending an accepted row keeps the representation. -/
theorem push {row : Row} {path : Str} {stack : List ℕ} (represents : Represents source state rows)
    (holds : HoldsRow state.result row (path, row.oid)) (valid : Utf8.Valid path) (canonical : IsCanonical path)
    (extends_ : Extends rows path) (inRange : ∀ index ∈ stack, index < rows.length)
    (chain : PrefixStack (rows.map Prod.fst) path (stack.map (pathAt rows))) :
    Represents source ⟨{ state.result with rows := state.result.rows ++ [row] }, state.result.rows.length :: stack⟩
      (rows ++ [(path, row.oid)]) where
  source_eq := represents.source_eq
  arenaValid := represents.arenaValid
  holds := by
    refine List.rel_append ?_ (List.Forall₂.cons ?_ List.Forall₂.nil)
    · exact represents.holds.imp fun _ _ old => ⟨old.spans, old.len, old.oid⟩
    · exact ⟨holds.spans, holds.len, holds.oid⟩
  certified := represents.certified.concat valid canonical extends_
  inRange := by
    rw [represents.length_eq, List.forall_mem_cons, List.length_append, List.length_singleton]
    exact ⟨Nat.lt_succ_self _, fun index member => Nat.lt_succ_of_lt (inRange index member)⟩
  chain := by
    intro last isLast
    obtain rfl : path = last := by simpa using isLast
    have largest : ∀ name ∈ rows.map Prod.fst, name < path := by
      intro name member
      obtain ⟨other, listed, rfl⟩ := List.mem_map.mp member
      exact (extends_ other listed).1
    have names : stack.map (pathAt (rows ++ [(path, row.oid)])) = stack.map (pathAt rows) :=
      List.map_congr_left fun index member => pathAt_append (inRange index member)
    have newest : pathAt (rows ++ [(path, row.oid)]) state.result.rows.length = path :=
      pathAt_of_getElem? (by rw [represents.length_eq]; simp : _ = some (path, row.oid))
    rw [List.map_cons, names, newest, List.map_append, List.map_singleton]
    exact chain.push largest

/-- The second half of an iteration accepts exactly the fields that spell a canonical path extending
the rows. -/
theorem acceptRow_cases (represents : Represents source state rows) {start : ℕ} {raw : Str} (oid : Oid)
    (spans : Str.Spans source start raw) (valid : Utf8.Valid raw) :
    (∃ next path, state.acceptRow start raw oid (raw.trimCarriageReturn.any isSpecial) = .ok next ∧
        Escapes raw.trimCarriageReturn path ∧ IsCanonical path ∧ Extends rows path ∧
        Represents source next (rows ++ [(path, oid)])) ∨
      (∃ failure, state.acceptRow start raw oid (raw.trimCarriageReturn.any isSpecial) = Outcome.fail failure) ∧
        ∀ path, Escapes raw.trimCarriageReturn path → IsCanonical path → ¬Extends rows path := by
  have fieldValid := Str.valid_trimCarriageReturn valid
  have fieldSpans := spans.trimCarriageReturn
  unfold Decoder.acceptRow
  simp only [decodeField_eq _ _ fieldValid]
  cases decoded : unescape raw.trimCarriageReturn with
  | none =>
    refine Or.inr ⟨⟨_, rfl⟩, fun path escapes => ?_⟩
    rw [unescape_eq_some_iff.mpr escapes] at decoded
    simp at decoded
  | some path =>
    have escapes := unescape_eq_some_iff.mp decoded
    have pathValid := escapes.valid fieldValid
    have samePath {other : Str} (spelled : Escapes raw.trimCarriageReturn other) : path = other := by
      rw [unescape_eq_some_iff.mpr spelled] at decoded
      exact (Option.some.inj decoded).symm
    simp only [Outcome.ok_bind]
    rcases validatePath_cases path (state.result.rows.length + 2) with ⟨checked, canonical⟩ | ⟨⟨_, rejected⟩, other⟩
    swap
    · rw [rejected]
      exact Or.inr ⟨⟨_, rfl⟩, fun _ spelled canonical _ => other (samePath spelled ▸ canonical)⟩
    rw [checked, Outcome.ok_bind]
    -- the path now lies in the grown arena or in the source
    have grown : Represents source ⟨{ state.result with arena := if raw.trimCarriageReturn.any isSpecial then
        state.result.arena ++ path else state.result.arena }, state.stack⟩ rows := by
      split
      · exact represents.extend pathValid
      · exact represents
    rcases grown.checkOrder_cases path (state.result.rows.length + 2) with
      ⟨stack, ordered, extends_, inRange, chain⟩ | ⟨⟨_, rejected⟩, other⟩
    swap
    · rw [rejected]
      exact Or.inr ⟨⟨_, rfl⟩, fun _ spelled _ extends_ => other (samePath spelled ▸ extends_)⟩
    rw [ordered, Outcome.ok_bind]
    refine Or.inl ⟨_, path, rfl, escapes, canonical, extends_, ?_⟩
    refine grown.push ⟨?_, rfl, rfl⟩ pathValid canonical extends_ inRange chain
    cases special : raw.trimCarriageReturn.any isSpecial with
    | true =>
      have inArena := Str.spans_of_valid state.result.arena pathValid Utf8.Valid.nil
      simpa using inArena
    | false =>
      rw [unescape_of_plain special, Option.some.injEq] at decoded
      simpa [represents.source_eq, ← decoded] using fieldSpans

/-- One iteration reads the record at the cursor, and fails only when no record there extends the rows. -/
theorem decodeRow_cases (kernel : Kernel) {consumed rest : Str} (represents : Represents source state rows)
    (cursor : source = consumed ++ rest) (valid : Utf8.Valid rest) :
    (∃ next len record path oid after, state.decodeRow kernel consumed.length = .ok (next, len) ∧
        rest = record ++ after ∧ record.length = 65 + len + 1 ∧ Utf8.Valid after ∧ Record record path oid ∧
        IsCanonical path ∧ Extends rows path ∧ Represents source next (rows ++ [(path, oid)])) ∨
      (∃ failure, state.decodeRow kernel consumed.length = Outcome.fail failure) ∧
        ∀ record path oid after, rest = record ++ after → Record record path oid → IsCanonical path →
          ¬Extends rows path := by
  have column : source[consumed.length + 64]? = rest[64]? := by
    rw [cursor, List.getElem?_append_right (by omega), Nat.add_sub_cancel_left]
  unfold Decoder.decodeRow
  simp only [represents.source_eq, column]
  by_cases separator : rest[64]? = some Byte.tab
  swap
  · rw [if_pos separator]
    refine Or.inr ⟨⟨_, rfl⟩, fun record path oid after same spelled _ _ => separator ?_⟩
    obtain ⟨raw, shape, -⟩ := record_shape same spelled
    rw [shape, List.getElem?_append_right (by simp)]
    simp
  rw [if_neg (not_not.mpr separator)]
  obtain ⟨hash, tail, width, rfl⟩ : ∃ hash tail, hash.length = 64 ∧ rest = hash ++ Byte.tab :: tail := by
    have bound := (List.getElem?_eq_some_iff.mp separator).1
    refine ⟨rest.take 64, rest.drop 65, by simp; omega, ?_⟩
    rw [List.getElem?_eq_getElem bound, Option.some.injEq] at separator
    rw [← separator, List.getElem_cons_drop, List.take_append_drop]
  obtain ⟨-, tailValid⟩ := Utf8.Valid.split_ascii (by decide) valid
  have hashSlice : (Str.sliceBytes source consumed.length (consumed.length + 64) : Outcome LockDomainError Str) =
      .ok hash := by
    rw [cursor, ← width]
    exact Str.sliceBytes_append consumed hash _
  have start : consumed.length + 65 = (consumed ++ hash ++ [Byte.tab]).length := by
    simp only [List.length_append, width, List.length_singleton]
  have placed : source = (consumed ++ hash ++ [Byte.tab]) ++ tail := by
    rw [cursor]
    simp
  have tailSlice : (Str.sliceBytes source (consumed.length + 65) source.length : Outcome LockDomainError Str) =
      .ok tail := by
    have whole := Str.sliceBytes_append (ε := LockDomainError) (consumed ++ hash ++ [Byte.tab]) tail []
    rwa [List.append_nil, ← List.length_append, ← placed, ← start] at whole
  have tailSliceFrom : (Str.sliceFrom source (consumed.length + 65) : Outcome LockDomainError Str) = .ok tail := by
    rw [placed, start]
    exact Str.Spans.sliceFrom_eq tailValid
  simp only [hashSlice, Outcome.ok_bind, dif_pos width, tailSlice, kernel.row_eq_scalar]
  match read : scalar ⟨hash, width⟩ tail with
  | none =>
    -- neither a bad digest nor a missing line feed can start a record
    refine Or.inr ⟨?_, fun record path oid after same spelled _ _ => ?_⟩
    · dsimp only
      split
      · exact ⟨_, by rw [tailSliceFrom]; rfl⟩
      · exact ⟨_, rfl⟩
    · obtain ⟨raw, shape, -⟩ := record_shape same spelled
      obtain ⟨rfl, remaining⟩ := List.append_inj shape (by rw [width, Oid.encodeHex_length])
      rcases scalar_eq_none_iff.mp read with missing | absent
      · rw [decodeHash_eq_some_iff.mpr rfl] at missing
        simp at missing
      · rw [(List.cons.inj remaining).2] at absent
        simp at absent
  | some (oid, len, special) =>
    obtain ⟨rfl, raw, after, rfl, rfl, absent, rfl⟩ := scalar_eq_some_iff.mp read
    obtain ⟨rawValid, afterValid⟩ := Utf8.Valid.split_ascii (by decide) tailValid
    have spans : Str.Spans source (consumed.length + 65) raw := by
      refine ⟨_, _, placed, start.symm, ?_, ?_⟩
      · rw [placed, start]
        exact Utf8.isBoundary_append tailValid
      · rw [placed, start, ← List.append_assoc, ← List.length_append]
        exact Utf8.isBoundary_before_ascii (by decide)
    simp only [spans.slice_eq, Outcome.ok_bind]
    rcases represents.acceptRow_cases oid spans rawValid with
      ⟨next, path, accepted, escapes, canonical, extends_, represents'⟩ | ⟨⟨failure, rejected⟩, other⟩
    · refine Or.inl ⟨next, _, _, path, oid, after, by rw [accepted]; rfl, ?_, ?_, afterValid,
        record_of_fields escapes, canonical, extends_, represents'⟩
      · simp
      · simp only [List.length_append, List.length_cons, width, List.length_nil]
        omega
    · refine Or.inr ⟨⟨failure, by rw [rejected]; rfl⟩, fun record path oid' after' same spelled => ?_⟩
      exact other path ((record_append_iff _ _ _ width absent).mp ⟨record, same, spelled⟩).2.1

/-- From the cursor on, the loop reads the remaining records exactly when they continue the rows. -/
theorem decodeRows_cases (kernel : Kernel) {consumed rest : Str} (represents : Represents source state rows)
    (cursor : source = consumed ++ rest) (valid : Utf8.Valid rest) :
    (∃ file more, Decoder.decodeRows kernel source state consumed.length = .ok file ∧ Records rest more ∧
        List.Forall₂ (HoldsRow file) file.rows (rows ++ more) ∧ CertifiedRows (rows ++ more)) ∨
      (∃ failure, Decoder.decodeRows kernel source state consumed.length = Outcome.fail failure) ∧
        ∀ more, Records rest more → (∀ row ∈ more, IsCanonical row.1) →
          ((rows ++ more).map Prod.fst).Pairwise (· < ·) → ¬Separated Byte.slash ((rows ++ more).map Prod.fst) := by
  induction length : rest.length using Nat.strong_induction_on generalizing consumed rest state rows with
  | _ size ih =>
    rw [Decoder.decodeRows]
    cases rest with
    | nil =>
      rw [if_neg (by rw [cursor]; simp)]
      exact Or.inl ⟨state.result, [], rfl, Records.nil, by simpa using represents.holds,
        by simpa using represents.certified⟩
    | cons first rest =>
      rw [if_pos (by rw [cursor]; simp)]
      rcases represents.decodeRow_cases kernel cursor valid with
        ⟨next, len, record, path, oid, after, read, split, width, afterValid, spelled, canonical, extends_, represents'⟩ |
        ⟨⟨failure, rejected⟩, other⟩
      · have shorter : after.length < size := by
          rw [← length, split, List.length_append]
          omega
        have cursor' : source = (consumed ++ record) ++ after := by rw [cursor, split, List.append_assoc]
        have position : consumed.length + 65 + len + 1 = (consumed ++ record).length := by
          rw [List.length_append]
          omega
        rw [read, Outcome.ok_bind]
        simp only [position]
        rcases ih after.length shorter represents' cursor' afterValid rfl with
          ⟨file, more, decoded, records, holds, certified⟩ | ⟨rejected, other⟩
        · refine Or.inl ⟨file, (path, oid) :: more, decoded, split ▸ Records.cons spelled records, ?_, ?_⟩
          · simpa using holds
          · simpa using certified
        · refine Or.inr ⟨rejected, fun more records canonicals ordered separated => ?_⟩
          obtain ⟨tail, rfl, tailRecords⟩ := records_cons spelled (split ▸ records)
          exact other tail tailRecords (List.forall_mem_cons.mp canonicals).2 (by simpa using ordered)
            (by simpa using separated)
      · refine Or.inr ⟨⟨failure, by rw [rejected]; rfl⟩, fun more records canonicals ordered separated => ?_⟩
        cases more with
        | nil => exact absurd (records_nil records) (List.cons_ne_nil _ _)
        | cons row more =>
          obtain ⟨record, after, split, spelled⟩ := records_head records
          exact other record row.1 row.2 after split spelled (canonicals row List.mem_cons_self)
            (CertifiedRows.extends_of_append ordered separated)

end Represents

theorem Represents.start {source : Str} : Represents source ⟨⟨source, [], []⟩, []⟩ [] where
  source_eq := rfl
  arenaValid := Utf8.Valid.nil
  holds := List.Forall₂.nil
  certified := CertifiedRows.nil
  inRange := by simp
  chain := by simp

/-- The header is stripped exactly when the version line is present with its terminator. -/
theorem afterHeader_eq_some_iff {source body : Str} :
    ValidatedLockFile.afterHeader source = some body ↔
      ∃ terminator, source = VERSION ++ terminator ++ body ∧ IsTerminator terminator := by
  unfold ValidatedLockFile.afterHeader
  simp only [Option.bind_eq_bind, Option.bind_eq_some_iff, Str.stripPrefix_eq_some_iff, Option.or_eq_some_iff,
    Str.stripPrefix_eq_none_iff]
  constructor
  · rintro ⟨rest, rfl, rfl | ⟨-, rfl⟩⟩
    · exact ⟨_, by rw [List.append_assoc], Or.inr rfl⟩
    · exact ⟨_, by rw [List.append_assoc], Or.inl rfl⟩
  · rintro ⟨terminator, rfl, rfl | rfl⟩
    · refine ⟨[Byte.lineFeed] ++ body, by rw [List.append_assoc], Or.inr ⟨fun rest same => ?_, rfl⟩⟩
      exact absurd (List.cons.inj same).1 (by decide)
    · exact ⟨[Byte.carriageReturn, Byte.lineFeed] ++ body, by rw [List.append_assoc], Or.inl rfl⟩

/-- The version line and records spell at most one list of rows. -/
theorem framed_unique {text : Str} {rows rows' : List (Str × Oid)}
    (first : ∃ terminator body, text = VERSION ++ terminator ++ body ∧ IsTerminator terminator ∧ Records body rows)
    (second : ∃ terminator body, text = VERSION ++ terminator ++ body ∧ IsTerminator terminator ∧ Records body rows') :
    rows = rows' := by
  obtain ⟨terminator, body, same, ends, records⟩ := first
  obtain ⟨terminator', body', same', ends', records'⟩ := second
  have header := afterHeader_eq_some_iff.mpr ⟨terminator, same, ends⟩
  rw [afterHeader_eq_some_iff.mpr ⟨terminator', same', ends'⟩, Option.some.injEq] at header
  exact records_unique records (header ▸ records')

/-- A text is a document for at most one list of rows. -/
theorem LockFormat.Document.unique {text : Str} {rows rows' : List (Str × Oid)} (first : Document text rows)
    (second : Document text rows') : rows = rows' :=
  framed_unique first.framed second.framed

theorem version_ascii : ∀ byte ∈ VERSION, Utf8.IsAscii byte := Utf8.forall_mem_of_all (by decide)

/-- The reader accepts exactly the documents of the grammar and certifies the rows they denote. -/
theorem decode_cases (kernel : Kernel) {source : Str} (valid : Utf8.Valid source) :
    (∃ file rows, ValidatedLockFile.decode kernel source = .ok file ∧ Document source rows ∧
        List.Forall₂ (HoldsRow file) file.rows rows ∧ CertifiedRows rows) ∨
      (∃ failure, ValidatedLockFile.decode kernel source = Outcome.fail failure) ∧
        ∀ rows, ¬Document source rows := by
  unfold ValidatedLockFile.decode
  split
  · next empty =>
      refine Or.inr ⟨⟨_, rfl⟩, ?_⟩
      rintro rows ⟨⟨terminator, body, same, -⟩, -⟩
      rw [empty] at same
      exact absurd (congrArg List.length same) (by simp [VERSION, ascii])
  · cases header : ValidatedLockFile.afterHeader source with
    | none =>
      refine Or.inr ⟨⟨_, rfl⟩, ?_⟩
      rintro rows ⟨⟨terminator, body, same, ends, -⟩, -⟩
      rw [afterHeader_eq_some_iff.mpr ⟨terminator, same, ends⟩] at header
      simp at header
    | some body =>
      obtain ⟨terminator, same, ends⟩ := afterHeader_eq_some_iff.mp header
      have bodyValid : Utf8.Valid body := by
        rw [same] at valid
        refine Utf8.Valid.of_ascii_append _ (fun byte member => ?_) valid
        rcases List.mem_append.mp member with inVersion | inTerminator
        · exact version_ascii byte inVersion
        · rcases ends with rfl | rfl
          · exact Utf8.forall_mem_of_all (by decide) byte inTerminator
          · exact Utf8.forall_mem_of_all (by decide) byte inTerminator
      have position : source.length - body.length = (VERSION ++ terminator).length := by
        rw [same]
        simp only [List.length_append]
        omega
      simp only [position]
      rcases Represents.start.decodeRows_cases kernel same bodyValid with
        ⟨file, rows, decoded, records, holds, certified⟩ | ⟨rejected, other⟩
      · refine Or.inl ⟨file, rows, decoded, ?_, holds, certified⟩
        exact ⟨⟨terminator, body, same, ends, records⟩, certified.canonical, certified.ordered, certified.separated⟩
      · refine Or.inr ⟨rejected, ?_⟩
        rintro rows ⟨⟨terminator', body', same', ends', records⟩, canonical, ordered, separated⟩
        rw [afterHeader_eq_some_iff.mpr ⟨terminator', same', ends'⟩, Option.some.injEq] at header
        exact other rows (header ▸ records) canonical ordered separated

/-- The rows of a lock as the grammar's decoded rows. -/
def decodedRows (rows : List (GatPath × Oid)) : List (Str × Oid) :=
  rows.map fun row => (row.1.text, row.2)

/-- Certified rows are rows of typed paths. -/
theorem CertifiedRows.exists_decodedRows {rows : List (Str × Oid)} (certified : CertifiedRows rows) :
    ∃ typed, decodedRows typed = rows := by
  have typed : ∀ row ∈ rows, ∃ typedRow : GatPath × Oid, (typedRow.1.text, typedRow.2) = row :=
    fun row member => ⟨(⟨row.1, certified.utf8 row member,
      validateCanonicalStr_eq_ok_iff.mpr (certified.canonical row member)⟩, row.2), rfl⟩
  clear certified
  induction rows with
  | nil => exact ⟨[], rfl⟩
  | cons row rows ih =>
    rw [List.forall_mem_cons] at typed
    obtain ⟨head, rfl⟩ := typed.1
    obtain ⟨tail, rfl⟩ := ih typed.2
    exact ⟨head :: tail, rfl⟩

/-- A file that holds typed rows returns exactly them. -/
theorem semanticRows_eq {ε : Type} {file : ValidatedLockFile} {rows : List (GatPath × Oid)}
    (holds : List.Forall₂ (HoldsRow file) file.rows (decodedRows rows)) :
    (file.semanticRows : Outcome ε (List (GatPath × Oid))) = .ok rows := by
  unfold ValidatedLockFile.semanticRows
  generalize file.rows = stored at holds
  induction rows generalizing stored with
  | nil =>
    cases holds
    rfl
  | cons row rows ih =>
    obtain ⟨first, rest, head, tail, rfl⟩ := List.forall₂_cons_right_iff.mp holds
    rw [List.mapM_cons, head.path_eq, Outcome.ok_bind, GatPath.fromValidated_text, Outcome.ok_bind, Outcome.pure_eq_ok,
      Outcome.ok_bind, ih rest tail, Outcome.ok_bind, head.oid]
    rfl

end Gat
