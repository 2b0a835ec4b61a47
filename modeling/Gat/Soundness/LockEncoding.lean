import Gat.Model.LockEncoding
import Gat.Proofs.LockCodec

/-! # The row encoders agree

The writer hands its destination the literal spans of a path and the escapes between them. Joined, they are the spelling that
the formatter writes, whatever the destination does with the pieces, and resident text takes its fast path only where that
spelling is the path itself.
-/

namespace Gat

variable {ε σ : Type}

/-- The row writer's digits are those of identifiers. -/
theorem rowDigit_eq {index : UInt8} (half : index < 16) : (rowDigit index : Outcome ε UInt8) = .ok (hexDigit index) := by
  have bound : index.toNat < (ascii "0123456789abcdef").length := UInt8.lt_iff_toNat_lt.mp half
  rw [rowDigit, hexDigit, HEX_DIGITS, List.getD_eq_getElem?_getD, List.getElem?_eq_getElem bound]
  rfl

/-- The pieces of the rest of a path behind a literal run. -/
def pathPieces (literal : Str) : Str → List Str
  | [] => [literal]
  | byte :: rest =>
    if byte < 32 then literal :: [Byte.backslash, 0x78, hexDigit (byte >>> 4), hexDigit (byte &&& 0x0F)] :: pathPieces [] rest
    else pathPieces (literal ++ [byte]) rest

theorem flatten_pathPieces (literal path : Str) : (pathPieces literal path).flatten = literal ++ escape path := by
  induction path generalizing literal with
  | nil => simp [pathPieces, escape]
  | cons byte rest ih =>
    rw [pathPieces, escape]
    split_ifs with control
    · rw [List.flatten_cons, List.flatten_cons, ih, List.nil_append]
      rfl
    · rw [ih, List.append_assoc, List.singleton_append]

/-- Whatever the destination does, it is handed the pieces. -/
theorem writePath_eq (writeAll : σ → Str → Outcome ε σ) (before literal rest : Str) (out : σ) :
    writePath writeAll (before ++ (literal ++ rest)) out before.length rest (before.length + literal.length) =
      (pathPieces literal rest).foldlM writeAll out := by
  induction rest generalizing out before literal with
  | nil =>
    have span : (Str.sliceBytes (before ++ (literal ++ [])) before.length (before ++ (literal ++ [])).length : Outcome ε Str) = .ok literal := by
      have cut := @Str.sliceBytes_append ε before literal []
      rw [List.append_nil, ← List.length_append] at cut
      rw [List.append_nil]
      exact cut
    rw [writePath, span, Outcome.ok_bind, pathPieces, List.foldlM_cons]
    cases writeAll out literal <;> rfl
  | cons byte rest ih =>
    rw [writePath, pathPieces]
    split_ifs with control
    · obtain ⟨high, low, -⟩ := byte_halves byte
      rw [Str.sliceBytes_append, Outcome.ok_bind, List.foldlM_cons]
      refine congrArg (writeAll out literal >>= ·) (funext fun out => ?_)
      rw [rowDigit_eq high, Outcome.ok_bind, rowDigit_eq low, Outcome.ok_bind, List.foldlM_cons]
      refine congrArg (writeAll out _ >>= ·) (funext fun out => ?_)
      have later := ih (before ++ literal ++ [byte]) [] out
      simpa [Nat.add_assoc] using later
    · have later := ih before (literal ++ [byte]) out
      simpa [Nat.add_assoc] using later

/-- The pieces of a row. -/
def rowPieces (entry : Entry) : List Str := entry.oid.encodeHex :: [Byte.tab] :: (pathPieces [] entry.path.text ++ [[Byte.lineFeed]])

theorem flatten_rowPieces (entry : Entry) : (rowPieces entry).flatten = renderEntry entry := by
  rw [rowPieces, List.flatten_cons, List.flatten_cons, List.flatten_append, flatten_pathPieces]
  simp [renderEntry]

theorem writeRow_eq (writeAll : σ → Str → Outcome ε σ) (out : σ) (entry : Entry) :
    writeRow writeAll out entry = (rowPieces entry).foldlM writeAll out := by
  have path (out : σ) := writePath_eq writeAll [] [] entry.path.text out
  simp only [List.nil_append, List.length_nil, Nat.add_zero] at path
  simp only [writeRow, rowPieces, List.foldlM_cons, List.foldlM_append, path, List.foldlM_nil, bind_pure]

/-- A buffer joins the pieces. -/
theorem foldlM_bufferWriteAll (pieces : List Str) (out : Str) :
    (pieces.foldlM bufferWriteAll out : Outcome ε Str) = .ok (out ++ pieces.flatten) := by
  induction pieces generalizing out with
  | nil => simp
  | cons piece pieces ih => rw [List.foldlM_cons, bufferWriteAll, Outcome.ok_bind, ih, List.flatten_cons, List.append_assoc]

/-- Without a control character a path is its own spelling. -/
theorem escape_of_plain {path : Str} (plain : path.any (· < 32) = false) : escape path = path := by
  induction path with
  | nil => rfl
  | cons byte rest ih =>
    rw [List.any_cons, Bool.or_eq_false_iff] at plain
    rw [escape, if_neg (of_decide_eq_false plain.1), ih plain.2]

theorem appendRow_eq (out : Str) (entry : Entry) : (appendRow out entry : Outcome ε Str) = .ok (out ++ renderEntry entry) := by
  unfold appendRow
  split_ifs with control
  · rw [escapedPath_eq]
    simp [renderEntry]
  · have plain := escape_of_plain (eq_false_of_ne_true control)
    simp [renderEntry, plain]

theorem encode_eq (writeAll : σ → Str → Outcome ε σ) (out : σ) (entries : List Entry) :
    encode writeAll out entries = (VERSION :: [Byte.lineFeed] :: entries.flatMap rowPieces).foldlM writeAll out := by
  have rows (out : σ) : entries.foldlM (writeRow writeAll) out = (entries.flatMap rowPieces).foldlM writeAll out := by
    induction entries generalizing out with
    | nil => rfl
    | cons entry entries ih => simp only [List.foldlM_cons, List.flatMap_cons, List.foldlM_append, writeRow_eq, ih]
  simp only [encode, writeHeader, rows, List.foldlM_cons, bind_assoc]

/-- Entries in path order are the sorted entries, unless a path repeats with different identifiers. -/
theorem sortedEntries_of_perm {entries others : List Entry} (perm : others.Perm entries)
    (sorted : others.Pairwise fun left right => left.path ≤ right.path)
    (functional : ∀ left ∈ entries, ∀ right ∈ entries, left.path = right.path → left = right) :
    others = Lock.sortedEntries entries := by
  have same := perm.trans (sortedEntries_perm entries).symm
  refine same.eq_of_pairwise ?_ sorted (sortedEntries_pairwise_le entries)
  intro left right listed listed' below above
  exact functional left (perm.mem_iff.mp listed) right ((sortedEntries_perm entries).mem_iff.mp listed') (le_antisymm below above)

/-- For every entry the formatter, the resident writer and the row writer give the same bytes, and whatever the destination, the
row writer hands it exactly these bytes in order. So the streamed header and rows of entries in path order are the text of their
lock. -/
theorem row_encoders_agree :
    (∀ entry : Entry, ∃ (row : Str) (pieces : List Str), (Lock.entryLine entry : Outcome ε Str) = .ok row ∧
      (∀ out, (appendRow out entry : Outcome ε Str) = .ok (out ++ row)) ∧
      (∀ out, (writeRow bufferWriteAll out entry : Outcome ε Str) = .ok (out ++ row)) ∧
      pieces.flatten = row ∧ ∀ (writeAll : σ → Str → Outcome ε σ) (out : σ), writeRow writeAll out entry = pieces.foldlM writeAll out) ∧
    (∀ lock : Lock, (encode bufferWriteAll [] (Lock.sortedEntries lock.entries) : Outcome ε Str) = lock.toText) ∧
    ∀ (lock : Lock) (entries : List Entry), entries.Perm lock.entries → (entries.Pairwise fun left right => left.path ≤ right.path) →
      (∀ left ∈ lock.entries, ∀ right ∈ lock.entries, left.path = right.path → left = right) →
      (encode bufferWriteAll [] entries : Outcome ε Str) = lock.toText := by
  have text (lock : Lock) : (encode bufferWriteAll [] (Lock.sortedEntries lock.entries) : Outcome ε Str) = lock.toText := by
    rw [toText_eq, encode_eq, foldlM_bufferWriteAll, List.nil_append, List.flatten_cons, List.flatten_cons, render]
    have rows : ((Lock.sortedEntries lock.entries).flatMap rowPieces).flatten = (Lock.sortedEntries lock.entries).flatMap renderEntry := by
      induction Lock.sortedEntries lock.entries with
      | nil => rfl
      | cons entry entries ih => rw [List.flatMap_cons, List.flatten_append, ih, flatten_rowPieces, List.flatMap_cons]
    rw [rows, List.append_assoc]
  refine ⟨?_, text, ?_⟩
  · intro entry
    refine ⟨renderEntry entry, rowPieces entry, ?_, fun out => appendRow_eq out entry, ?_, flatten_rowPieces entry, ?_⟩
    · rw [Lock.entryLine, escapedPath_eq]
      rfl
    · intro out
      rw [writeRow_eq, foldlM_bufferWriteAll, flatten_rowPieces]
    · intro writeAll out
      exact writeRow_eq writeAll out entry
  · intro lock entries perm sorted functional
    rw [sortedEntries_of_perm perm sorted functional, text lock]

/-- The rows of two files in path order, one with a control character between plain ones, are the text of a lock that lists them
the other way round. The row writer hands the plain spans and the escape over as pieces of their own. -/
theorem row_encoders_agree_escaped :
    (encode bufferWriteAll [] [⟨.a, .filled 1⟩, ⟨.control, .filled 2⟩] : Outcome Unit Str) =
        (⟨[⟨.control, .filled 2⟩, ⟨.a, .filled 1⟩]⟩ : Lock).toText ∧
      (writeRow (fun out piece => .ok (out ++ [piece])) [] ⟨.control, .filled 2⟩ : Outcome Unit (List Str)) =
        .ok [(Oid.filled 2).encodeHex, [Byte.tab], ascii "b", ascii "\\x01", ascii "c", [Byte.lineFeed]] := by
  refine ⟨?_, by decide +kernel⟩
  refine (@row_encoders_agree Unit Unit).2.2 ⟨[⟨.control, .filled 2⟩, ⟨.a, .filled 1⟩]⟩ [⟨.a, .filled 1⟩, ⟨.control, .filled 2⟩]
    (List.Perm.swap ..) (by decide) ?_
  decide

end Gat
