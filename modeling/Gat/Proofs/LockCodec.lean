import Gat.Model.LockCodec
import Gat.Proofs.LockReader
import Gat.ToMathlib.SortedMap

/-! # Writing locks

The writer's spans around escaped bytes compute the one spelling that the grammar gives a path without
backslashes, so the text of a lock is a document for its sorted entries.
-/

namespace Gat

open LockFormat AncestorFree

/-- The canonical spelling of a path. -/
def escape : Str → Str
  | [] => []
  | byte :: rest =>
    if byte < 32 then Byte.backslash :: 0x78 :: hexDigit (byte >>> 4) :: hexDigit (byte &&& 0x0F) :: escape rest
    else byte :: escape rest

/-- The formatter spells a control byte with the digits of the table. -/
theorem lowerHex_eq (byte : UInt8) : lowerHex byte = [hexDigit (byte >>> 4), hexDigit (byte &&& 0x0F)] := by
  have table : ∀ value : Fin 256, lowerHex (UInt8.ofNat value) = [hexDigit (UInt8.ofNat value >>> 4), hexDigit (UInt8.ofNat value &&& 0x0F)] := by
    decide +kernel
  simpa using table ⟨byte.toNat, byte.toNat_lt⟩

/-- The writer after the literal run `literal` writes the run and the spelling of the remaining bytes. -/
private theorem writeEscaped_eq {ε : Type} (out before literal rest : Str) (valid : Utf8.Valid (literal ++ rest)) :
    (writeEscaped (before ++ (literal ++ rest)) out before.length rest (before.length + literal.length) : Outcome ε Str) =
      .ok (out ++ literal ++ escape rest) := by
  induction rest generalizing out before literal with
  | nil =>
    rw [List.append_nil] at valid ⊢
    rw [writeEscaped, Str.Spans.sliceFrom_eq valid]
    simp [escape]
  | cons byte rest ih =>
    rw [writeEscaped, escape]
    by_cases control : byte < 32
    · have byteAscii : Utf8.IsAscii byte := lt_trans control (by decide)
      have restValid := (Utf8.Valid.split_ascii byteAscii valid).2
      have spans : Str.Spans (before ++ (literal ++ byte :: rest)) before.length literal := by
        refine ⟨before, _, rfl, rfl, Utf8.isBoundary_append valid, ?_⟩
        rw [← List.append_assoc, ← List.length_append]
        exact Utf8.isBoundary_before_ascii byteAscii
      have next := ih (out ++ literal ++ [Byte.backslash, 0x78, hexDigit (byte >>> 4), hexDigit (byte &&& 0x0F)])
        (before ++ literal ++ [byte]) [] restValid
      simp only [List.append_assoc, List.cons_append, List.nil_append, List.length_append, List.length_singleton,
        List.length_nil, Nat.add_zero, ← Nat.add_assoc] at next
      rw [if_pos control, if_pos control, spans.slice_eq, Outcome.ok_bind, lowerHex_eq]
      simpa using next
    · have next := ih out before (literal ++ [byte]) (by simpa using valid)
      rw [if_neg control, if_neg control]
      simpa [List.append_assoc, ← Nat.add_assoc] using next

/-- Displaying an escaped path never panics and gives the canonical spelling. -/
theorem escapedPath_eq {ε : Type} (path : GatPath) : (escapedPath path : Outcome ε Str) = .ok (escape path.text) := by
  have whole := writeEscaped_eq (ε := ε) [] [] [] path.text path.utf8
  simpa only [escapedPath, List.nil_append, List.length_nil, Nat.add_zero] using whole

/-- The grammar gives every path without backslashes exactly its canonical spelling. -/
theorem escapes_iff {escaped path : Str} : Escapes escaped path ↔ Byte.backslash ∉ path ∧ escaped = escape path := by
  constructor
  · intro spelled
    induction spelled with
    | nil => exact ⟨by simp, rfl⟩
    | literal printable plain _ ih =>
      obtain ⟨absent, rfl⟩ := ih
      rw [escape, if_neg (not_lt.mpr printable)]
      exact ⟨by simpa [plain.symm] using absent, rfl⟩
    | @control high low escaped path lowBound isControl highBound _ ih =>
      obtain ⟨absent, rfl⟩ := ih
      obtain ⟨highHalf, lowHalf⟩ := halves_of_digits highBound lowBound
      rw [escape, if_pos isControl, highHalf, lowHalf]
      refine ⟨?_, rfl⟩
      rw [List.mem_cons, not_or]
      refine ⟨fun same => ?_, absent⟩
      rw [← same] at isControl
      exact absurd isControl (by decide)
  · rintro ⟨absent, rfl⟩
    induction path with
    | nil => exact Escapes.nil
    | cons byte path ih =>
      rw [List.mem_cons, not_or] at absent
      rw [escape]
      split
      · next control =>
          obtain ⟨highBound, lowBound, whole⟩ := byte_halves byte
          have spelled := Escapes.control lowBound (by rw [whole]; exact control) highBound (ih absent.2)
          rwa [whole] at spelled
      · next printable => exact Escapes.literal (not_lt.mp printable) (Ne.symm absent.1) (ih absent.2)

/-- Escaping keeps the text valid, also behind any text that precedes it. -/
private theorem valid_append_escape (before : Str) {path : Str} (valid : Utf8.Valid (before ++ path)) :
    Utf8.Valid (before ++ escape path) := by
  induction path generalizing before with
  | nil => exact valid
  | cons byte path ih =>
    rw [escape]
    split
    · next control =>
        obtain ⟨beforeValid, pathValid⟩ := Utf8.Valid.split_ascii (lt_trans control (by decide)) valid
        obtain ⟨highBound, lowBound, -⟩ := byte_halves byte
        refine beforeValid.append ?_
        have tail := ih [] pathValid
        exact Utf8.Valid.cons_ascii (by decide) (Utf8.Valid.cons_ascii (by decide)
          (Utf8.Valid.cons_ascii (hexDigit_ascii highBound) (Utf8.Valid.cons_ascii (hexDigit_ascii lowBound) tail)))
    · have grown := ih (before ++ [byte]) (by simpa using valid)
      simpa using grown

theorem valid_escape {path : Str} (valid : Utf8.Valid path) : Utf8.Valid (escape path) :=
  valid_append_escape [] valid

/-- A letter other than the separator lies in some component. -/
private theorem exists_component_of_mem {separator letter : UInt8} {path : Str} (member : letter ∈ path)
    (other : letter ≠ separator) : ∃ component ∈ path.splitOn separator, letter ∈ component := by
  rw [← show [separator].intercalate (path.splitOn separator) = path from List.intercalate_splitOn separator] at member
  generalize path.splitOn separator = components at member
  induction components with
  | nil => simp [List.intercalate] at member
  | cons component components ih =>
    cases components with
    | nil => exact ⟨component, by simp, by simpa [List.intercalate] using member⟩
    | cons next components =>
      rw [List.intercalate_cons_cons, List.mem_append, List.mem_append, List.mem_singleton] at member
      rcases member with (here | same) | later
      · exact ⟨component, List.mem_cons_self, here⟩
      · exact absurd same other
      · obtain ⟨found, listed, inside⟩ := ih later
        exact ⟨found, List.mem_cons_of_mem _ listed, inside⟩

theorem LockFormat.IsCanonical.no_backslash {path : Str} (canonical : IsCanonical path) : Byte.backslash ∉ path := by
  intro member
  obtain ⟨component, listed, inside⟩ := exists_component_of_mem member (show Byte.backslash ≠ Byte.slash by decide)
  exact (canonical.2 component listed).2.2.2 inside

theorem escapes_escape (path : GatPath) : Escapes (escape path.text) path.text :=
  escapes_iff.mpr ⟨path.isCanonical.no_backslash, rfl⟩

/-! ## Ordered entries -/

/-- Entries in the form of the grammar's rows. -/
def decodedEntries (entries : List Entry) : List (Str × Oid) :=
  entries.map fun entry => (entry.path.text, entry.oid)

theorem decodedEntries_injective : Function.Injective decodedEntries := by
  refine List.map_injective_iff.mpr fun left right same => ?_
  obtain ⟨samePath, sameOid⟩ := Prod.mk.inj same
  cases left
  cases right
  rw [Entry.mk.injEq]
  exact ⟨GatPath.ext samePath, sameOid⟩

theorem map_fst_decodedEntries (entries : List Entry) :
    (decodedEntries entries).map Prod.fst = entries.map fun entry => entry.path.text := by
  rw [decodedEntries, List.map_map]
  rfl

/-- Entries in strictly increasing path order. -/
def StrictlySorted (entries : List Entry) : Prop := entries.Pairwise fun left right => left.path < right.path

theorem StrictlySorted.ordered {entries : List Entry} (sorted : StrictlySorted entries) :
    ((decodedEntries entries).map Prod.fst).Pairwise (· < ·) := by
  rw [map_fst_decodedEntries]
  exact List.pairwise_map.mpr sorted

theorem strictlySorted_of_ordered {entries : List Entry}
    (ordered : ((decodedEntries entries).map Prod.fst).Pairwise (· < ·)) : StrictlySorted entries := by
  rw [map_fst_decodedEntries] at ordered
  exact (List.pairwise_map (f := fun entry : Entry => entry.path.text)).mp ordered

/-- A lock with one entry per path and without an ancestor pair. -/
structure Lock.WellFormed (lock : Lock) : Prop where
  unique : (lock.entries.map Entry.path).Nodup
  separated : Separated Byte.slash lock.paths

theorem sortedEntries_perm (entries : List Entry) : (Lock.sortedEntries entries).Perm entries :=
  List.mergeSort_perm _ _

theorem sortedEntries_pairwise_le (entries : List Entry) :
    (Lock.sortedEntries entries).Pairwise fun left right => left.path ≤ right.path := by
  have sorted : (Lock.sortedEntries entries).Pairwise fun left right => decide (left.path ≤ right.path) := by
    refine List.pairwise_mergeSort (fun first second third => ?_) (fun left right => ?_) entries
    · simpa only [decide_eq_true_eq] using le_trans
    · simpa only [Bool.or_eq_true, decide_eq_true_eq] using le_total left.path right.path
  exact sorted.imp fun below => of_decide_eq_true below

/-- Sorting entries with unique paths orders them strictly. -/
theorem sortedEntries_strictlySorted {entries : List Entry} (unique : (entries.map Entry.path).Nodup) :
    StrictlySorted (Lock.sortedEntries entries) := by
  have distinct : (Lock.sortedEntries entries).Pairwise fun left right => left.path ≠ right.path :=
    List.pairwise_map.mp (((sortedEntries_perm entries).map Entry.path).nodup_iff.mpr unique)
  exact ((sortedEntries_pairwise_le entries).and distinct).imp fun both => lt_of_le_of_ne both.1 both.2

theorem sortedEntries_of_strictlySorted {entries : List Entry} (sorted : StrictlySorted entries) :
    Lock.sortedEntries entries = entries :=
  List.mergeSort_of_pairwise (sorted.imp fun below => by simpa using le_of_lt below)

/-- Strictly sorted lists with the same entries are equal. -/
theorem StrictlySorted.eq_of_perm {entries others : List Entry} (sorted : StrictlySorted entries)
    (otherSorted : StrictlySorted others) (perm : entries.Perm others) : entries = others :=
  perm.eq_of_pairwise (fun _ _ _ _ below above => absurd below (lt_asymm above)) sorted otherSorted

/-! ## Values of a lock -/

/-- The identifier a lock tracks at a path. -/
def Lock.oidAt (lock : Lock) (path : GatPath) : Option Oid :=
  (lock.entries.find? fun entry => entry.path = path).map Entry.oid

/-- Every path has at most one entry. -/
def Lock.UniquePaths (lock : Lock) : Prop := (lock.entries.map Entry.path).Nodup

theorem Lock.oidAt_eq_some_iff {lock : Lock} (unique : lock.UniquePaths) {path : GatPath} {oid : Oid} :
    lock.oidAt path = some oid ↔ ⟨path, oid⟩ ∈ lock.entries := by
  obtain ⟨entries⟩ := lock
  unfold oidAt
  change (entries.map Entry.path).Nodup at unique
  induction entries with
  | nil => simp
  | cons head rest ih =>
    rw [List.map_cons, List.nodup_cons] at unique
    dsimp only at ih ⊢
    rw [List.find?_cons, List.mem_cons]
    by_cases same : head.path = path
    · simp only [same, decide_true, Option.map_some, Option.some.injEq]
      constructor
      · rintro rfl
        exact Or.inl (by rw [← same])
      · rintro (rfl | later)
        · rfl
        · exact absurd (List.mem_map_of_mem (f := Entry.path) later) (same ▸ unique.1)
    · simp only [same, decide_false]
      rw [ih unique.2]
      refine ⟨Or.inr, ?_⟩
      rintro (rfl | later)
      · exact absurd rfl same
      · exact later

theorem Lock.oidAt_eq_none_iff {lock : Lock} {path : GatPath} :
    lock.oidAt path = none ↔ ∀ entry ∈ lock.entries, entry.path ≠ path := by
  unfold oidAt
  rw [Option.map_eq_none_iff, List.find?_eq_none]
  simp

theorem StrictlySorted.uniquePaths {entries : List Entry} (sorted : StrictlySorted entries) :
    Lock.UniquePaths ⟨entries⟩ :=
  List.pairwise_map.mpr (sorted.imp ne_of_lt)

/-! ## The text of a lock -/

def renderEntry (entry : Entry) : Str :=
  entry.oid.encodeHex ++ Byte.tab :: (escape entry.path.text ++ [Byte.lineFeed])

/-- The version line and the lines of the entries in the given order. -/
def render (entries : List Entry) : Str := VERSION ++ [Byte.lineFeed] ++ entries.flatMap renderEntry

/-- Writing a lock never panics and writes the lines of its sorted entries. -/
theorem toText_eq {ε : Type} (lock : Lock) :
    (lock.toText : Outcome ε Str) = .ok (render (Lock.sortedEntries lock.entries)) := by
  have lines (entries : List Entry) : (entries.mapM Lock.entryLine : Outcome ε (List Str)) = .ok (entries.map renderEntry) := by
    induction entries with
    | nil => rfl
    | cons entry entries ih =>
      rw [List.mapM_cons, ih, Lock.entryLine, escapedPath_eq]
      rfl
  rw [Lock.toText, lines, Outcome.ok_bind, render, List.flatMap]
  rfl

theorem encodeHex_ascii (oid : Oid) : ∀ byte ∈ oid.encodeHex, Utf8.IsAscii byte := by
  have table : ∀ byte ∈ HEX_DIGITS, Utf8.IsAscii byte := Utf8.forall_mem_of_all (by decide)
  exact fun byte member => table byte ((hexSpells_encodeHex oid).mem_hexDigits byte member)

theorem valid_render (entries : List Entry) : Utf8.Valid (render entries) := by
  refine Utf8.Valid.append (Utf8.Valid.of_ascii (Utf8.forall_mem_of_all (by decide))) ?_
  induction entries with
  | nil => exact Utf8.Valid.nil
  | cons entry entries ih =>
    refine Utf8.Valid.append (Utf8.Valid.append (Utf8.Valid.of_ascii (encodeHex_ascii entry.oid)) ?_) ih
    exact Utf8.Valid.cons_ascii (by decide) ((valid_escape entry.path.utf8).append (Utf8.Valid.of_ascii (Utf8.forall_mem_of_all (by decide))))

/-- The text of entries in any order is the version line and their records. -/
theorem framed_render (entries : List Entry) :
    ∃ terminator body, render entries = VERSION ++ terminator ++ body ∧ IsTerminator terminator ∧ Records body (decodedEntries entries) := by
  refine ⟨[Byte.lineFeed], entries.flatMap renderEntry, rfl, Or.inl rfl, ?_⟩
  induction entries with
  | nil => exact Records.nil
  | cons entry entries ih =>
    have head : Record (renderEntry entry) entry.path.text entry.oid :=
      ⟨_, _, _, rfl, hexSpells_encodeHex entry.oid, escapes_escape entry.path, Or.inl rfl⟩
    exact Records.cons head ih

/-- The text of sorted separated entries is a document for them. -/
theorem document_render {entries : List Entry} (sorted : StrictlySorted entries)
    (separated : Separated Byte.slash (entries.map fun entry => entry.path.text)) :
    Document (render entries) (decodedEntries entries) where
  framed := framed_render entries
  canonical := by
    intro row member
    obtain ⟨entry, -, rfl⟩ := List.mem_map.mp member
    exact entry.path.isCanonical
  ordered := sorted.ordered
  separated := by rwa [map_fst_decodedEntries]

/-- Parsing returns a lock exactly when the text is a document for its entries. -/
theorem Lock.parse_eq_ok_iff (kernel : Kernel) {text : Str} (valid : Utf8.Valid text) {lock : Lock} :
    Lock.parse kernel text = .ok lock ↔ Document text (decodedEntries lock.entries) := by
  have asEntries (rows : List (GatPath × Oid)) :
      decodedEntries (rows.map fun row => ⟨row.1, row.2⟩) = decodedRows rows := by
    rw [decodedEntries, List.map_map]
    rfl
  unfold Lock.parse
  rcases decode_cases kernel valid with ⟨file, rows, decoded, document, holds, certified⟩ | ⟨⟨failure, rejected⟩, other⟩
  · obtain ⟨typed, rfl⟩ := certified.exists_decodedRows
    rw [show ValidatedLockFile.parse kernel text = .ok file from decoded, Outcome.ok_bind, semanticRows_eq holds,
      Outcome.ok_bind, Outcome.pure_eq_ok, Except.ok.injEq]
    constructor
    · rintro rfl
      rwa [asEntries]
    · intro denoted
      have same := document.unique denoted
      rw [← asEntries] at same
      cases lock
      rw [decodedEntries_injective same]
  · rw [show ValidatedLockFile.parse kernel text = Outcome.fail failure from rejected, Outcome.fail_bind]
    exact iff_of_false (Outcome.fail_ne_ok _ _) (other _)

theorem Lock.parse_ne_panic (kernel : Kernel) {text : Str} (valid : Utf8.Valid text) :
    Lock.parse kernel text ≠ Outcome.panic := by
  unfold Lock.parse
  rcases decode_cases kernel valid with ⟨file, rows, decoded, -, holds, certified⟩ | ⟨⟨failure, rejected⟩, -⟩
  · obtain ⟨typed, rfl⟩ := certified.exists_decodedRows
    rw [show ValidatedLockFile.parse kernel text = .ok file from decoded, Outcome.ok_bind, semanticRows_eq holds,
      Outcome.ok_bind]
    exact Outcome.ok_ne_panic _
  · rw [show ValidatedLockFile.parse kernel text = Outcome.fail failure from rejected, Outcome.fail_bind]
    exact Outcome.fail_ne_panic _

/-- Writing a well-formed lock and parsing the text gives its sorted entries back. -/
theorem Lock.parse_render (kernel : Kernel) {entries : List Entry} (sorted : StrictlySorted entries)
    (separated : Separated Byte.slash (entries.map fun entry => entry.path.text)) :
    Lock.parse kernel (render entries) = .ok ⟨entries⟩ :=
  (Lock.parse_eq_ok_iff kernel (valid_render entries)).mpr (document_render sorted separated)

/-! ## Line endings -/

/-- Replace each CRLF by LF and keep everything else. -/
def crlfToLf : Str → Str
  | 0x0D :: 0x0A :: rest => 0x0A :: crlfToLf rest
  | byte :: rest => byte :: crlfToLf rest
  | [] => []

private theorem crlfToLf_append {text : Str} (absent : Byte.carriageReturn ∉ text) (rest : Str) :
    crlfToLf (text ++ rest) = text ++ crlfToLf rest := by
  induction text with
  | nil => rfl
  | cons byte text ih =>
    rw [List.mem_cons, not_or] at absent
    rw [List.cons_append, crlfToLf, ih absent.2]
    · rfl
    · rintro _ rfl -
      exact absent.1 rfl

private theorem crlfToLf_terminator {terminator : Str} (ends : IsTerminator terminator) (rest : Str) :
    crlfToLf (terminator ++ rest) = Byte.lineFeed :: crlfToLf rest := by
  rcases ends with rfl | rfl
  · exact crlfToLf_append (show Byte.carriageReturn ∉ [Byte.lineFeed] by decide) rest
  · rfl

private theorem crlfToLf_records {text : Str} {entries : List Entry}
    (records : Records text (decodedEntries entries)) : crlfToLf text = entries.flatMap renderEntry := by
  induction entries generalizing text with
  | nil => rw [records_nil records]; rfl
  | cons entry entries ih =>
    obtain ⟨record, after, rfl, digits, escaped, terminator, rfl, hex, escapes, ends⟩ := records_head records
    have spelled : Record _ entry.path.text entry.oid := ⟨digits, escaped, terminator, rfl, hex, escapes, ends⟩
    obtain ⟨tail, same, tailRecords⟩ := records_cons spelled records
    obtain rfl : decodedEntries entries = tail := (List.cons.inj same).2
    have spelling := (escapes_iff.mp escapes).2
    dsimp only at escapes spelling hex
    have noDigit : Byte.carriageReturn ∉ digits := fun member =>
      absurd (hex.mem_hexDigits _ member) (by decide)
    have noEscaped : Byte.carriageReturn ∉ escaped := fun member => absurd (escapes.printable _ member) (by decide)
    have head : Byte.carriageReturn ∉ digits ++ Byte.tab :: escaped := by
      simp only [List.mem_append, List.mem_cons, not_or]
      exact ⟨noDigit, by decide, noEscaped⟩
    calc crlfToLf (digits ++ Byte.tab :: (escaped ++ terminator) ++ after)
        = crlfToLf ((digits ++ Byte.tab :: escaped) ++ (terminator ++ after)) := by simp
      _ = (digits ++ Byte.tab :: escaped) ++ Byte.lineFeed :: crlfToLf after := by
          rw [crlfToLf_append head, crlfToLf_terminator ends]
      _ = renderEntry entry ++ entries.flatMap renderEntry := by
          rw [ih tailRecords, renderEntry, hexSpells_iff.mp hex, spelling]
          simp

/-- A document for some entries differs from their text only in its line endings. -/
theorem render_eq_crlfToLf {text : Str} {entries : List Entry} (document : Document text (decodedEntries entries)) :
    render entries = crlfToLf text := by
  obtain ⟨⟨terminator, body, rfl, ends, records⟩, -⟩ := document
  rw [List.append_assoc, crlfToLf_append (by decide), crlfToLf_terminator ends, crlfToLf_records records, render]
  simp

end Gat
