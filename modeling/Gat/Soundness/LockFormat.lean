import Gat.Proofs.LockReader

/-! # The reader accepts exactly the lock-v1 format

For every UTF-8 text the reader returns or reports a failure, it accepts exactly the documents of the
grammar, and the rows it returns are the ones the document denotes.
-/

namespace Gat

open LockFormat

/-- Parsing never panics, succeeds exactly on documents, and returns exactly the rows they denote. -/
theorem parse_iff_document (kernel : Kernel) {text : Str} (valid : Utf8.Valid text) :
    ValidatedLockFile.parse kernel text ≠ Outcome.panic ∧
      ((∃ file, ValidatedLockFile.parse kernel text = .ok file) ↔ ∃ rows, Document text rows) ∧
      ∀ file, ValidatedLockFile.parse kernel text = .ok file →
        ∃ rows, (file.semanticRows : Outcome LockDomainError _) = .ok rows ∧
          ∀ denoted, Document text denoted ↔ denoted = decodedRows rows := by
  rcases decode_cases kernel valid with ⟨file, rows, decoded, document, holds, certified⟩ | ⟨⟨failure, rejected⟩, other⟩
  · have parsed : ValidatedLockFile.parse kernel text = .ok file := decoded
    refine ⟨by simp [parsed], ⟨fun _ => ⟨rows, document⟩, fun _ => ⟨file, parsed⟩⟩, fun file' parsed' => ?_⟩
    obtain rfl : file = file' := by simpa [parsed] using parsed'
    obtain ⟨typed, rfl⟩ := certified.exists_decodedRows
    refine ⟨typed, semanticRows_eq holds, fun denoted => ⟨fun other => other.unique document, ?_⟩⟩
    rintro rfl
    exact document
  · have failed : ValidatedLockFile.parse kernel text = Outcome.fail failure := rejected
    refine ⟨by simp [failed], ⟨?_, ?_⟩, ?_⟩
    · rintro ⟨file, parsed⟩
      simp [failed] at parsed
    · rintro ⟨rows, document⟩
      exact absurd document (other rows)
    · intro file parsed
      simp [failed] at parsed

/-! ## A file with two rows -/

namespace EscapedRow

/-- The version line and the escaped row end in CRLF, the other row in LF. -/
def text : Str :=
  VERSION ++ ascii "\r\n" ++ (List.replicate 64 0x31 ++ ascii "\ta\n") ++ (List.replicate 64 0x32 ++ ascii "\tb\\x01c\r\n")

def rows : List (GatPath × Oid) := [(.a, .filled 0x11), (.control, .filled 0x22)]

end EscapedRow

open EscapedRow in
/-- The file is accepted with both rows, and denotes nothing else. -/
theorem parse_iff_document_escaped :
    ∃ file, ValidatedLockFile.parse Kernel.scalar text = .ok file ∧ (file.semanticRows : Outcome LockDomainError _) = .ok rows ∧
      Document text [(ascii "a", .filled 0x11), (ascii "b\x01c", .filled 0x22)] := by
  have valid : Utf8.Valid text := Utf8.Valid.of_ascii (Utf8.forall_mem_of_all (by decide))
  have run : (ValidatedLockFile.parse Kernel.scalar text >>= ValidatedLockFile.semanticRows) = .ok rows := by decide +kernel
  obtain ⟨file, parsed, read⟩ := Outcome.bind_eq_ok_iff.mp run
  obtain ⟨found, same, denotes⟩ := (parse_iff_document Kernel.scalar valid).2.2 file parsed
  cases same.symm.trans read
  exact ⟨file, parsed, read, (denotes _).mpr rfl⟩

end Gat
