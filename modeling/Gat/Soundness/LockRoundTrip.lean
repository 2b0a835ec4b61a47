import Gat.Proofs.LockCodec

/-! # Encoding and decoding locks

Writing and parsing are inverse up to the freedom each side has: a lock may list its entries in any
order, and a text may end its records in CRLF.
-/

namespace Gat

open LockFormat

/-- Parsing the text of a well-formed lock returns its entries sorted by path, and rewriting a parsed
text only turns its CRLF terminators into LF. -/
theorem lock_text_round_trip (kernel : Kernel) :
    (∀ lock : Lock, lock.WellFormed →
      ∃ text sorted, (lock.toText : Outcome LockDomainError Str) = .ok text ∧ Utf8.Valid text ∧
        Lock.parse kernel text = .ok sorted ∧ sorted.entries.Perm lock.entries ∧ StrictlySorted sorted.entries) ∧
    ∀ text lock, Utf8.Valid text → Lock.parse kernel text = .ok lock →
      (lock.toText : Outcome LockDomainError Str) = .ok (crlfToLf text) := by
  constructor
  · intro lock wellFormed
    have sorted := sortedEntries_strictlySorted wellFormed.unique
    have perm := sortedEntries_perm lock.entries
    have separated := wellFormed.separated.subset (perm.map fun entry => entry.path.text).subset
    exact ⟨_, ⟨_⟩, toText_eq lock, valid_render _, Lock.parse_render kernel sorted separated, perm, sorted⟩
  · intro text lock valid parsed
    have document := (Lock.parse_eq_ok_iff kernel valid).mp parsed
    rw [toText_eq, sortedEntries_of_strictlySorted (strictlySorted_of_ordered document.ordered),
      render_eq_crlfToLf document]

/-! ## A lock whose second entry sorts first -/

namespace UnsortedLock

def lock : Lock := ⟨[⟨.control, .filled 0x22⟩, ⟨.a, .filled 0x11⟩]⟩

def written : Str := VERSION ++ ascii "\n" ++ (List.replicate 64 0x31 ++ ascii "\ta\n") ++ (List.replicate 64 0x32 ++ ascii "\tb\\x01c\n")

/-- The version line and the second row end in CRLF. -/
def edited : Str := VERSION ++ ascii "\r\n" ++ (List.replicate 64 0x31 ++ ascii "\ta\n") ++ (List.replicate 64 0x32 ++ ascii "\tb\\x01c\r\n")

theorem wellFormed : lock.WellFormed := ⟨by decide, by decide⟩

end UnsortedLock

open UnsortedLock in
/-- The lock is written sorted and escaped, and read back from both line endings. -/
theorem lock_text_round_trip_unsorted :
    (lock.toText : Outcome LockDomainError Str) = .ok written ∧
      Lock.parse Kernel.scalar written = .ok ⟨[⟨.a, .filled 0x11⟩, ⟨.control, .filled 0x22⟩]⟩ ∧
      ∃ read, Lock.parse Kernel.scalar edited = .ok read ∧ (read.toText : Outcome LockDomainError Str) = .ok written := by
  obtain ⟨writes, reads⟩ := lock_text_round_trip Kernel.scalar
  have increasing : StrictlySorted [⟨.a, .filled 0x11⟩, ⟨.control, .filled 0x22⟩] := List.pairwise_pair.mpr (by decide)
  have swapped : lock.entries.Perm [⟨.a, .filled 0x11⟩, ⟨.control, .filled 0x22⟩] := List.Perm.swap ..
  obtain ⟨text, sorted, isText, -, parsed, perm, ordered⟩ := writes lock wellFormed
  have entries := ordered.eq_of_perm increasing (perm.trans swapped)
  have again := (sortedEntries_strictlySorted wellFormed.unique).eq_of_perm increasing ((sortedEntries_perm _).trans swapped)
  have same : lock.toText = (.ok written : Outcome LockDomainError Str) := by
    rw [toText_eq, again]
    exact congrArg _ (by decide +kernel)
  cases same.symm.trans isText
  refine ⟨same, by rw [parsed, ← entries], ?_⟩
  have valid : Utf8.Valid edited := Utf8.Valid.of_ascii (Utf8.forall_mem_of_all (by decide))
  have accepted : (Lock.parse Kernel.scalar edited).isOk := by decide +kernel
  cases read : Lock.parse Kernel.scalar edited with
  | error fault => rw [read] at accepted; cases accepted
  | ok lock => exact ⟨lock, rfl, (reads edited lock valid read).trans (congrArg _ (by decide +kernel))⟩

end Gat
