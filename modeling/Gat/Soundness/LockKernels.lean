import Gat.Proofs.LockKernels

/-! # Every backend is the oracle

Whatever vector extensions are detected, a row is decoded as the scalar kernel decodes it, and no load leaves its slice.
-/

open List

namespace Gat

/-- The capability of a backend. -/
def Kernel.ofBackend (backend : RowKernel.Backend) : Kernel where
  row hash path := (backend.row hash path : Outcome Empty DecodedRow).toOption.join
  row_eq_scalar hash path := by
    rw [backend.row_eq]
    rfl

/-- What is special besides one carriage return at the end. -/
theorem any_trimCarriageReturn_iff (field : Str) : (Str.trimCarriageReturn field).any isSpecial ↔
    ∃ index byte, field[index]? = some byte ∧ isSpecial byte ∧ ¬(index + 1 = field.length ∧ byte = Byte.carriageReturn) := by
  rw [any_eq_true]
  have trimmed := Str.trimCarriageReturn_cases field
  constructor
  · rintro ⟨byte, member, special⟩
    obtain ⟨index, inside, rfl⟩ := mem_iff_getElem.mp member
    rcases trimmed with framed | ⟨same, bare⟩
    · refine ⟨index, _, ?_, special, fun last => ?_⟩
      · conv_lhs => rw [framed]
        rw [getElem?_append_left inside, getElem?_eq_getElem inside]
      · have length := congrArg List.length framed
        rw [length_append, length_singleton] at length
        omega
    · simp only [same] at inside special ⊢
      refine ⟨index, _, getElem?_eq_getElem inside, special, fun last => bare ?_⟩
      have position : field.length - 1 = index := by omega
      rw [getLast?_eq_getElem?, position, getElem?_eq_getElem inside, last.2]
  · rintro ⟨index, byte, found, special, other⟩
    rcases trimmed with framed | ⟨same, -⟩
    · refine ⟨byte, ?_, special⟩
      have length := congrArg List.length framed
      rw [length_append, length_singleton] at length
      rw [framed] at found
      rcases Nat.lt_or_ge index (Str.trimCarriageReturn field).length with inside | outside
      · rw [getElem?_append_left inside] at found
        exact mem_of_getElem? found
      · obtain ⟨below, -⟩ := List.getElem?_eq_some_iff.mp found
        rw [length_append, length_singleton] at below
        have last : index = (Str.trimCarriageReturn field).length := by omega
        rw [last, getElem?_concat_length] at found
        exact absurd ⟨by omega, (Option.some.inj found).symm⟩ other
    · rw [same]
      exact ⟨byte, mem_of_getElem? found, special⟩

/-- Each kernel rejects, decodes and flags what the scalar kernel does. -/
theorem row_kernels_agree {ε : Type} (backend : RowKernel.Backend) (hash : HashField) (path : Str) :
    (backend.row hash path : Outcome ε DecodedRow) = .ok (scalar hash path) ∧
      ∀ oid stop special, scalar hash path = some (oid, stop, special) →
        decodeHash hash = some oid ∧ path.findIdx? (fun byte => byte = Byte.lineFeed) = some stop ∧
          (special ↔ ∃ index byte, (path.take stop)[index]? = some byte ∧ isSpecial byte ∧ ¬(index + 1 = stop ∧ byte = Byte.carriageReturn)) := by
  refine ⟨backend.row_eq hash path, fun oid stop special decoded => ?_⟩
  rw [RowKernel.scalar_eq, Option.bind_eq_some_iff] at decoded
  obtain ⟨found, digits, located⟩ := decoded
  rw [RowKernel.answer, Option.map_eq_some_iff] at located
  obtain ⟨position, ends, same⟩ := located
  simp only [Prod.mk.injEq] at same
  obtain ⟨rfl, rfl, rfl⟩ := same
  have length : (path.take position).length = position := length_take_of_le (findIdx?_eq_some_iff_getElem.mp ends).1.le
  have flagged := any_trimCarriageReturn_iff (path.take position)
  rw [length] at flagged
  exact ⟨digits, ends, flagged⟩

end Gat
