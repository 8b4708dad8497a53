import FunctionAlgebra.Proofs.Exact

/-!
# Laws of scalars

What statements about all scalars rest on: how numbers are compared. Nothing is assumed of
arithmetic.

## Main definitions

* `LawfulScalar` — numbers other than NaN are ordered, and equal if neither is smaller.

## Main statements

* Exact numbers are lawful.
-/

namespace FunctionAlgebra

/-- Equality is symmetric and transitive, and of two numbers that are not NaN either one is smaller
or they are equal. Zero and one are two such numbers. -/
class LawfulScalar (α : Type) [Scalar α] : Prop extends PartialEquivBEq α where
  isNaN_zero : Scalar.isNaN (0 : α) = false
  isNaN_one : Scalar.isNaN (1 : α) = false
  one_beq_zero : ((1 : α) == 0) = false
  lt_asymm {a b : α} : Scalar.lt a b = true → Scalar.lt b a = false
  /-- A number which is not NaN lies above the smaller or below the greater one of two others. -/
  lt_or_lt {a b c : α} : Scalar.isNaN b = false → Scalar.lt a c = true →
    Scalar.lt a b = true ∨ Scalar.lt b c = true
  beq_iff {a b : α} : Scalar.isNaN a = false → Scalar.isNaN b = false →
    ((a == b) = true ↔ Scalar.lt a b = false ∧ Scalar.lt b a = false)

namespace LawfulScalar

variable {α : Type} [Scalar α] [LawfulScalar α]

theorem one_beq_one : ((1 : α) == 1) = true := by
  simpa [Scalar.isNaN] using isNaN_one

theorem zero_beq_zero : ((0 : α) == 0) = true := by
  simpa [Scalar.isNaN] using isNaN_zero

end LawfulScalar

instance : LawfulScalar Exact where
  symm {a b} h := by
    obtain ⟨rfl, ha⟩ := Exact.beq_iff.1 h
    exact h
  trans {a b c} h g := by
    obtain ⟨rfl, ha⟩ := Exact.beq_iff.1 h
    exact g
  isNaN_zero := Exact.isNaN_real 0
  isNaN_one := Exact.isNaN_real 1
  one_beq_zero := by simp [Exact.one_eq, Exact.zero_eq]
  lt_asymm {a b} h := by
    cases a <;> cases b <;> simp_all [Scalar.lt, Exact.lt, le_of_lt]
  lt_or_lt {a b c} hb h := by
    have hb : b ≠ .nan := fun h => by rw [← Exact.isNaN_iff, hb] at h; cases h
    cases a <;> cases b <;> cases c <;> simp_all [Scalar.lt, Exact.lt]
    rename_i a b c
    exact (lt_or_ge a b).imp_right fun hba => lt_of_le_of_lt hba h
  beq_iff {a b} ha hb := by
    cases a <;> cases b <;> simp_all [Scalar.lt, Exact.lt, Exact.beq_iff, Scalar.isNaN]
    · rename_i a b
      exact ⟨fun h => ⟨h.ge, h.le⟩, fun h => le_antisymm h.2 h.1⟩

end FunctionAlgebra
