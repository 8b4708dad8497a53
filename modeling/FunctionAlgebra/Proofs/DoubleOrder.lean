import FunctionAlgebra.Double
import FunctionAlgebra.Proofs.Laws
import Mathlib

/-!
# The order of doubles

## Main definitions

* `Double.place` — the place of a double in the order of numbers.

## Main statements

* Doubles are lawful scalars.
-/

namespace FunctionAlgebra

open Float.Model

namespace Double

/-- The place in the order of numbers: the sign, with infinities outermost, then exponent and
mantissa, which count backwards below zero. A NaN has no place of its own. -/
def place : UnpackedFloat → ℤ ×ₗ ℤ ×ₗ ℤ
  | .infinity .positive => toLex (2, toLex (0, 0))
  | .infinity .negative => toLex (-2, toLex (0, 0))
  | .notANumber => toLex (0, toLex (0, 0))
  | .zero _ => toLex (0, toLex (0, 0))
  | .finite .positive m e _ => toLex (1, toLex (e, m))
  | .finite .negative m e _ => toLex (-1, toLex (-e, -m))

theorem unpacked_lt_iff {a b : UnpackedFloat} :
    a.lt b = true ↔ a.isNaN = false ∧ b.isNaN = false ∧ place a < place b := by
  rw [UnpackedFloat.lt, beq_iff_eq]
  rcases a with (_ | _) | _ | _ | ⟨_ | _, m, e, hm⟩ <;>
    rcases b with (_ | _) | _ | _ | ⟨_ | _, n, g, hn⟩ <;>
    simp [UnpackedFloat.isNaN, UnpackedFloat.compare, place, Prod.Lex.toLex_lt_toLex,
      Ordering.then_eq_lt, Ordering.then_eq_gt, compare_lt_iff_lt, compare_gt_iff_gt]
  all_goals decide

theorem unpacked_beq_iff {a b : UnpackedFloat} :
    a.beq b = true ↔ a.isNaN = false ∧ b.isNaN = false ∧ place a = place b := by
  rw [UnpackedFloat.beq, beq_iff_eq]
  rcases a with (_ | _) | _ | _ | ⟨_ | _, m, e, hm⟩ <;>
    rcases b with (_ | _) | _ | _ | ⟨_ | _, n, g, hn⟩ <;>
    simp [UnpackedFloat.isNaN, UnpackedFloat.compare, place]
  all_goals decide

/-- A double is smaller than another if both are numbers and its place comes first. -/
theorem lt_iff {a b : Float} : Scalar.lt a b = true ↔
    a.toModel.unpack.isNaN = false ∧ b.toModel.unpack.isNaN = false ∧
      place a.toModel.unpack < place b.toModel.unpack := by
  rw [← unpacked_lt_iff]
  exact decide_eq_true_iff.trans (decide_eq_true_iff (p := a.toModel < b.toModel))

theorem beq_iff {a b : Float} : (a == b) = true ↔
    a.toModel.unpack.isNaN = false ∧ b.toModel.unpack.isNaN = false ∧
      place a.toModel.unpack = place b.toModel.unpack :=
  unpacked_beq_iff

theorem isNaN_eq (a : Float) : Scalar.isNaN a = a.toModel.unpack.isNaN := by
  have h := beq_iff (a := a) (b := a)
  rw [Scalar.isNaN]
  cases hn : a.toModel.unpack.isNaN <;> simp_all

end Double

open Double in
instance : LawfulScalar Float where
  symm {a b} h := by
    obtain ⟨ha, hb, h⟩ := beq_iff.1 h
    exact beq_iff.2 ⟨hb, ha, h.symm⟩
  trans {a b c} h g := by
    obtain ⟨ha, hb, h⟩ := beq_iff.1 h
    obtain ⟨-, hc, g⟩ := beq_iff.1 g
    exact beq_iff.2 ⟨ha, hc, h.trans g⟩
  isNaN_zero := by decide
  isNaN_one := by decide
  one_beq_zero := by decide
  lt_asymm {a b} h := by
    rw [← Bool.not_eq_true]
    intro g
    exact lt_asymm (lt_iff.1 h).2.2 (lt_iff.1 g).2.2
  lt_or_lt {a b c} hb h := by
    rw [isNaN_eq] at hb
    obtain ⟨ha, hc, h⟩ := lt_iff.1 h
    rcases lt_or_ge (place a.toModel.unpack) (place b.toModel.unpack) with hab | hba
    · exact .inl (lt_iff.2 ⟨ha, hb, hab⟩)
    · exact .inr (lt_iff.2 ⟨hb, hc, lt_of_le_of_lt hba h⟩)
  beq_iff {a b} ha hb := by
    rw [isNaN_eq] at ha hb
    have hlt (x y : Float) : Scalar.lt x y = false ↔ ¬ Scalar.lt x y = true := by simp
    rw [Double.beq_iff, hlt a b, hlt b a, lt_iff, lt_iff]
    simp only [ha, hb, true_and, not_lt]
    exact ⟨fun h => ⟨h.ge, h.le⟩, fun h => le_antisymm h.2 h.1⟩

end FunctionAlgebra
