import FunctionAlgebra.Fn.Simplify
import Mathlib.Tactic.SplitIfs

/-!
# Splitting off coefficients

## Main statements

* `Fn.splitCoefficientFrom_snd` — the factors that are left are the unit copies of those that are
  no constants.
* `Fn.splitCoefficientFrom_fst` — the coefficient, factor by factor.
-/

namespace FunctionAlgebra.Fn

variable {α : Type} [Scalar α]

/-- The number by which a factor changes a coefficient: its value if it is constant, else its
scale. -/
def coefficientStep (c : α) (f : Fn α) : α :=
  match f.value? with
  | some v => c * v
  | none => if f.scale == 1 then c else c * f.scale

theorem splitCoefficientFrom_fst (c : α) (fs : List (Fn α)) :
    (splitCoefficientFrom c fs).1 = fs.foldl coefficientStep c := by
  induction fs generalizing c with
  | nil => rfl
  | cons f fs ih =>
    rw [splitCoefficientFrom, List.foldl_cons, ← ih, coefficientStep]
    split <;> simp [*]

theorem splitCoefficientFrom_snd (c : α) (fs : List (Fn α)) :
    (splitCoefficientFrom c fs).2 = (fs.filter (·.value?.isNone)).map unit := by
  induction fs generalizing c with
  | nil => rfl
  | cons f fs ih =>
    rw [splitCoefficientFrom]
    split
    · rename_i v hv
      rw [ih, List.filter_cons_of_neg (by simp [hv])]
    · rename_i hv
      rw [List.filter_cons_of_pos (by simp [hv]), List.map_cons, ← ih, unit, Bool.or_comm]

end FunctionAlgebra.Fn
