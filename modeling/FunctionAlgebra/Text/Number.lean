import FunctionAlgebra.Scalar

/-!
# Numbers in formulas

## Main definitions

* `Scalar.text` — a number, without decimal point if it is a moderate integer.
* `Scalar.coefficientText` — a number in front of a factor.
* `Scalar.shiftText` — a number behind a term.
-/

namespace FunctionAlgebra.Scalar

variable {α : Type} [Scalar α]

/-- One more than the greatest integer of 64 bits with sign. -/
def wordLimit : Int := 9223372036854775808

/-- Integers of 64 bits are written without decimal point, all else as `numeral` does. -/
def text (a : α) : String :=
  if le (ofInt (-wordLimit)) a && lt a (ofInt wordLimit) && isInteger a then toString (floor a)
  else numeral a

def coefficientText (a : α) : String :=
  if a == 1 then "" else if a == -1 then "-" else text a

def shiftText (a : α) : String :=
  if a == 0 then "" else if (text a).startsWith "-" then text a else "+" ++ text a

end FunctionAlgebra.Scalar
