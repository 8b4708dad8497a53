import FunctionAlgebra.Angle
import FunctionAlgebra.Fn.Basic
import FunctionAlgebra.Text.Superscript

/-!
# The text of a function

## Main definitions

* `Fn.render` — a function as a formula. A sine has no text if its shift is not finite.
* `Fn.describe` — a formula with the kind of the function.
-/

namespace FunctionAlgebra

variable {α : Type} [Scalar α]

open Scalar (text coefficientText shiftText)

/-- The sign and the name of a sine that is shifted by right angles, and its remaining shift. -/
def sineForm (s shift : α) : Except (Failure α) (α × String × String) := do
  match ← Angle.quarterTurns? shift with
  | none => return (s, "sin", shiftText shift)
  | some turns =>
    let name := if turns % 2 = 1 then "cos" else "sin"
    return (if 2 ≤ turns then -s else s, name, "")

/-- The formula of a scaled standard function, given the text of the inner function, if there is
one. That text is asked for only where it occurs. -/
def Kernel.render (k : Kernel α) (s : α) (inner : Except (Failure α) (Option String)) :
    Except (Failure α) String := do
  if s == 0 then return "0"
  match k with
  | .power p =>
    if p == 0 then return text s
    let inner ← inner
    let base := (inner.map fun t => "(" ++ t ++ ")").getD "x"
    return coefficientText s ++ base ++ if p == 1 then "" else superscript (text p)
  | .sine omega shift =>
    let (s, name, rest) ← sineForm s shift
    let inner ← inner
    let argument := match inner with
      | none => "x"
      | some t => if omega == 1 then t else "(" ++ t ++ ")"
    return coefficientText s ++ name ++ "(" ++ coefficientText omega ++ argument ++ rest ++ ")"
  | .arcSine shift =>
    return coefficientText s ++ "asin(" ++ (← inner).getD "x" ++ shiftText shift ++ ")"
  | .arcTangent shift =>
    return coefficientText s ++ "atan(" ++ (← inner).getD "x" ++ shiftText shift ++ ")"
  | .exponential =>
    match ← inner with
    | none => return coefficientText s ++ "e" ++ superscript "x"
    | some t => return coefficientText s ++ "exp(" ++ t ++ ")"
  | .logarithm => return coefficientText s ++ "ln(" ++ (← inner).getD "x" ++ ")"

namespace Fn

mutual

def render : Fn α → Except (Failure α) String
  | zero => .ok (text (0 : α))
  | one => .ok (text (1 : α))
  | const v => .ok (text v)
  | undefined => .ok "NaN"
  | unary k s none => k.render s (.ok none)
  | unary k s (some f) => k.render s (f.render.map some)
  | sum ts => do
    let texts ← renderAll ts
    return "Σ(" ++ ", ".intercalate texts ++ ")"
  | product fs => do
    let texts ← renderAll fs
    return "Π(" ++ ", ".intercalate texts ++ ")"
  | quotient n d => do
    let above ← n.render
    let below ← d.render
    return "(" ++ above ++ ")/(" ++ below ++ ")"
  | piecewise segments => do
    let texts ← renderSegments segments
    return "IntervalSet(" ++ ", ".intercalate texts ++ ")"

def renderAll : List (Fn α) → Except (Failure α) (List String)
  | [] => .ok []
  | f :: fs => do
    let t ← f.render
    let ts ← renderAll fs
    return t :: ts

def renderSegments : List (Segment α (Fn α)) → Except (Failure α) (List String)
  | [] => .ok []
  | ⟨range, f⟩ :: rest => do
    let t ← f.render
    let ts ← renderSegments rest
    return (range.text ++ ": " ++ t) :: ts

end

def describe (f : Fn α) : Except (Failure α) String := do
  let t ← f.render
  return "<" ++ f.kind.name ++ "(" ++ t ++ ")>"

end Fn

end FunctionAlgebra
