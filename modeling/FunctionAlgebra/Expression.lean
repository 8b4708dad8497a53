import FunctionAlgebra.Fn.Basic

/-!
# Expressions

A neutral syntax of formulas for other programs, and the formula of a function in it. Integral
numbers are kept exact. Nothing is evaluated or rearranged.

## Main definitions

* `Expression`, `Condition` — formulas and conditions on their variable.
* `Fn.toExpression` — the formula of a function.
-/

namespace FunctionAlgebra

variable {α : Type}

inductive Condition (α : Type) where
  | greater (bound : α)
  | greaterEqual (bound : α)
  | less (bound : α)
  | lessEqual (bound : α)
  | both (first second : Condition α)
  | always

inductive Expression (α : Type) where
  | integer (value : Int)
  /-- A number that is not integral. -/
  | number (value : α)
  | variable
  | undefined
  | add (terms : List (Expression α))
  | mul (factors : List (Expression α))
  | pow (base exponent : Expression α)
  | sin (argument : Expression α)
  | asin (argument : Expression α)
  | atan (argument : Expression α)
  | exp (argument : Expression α)
  | log (argument : Expression α)
  /-- The formula of the first condition that holds. -/
  | piecewise (branches : List (Expression α × Condition α))

namespace Expression

variable [Scalar α]

/-- A number; integers are exact. -/
def ofScalar (v : α) : Expression α :=
  if Scalar.isInteger v then integer (Scalar.floor v) else number v

def isOne : Expression α → Bool
  | integer n => n == 1
  | _ => false

def sum : List (Expression α) → Expression α
  | [t] => t
  | ts => add ts

def product : List (Expression α) → Expression α
  | [f] => f
  | fs => mul fs

/-- A quotient is a product with a reciprocal, or the reciprocal alone for numerator one. -/
def quotient (n d : Expression α) : Expression α :=
  if n.isOne then pow d (integer (-1)) else mul [n, pow d (integer (-1))]

end Expression

def Kernel.toExpression [Scalar α] (k : Kernel α) (s : α) (y : Expression α) : Expression α :=
  let number : α → Expression α := .ofScalar
  match k with
  | .power p => .mul [number s, .pow y (number p)]
  | .sine omega shift => .mul [number s, .sin (.add [.mul [number omega, y], number shift])]
  | .arcSine shift => .mul [number s, .add [.asin y, number shift]]
  | .arcTangent shift => .mul [number s, .add [.atan y, number shift]]
  | .exponential => .mul [number s, .exp y]
  | .logarithm => .mul [number s, .log y]

def Interval.toCondition (i : Interval α) : Condition α :=
  .both (if i.lowClosed then .greaterEqual i.low else .greater i.low)
    (if i.highClosed then .lessEqual i.high else .less i.high)

namespace Fn

variable [Scalar α]

mutual

def toExpression : Fn α → Expression α
  | zero => .ofScalar 0
  | one => .ofScalar 1
  | const v => .ofScalar v
  | undefined => .undefined
  | unary k s none => k.toExpression s .variable
  | unary k s (some f) => k.toExpression s f.toExpression
  | sum ts => .sum (allToExpression ts)
  | product fs => .product (allToExpression fs)
  | quotient n d => .quotient n.toExpression d.toExpression
  | piecewise segments => .piecewise (segmentsToExpression segments)

def allToExpression : List (Fn α) → List (Expression α)
  | [] => []
  | f :: fs => f.toExpression :: allToExpression fs

/-- One branch for each segment, and an undefined one for all other points. -/
def segmentsToExpression : List (Segment α (Fn α)) → List (Expression α × Condition α)
  | [] => [(.undefined, .always)]
  | ⟨range, f⟩ :: rest => (f.toExpression, range.toCondition) :: segmentsToExpression rest

end

end Fn

end FunctionAlgebra
