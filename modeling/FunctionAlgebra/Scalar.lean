/-!
# Scalars

The numbers that functions are built from. The library is written over a type `α` with the
operations of this class, so one definition serves IEEE doubles (`FunctionAlgebra.Double`) and
exact arithmetic.

## Main definitions

* `Scalar` — arithmetic, comparison, rounding to integers and the elementary functions.
* `Scalar.cmp` — three-way comparison.
* `Scalar.isClose` — agreement of two numbers within tolerances.
-/

namespace FunctionAlgebra

/-- A type of numbers. Comparisons are Boolean, because a scalar may be a NaN, which is neither
below, above nor equal to anything. -/
class Scalar (α : Type) extends
    Zero α, One α, Add α, Sub α, Mul α, Div α, Neg α, BEq α, OfScientific α where
  lt : α → α → Bool
  /-- Indistinguishable numbers. This is finer than `==` on signed zeros, and a NaN is
  indistinguishable from itself. -/
  same : α → α → Bool
  isFinite : α → Bool
  /-- The greatest integer that is not above a finite number. -/
  floor : α → Int
  /-- The nearest integer to a finite number, the even one of two. -/
  round : α → Int
  ofInt : Int → α
  nan : α
  infinity : α
  pi : α
  /-- Base of the natural logarithm. -/
  e : α
  sin : α → α
  exp : α → α
  log : α → α
  asin : α → α
  atan : α → α
  pow : α → α → α
  /-- The text that identifies a number. -/
  numeral : α → String

namespace Scalar

variable {α : Type} [Scalar α]

def le (a b : α) : Bool := lt a b || a == b

def isNaN (a : α) : Bool := !(a == a)

def isInfinite (a : α) : Bool := !isFinite a && !isNaN a

def isInteger (a : α) : Bool := isFinite a && a == ofInt (floor a)

def abs (a : α) : α := if lt a 0 then -a else a

def max (a b : α) : α := if lt a b then b else a

/-- Three-way comparison. Numbers of which neither is smaller compare as equal. -/
def cmp (a b : α) : Ordering := if lt b a then .gt else if lt a b then .lt else .eq

/-- Lexicographic three-way comparison; a proper initial part comes first. -/
def cmpList : List α → List α → Ordering
  | [], [] => .eq
  | [], _ :: _ => .lt
  | _ :: _, [] => .gt
  | a :: as, b :: bs => (cmp a b).then (cmpList as bs)

def two : α := 1 + 1

def quarterTurn : α := pi / two

def fullTurn : α := two * pi

/-- Whether two numbers differ by no more than the relative tolerance allows for the greater of
them, or by no more than the absolute one. -/
def isClose (a b relative absolute : α) : Bool :=
  le (abs (a - b)) (max (relative * max (abs a) (abs b)) absolute)

def defaultRelative : α := 1e-9

def defaultAbsolute : α := 0

end Scalar

end FunctionAlgebra
