import FunctionAlgebra.Decimal.Layout
import FunctionAlgebra.Scalar

/-!
# Doubles as scalars

IEEE doubles are decoded exactly, so that rounding to integers and writing need no further
floating point arithmetic.

## Main definitions

* `Double.size` — the size of a finite double as mantissa and exponent.
* `Double.toInt?` — the exact value of an integral double.
* `Double.layout`, `Double.write` — the text of a double.
* the instance `Scalar Float`.
-/

namespace FunctionAlgebra.Double

def isNegative (x : Float) : Bool := x.toBits >>> 63 == 1

/-- The size of a finite double: its bits hold a sign, 11 bits for the exponent and 52 bits for the
mantissa, whose leading bit is implicit unless the exponent is the least one. -/
def size (x : Float) : Binary64 :=
  let bits := x.toBits.toNat
  let field := (bits >>> 52) % 2048
  let fraction := bits % (1 <<< 52)
  if field = 0 then ⟨fraction, Binary64.minExponent⟩
  else ⟨(1 <<< 52) + fraction, Binary64.minExponent + (field - 1 : Nat)⟩

def fraction (x : Float) : Int × Nat :=
  let (n, d) := (size x).fraction
  (if isNegative x then -(n : Int) else n, d)

def floor (x : Float) : Int :=
  let (n, d) := fraction x
  Int.fdiv n d

/-- The nearest integer, the even one of two. -/
def round (x : Float) : Int :=
  let (n, d) := fraction x
  let below := Int.fdiv n d
  match compare (2 * (n - below * d)) (d : Int) with
  | .lt => below
  | .gt => below + 1
  | .eq => if below % 2 = 0 then below else below + 1

def toInt? (x : Float) : Option Int :=
  if x.isFinite then
    let (n, d) := fraction x
    if n % d = 0 then some (n / d) else none
  else none

/-- Numbers below `10 ^ 16` are written positionally, unless they are below `10 ^ -4`; exponents
have two digits or more. -/
def layout : Layout where
  positionalFrom := -4
  scientificFrom := 16
  exponentWidth := 2

def write (x : Float) : String :=
  if x.isNaN then "nan"
  else
    let sign := if isNegative x then "-" else ""
    if x.isInf then sign ++ "inf"
    else if x == 0 then sign ++ "0.0"
    else sign ++ layout.write (size x).shortest

/-- Doubles with the same bits, all NaNs taken as one. -/
def same (x y : Float) : Bool := x.toBits == y.toBits || (x.isNaN && y.isNaN)

/-- The double nearest to `digits · 10 ^ exponent`, or to `digits / 10 ^ exponent`. Exponents that
are out of range give infinity or zero without computing the power. -/
def ofDecimal (digits : Nat) (divide : Bool) (exponent : Nat) : Float :=
  if digits = 0 then 0
  else if divide && decide (digits.log2 + 400 < exponent) then 0
  else if !divide && decide (400 < exponent) then 1.0 / 0.0
  else Float.ofScientific digits divide exponent

end FunctionAlgebra.Double

namespace FunctionAlgebra

instance : Scalar Float where
  zero := 0
  one := 1
  ofScientific := Double.ofDecimal
  lt x y := decide (x < y)
  same := Double.same
  isFinite := Float.isFinite
  floor := Double.floor
  round := Double.round
  ofInt := Float.ofInt
  nan := 0.0 / 0.0
  infinity := 1.0 / 0.0
  pi := 3.141592653589793
  e := 2.718281828459045
  sin := Float.sin
  exp := Float.exp
  log := Float.log
  asin := Float.asin
  atan := Float.atan
  pow := Float.pow
  numeral := Double.write

end FunctionAlgebra
