import FunctionAlgebra.Decimal.Shortest

/-!
# Decimal notation

How a decimal is written: positionally for moderate exponents, else in scientific notation.

## Main definitions

* `Layout` — the choices that a notation leaves open.
* `Layout.write` — the text of a decimal.
-/

namespace FunctionAlgebra

structure Layout where
  /-- Leading exponents from here on are written positionally … -/
  positionalFrom : Int
  /-- … and from here on in scientific notation again. -/
  scientificFrom : Int
  /-- Least number of digits of a written exponent. -/
  exponentWidth : Nat

namespace Layout

/-- The digits of a positive number without trailing zeros, and the exponent of the first one. -/
def significant (x : Decimal) : List Char × Int :=
  let all := Nat.toDigits 10 x.digits
  ((all.reverse.dropWhile (· == '0')).reverse, x.exponent + (all.length - 1 : Nat))

def pad (width : Nat) (digits : List Char) : List Char :=
  List.replicate (width - digits.length) '0' ++ digits

def writePositional (digits : List Char) (e : Int) : List Char :=
  if e < 0 then
    '0' :: '.' :: List.replicate (-e - 1).toNat '0' ++ digits
  else
    let n := e.toNat + 1
    let whole := digits.take n ++ List.replicate (n - digits.length) '0'
    let rest := digits.drop n
    whole ++ '.' :: (if rest.isEmpty then ['0'] else rest)

/-- Scientific notation has a point only where a digit follows it, and always a sign. -/
def writeScientific (l : Layout) (digits : List Char) (e : Int) : List Char :=
  let rest := digits.drop 1
  let fraction := if rest.isEmpty then [] else '.' :: rest
  let sign := if e < 0 then '-' else '+'
  digits.take 1 ++ fraction ++ 'e' :: sign :: pad l.exponentWidth (Nat.toDigits 10 e.natAbs)

def write (l : Layout) (x : Decimal) : String :=
  let (digits, e) := significant x
  String.ofList <|
    if l.positionalFrom ≤ e ∧ e < l.scientificFrom then writePositional digits e
    else l.writeScientific digits e

end Layout

end FunctionAlgebra
