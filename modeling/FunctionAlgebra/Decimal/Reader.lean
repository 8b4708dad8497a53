import FunctionAlgebra.Text.DecimalDigit

/-!
# Reading numbers

Reads the numerals that people write: digits with an optional point, exponent and sign, with
single underscores between digits, or a word for infinity or NaN in any case. Blanks around them do
not count, and decimal digits of any script are read by their values. Signs, point and exponent mark
have one form each.

## Main definitions

* `Numeral` — what a numeral denotes.
* `Numeral.read?` — the numeral that a text spells.
* `Numeral.value` — its value in a type of numbers.
-/

namespace FunctionAlgebra

inductive Numeral where
  | infinite (negative : Bool)
  | undefined
  /-- The number `digits · 10 ^ exponent`, or its negative. -/
  | finite (negative : Bool) (digits : Nat) (exponent : Int)
deriving DecidableEq, Repr

namespace Numeral

/-- Blanks may stand around a numeral. They are the white space of Unicode. -/
def isBlank (c : Char) : Bool :=
  c.isWhitespace || c == '\x0b' || c == '\x0c' || c == '\u0085' || c == '\u00a0' || c == '\u1680' ||
    ('\u2000' ≤ c && c ≤ '\u200a') || c == '\u2028' || c == '\u2029' || c == '\u202f' ||
    c == '\u205f' || c == '\u3000'

def strip (cs : List Char) : List Char :=
  ((cs.dropWhile isBlank).reverse.dropWhile isBlank).reverse

/-- Drop underscores that stand between two digits; any other stays and makes the text unreadable.
The flag tells whether a digit stands before. -/
def dropSeparators : Bool → List Char → List Char
  | afterDigit, '_' :: c :: rest =>
    if afterDigit && c.isDigit then c :: dropSeparators true rest
    else '_' :: c :: dropSeparators c.isDigit rest
  | _, c :: rest => c :: dropSeparators c.isDigit rest
  | _, [] => []

def natOf (digits : List Char) : Nat :=
  digits.foldl (fun n c => 10 * n + (c.toNat - '0'.toNat)) 0

def takeSign : List Char → Bool × List Char
  | '-' :: rest => (true, rest)
  | '+' :: rest => (false, rest)
  | cs => (false, cs)

def exponent? : List Char → Option Int
  | [] => some 0
  | c :: rest =>
    let (negative, digits) := takeSign rest
    if (c == 'e' || c == 'E') && !digits.isEmpty && digits.all Char.isDigit then
      some (if negative then -(natOf digits : Int) else natOf digits)
    else none

def finite? (negative : Bool) (cs : List Char) : Option Numeral :=
  let whole := cs.takeWhile Char.isDigit
  let rest := cs.dropWhile Char.isDigit
  let (fraction, rest) := match rest with
    | '.' :: rest => (rest.takeWhile Char.isDigit, rest.dropWhile Char.isDigit)
    | rest => ([], rest)
  if whole.isEmpty && fraction.isEmpty then none
  else (exponent? rest).map fun e =>
    finite negative (natOf (whole ++ fraction)) (e - fraction.length)

def read? (text : String) : Option Numeral :=
  let plain := (strip text.toList).map plainDigit
  let (negative, cs) := takeSign (dropSeparators false plain)
  let word := String.ofList (cs.map Char.toLower)
  if word == "inf" || word == "infinity" then some (infinite negative)
  else if word == "nan" then some undefined
  else finite? negative cs

end Numeral

end FunctionAlgebra
