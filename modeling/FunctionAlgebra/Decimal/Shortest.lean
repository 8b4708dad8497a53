/-!
# Shortest decimals

The decimal with the fewest digits that identifies a binary floating point number: of all decimals
which round to the number, one with the fewest significant digits, and of those the nearest.

## Main definitions

* `Binary64` — a positive number `mantissa · 2 ^ exponent` with 53 significant bits at most.
* `Binary64.Rounds` — the decimals that round to it.
* `Decimal` — a number `digits · 10 ^ exponent`.
* `Binary64.shortest` — the shortest decimal.
-/

namespace FunctionAlgebra

/-- A decimal `digits · 10 ^ exponent`. -/
structure Decimal where
  digits : Nat
  exponent : Int
deriving DecidableEq, Repr

structure Binary64 where
  mantissa : Nat
  exponent : Int
deriving DecidableEq, Repr

def tenTo (k : Nat) : Nat := Nat.pow 10 k

namespace Binary64

/-- The least exponent; numbers with it have no implicit leading bit. -/
def minExponent : Int := -1074

def fraction (b : Binary64) : Nat × Nat :=
  (b.mantissa <<< b.exponent.toNat, 1 <<< (-b.exponent).toNat)

def compareDecimal (n d : Nat) (x : Decimal) : Ordering :=
  compare (n * tenTo (-x.exponent).toNat) (x.digits * tenTo x.exponent.toNat * d)

/-- Distance to the number below, in quarters of the distance to the number above. It is half as
wide at a power of two. -/
def lowerGap (b : Binary64) : Nat :=
  if b.mantissa = 1 <<< 52 ∧ minExponent < b.exponent then 1 else 2

/-- Whether a decimal rounds to the number: it lies between the midpoints to both neighbours, or
on one of them if the mantissa is even. -/
def Rounds (b : Binary64) (x : Decimal) : Bool :=
  let (_, d) := b.fraction
  let low := compareDecimal ((4 * b.mantissa - b.lowerGap) <<< b.exponent.toNat) (4 * d) x
  let high := compareDecimal ((4 * b.mantissa + 2) <<< b.exponent.toNat) (4 * d) x
  let even := b.mantissa % 2 == 0
  (low == .lt || (even && low == .eq)) && (high == .gt || (even && high == .eq))

def leadingExponent (b : Binary64) : Int :=
  let (n, d) := b.fraction
  let guess := Int.fdiv ((Nat.log2 b.mantissa + b.exponent) * 30103) 100000
  let fits (e : Int) : Bool := (compareDecimal n d ⟨1, e⟩).isGE
  if fits (guess + 1) then guess + 1 else if fits guess then guess else guess - 1

/-- The neighbours of the number on the grid of multiples of `10 ^ k`, below and above. -/
def neighbours (b : Binary64) (k : Int) : Decimal × Decimal :=
  let (n, d) := b.fraction
  let c := n * tenTo (-k).toNat / (d * tenTo k.toNat)
  (⟨c, k⟩, ⟨c + 1, k⟩)

/-- Whether the multiple of `10 ^ k` above is nearer than the one below. A tie goes to the even
multiple. -/
def upperIsNearer (b : Binary64) (below : Decimal) : Bool :=
  let (n, d) := b.fraction
  match compareDecimal (2 * n) d ⟨2 * below.digits + 1, below.exponent⟩ with
  | .lt => false
  | .gt => true
  | .eq => below.digits % 2 == 1

def onGrid (b : Binary64) (k : Int) : Option Decimal :=
  let (below, above) := b.neighbours k
  match b.Rounds below, b.Rounds above with
  | true, true => some (if b.upperIsNearer below then above else below)
  | true, false => some below
  | false, true => some above
  | false, false => none

/-- The shortest decimal that rounds to the number: the coarsest grid with a hit wins. Seventeen
digits always suffice. -/
def shortest (b : Binary64) : Decimal :=
  let e := b.leadingExponent
  ((List.range 17).findSome? fun (i : Nat) => b.onGrid (e - i)).getD ⟨b.mantissa, b.exponent⟩

end Binary64

end FunctionAlgebra
