import FunctionAlgebra.Interval

/-!
# Functions

Real functions of one variable as trees: constants, scaled standard functions of an optional inner
function, sums, products, quotients and piecewise functions.

## Main definitions

* `Kernel` — the standard functions with their parameters.
* `Fn` — the function trees.
* `Fn.Kind` — the kinds of functions, with their names and ranks.
* `Fn.value?`, `Fn.scale`, `Fn.isIdentity`, … — what a tree says about itself.
-/

namespace FunctionAlgebra

variable {α : Type}

/-- A standard function of a number `y`. -/
inductive Kernel (α : Type) where
  /-- `y ^ exponent` -/
  | power (exponent : α)
  /-- `sin (omega * y + shift)` -/
  | sine (omega shift : α)
  /-- `asin y + shift` -/
  | arcSine (shift : α)
  /-- `atan y + shift` -/
  | arcTangent (shift : α)
  /-- `exp y` -/
  | exponential
  /-- `log y` -/
  | logarithm

/-- A function of one variable `x`.

The leaves `zero`, `one` and `undefined` are canonical: simplification returns them, and no
`const`, for functions which are 0, 1 or undefined everywhere. A `const` may hold any number. -/
inductive Fn (α : Type) where
  | zero
  | one
  | const (value : α)
  /-- The function that is undefined everywhere. -/
  | undefined
  /-- `scale` times the kernel at the inner function, or at `x` without one. -/
  | unary (kernel : Kernel α) (scale : α) (inner : Option (Fn α))
  | sum (terms : List (Fn α))
  | product (factors : List (Fn α))
  | quotient (numerator denominator : Fn α)
  /-- The payload of the segment that contains `x`. -/
  | piecewise (segments : List (Segment α (Fn α)))

namespace Fn

inductive Kind where
  | constant | undefined | sine | arcSine | logarithm | exponential | arcTangent | power
  | product | sum | quotient | piecewise
deriving DecidableEq, Repr

namespace Kind

def name : Kind → String
  | constant => "Constant"
  | undefined => "Nan"
  | sine => "Sine"
  | arcSine => "ArcSine"
  | logarithm => "Logarithm"
  | exponential => "Exponential"
  | arcTangent => "ArcTangent"
  | power => "Power"
  | product => "Product"
  | sum => "Sum"
  | quotient => "Quotient"
  | piecewise => "Concatenation"

def rank : Kind → Nat
  | constant => 0
  | undefined => 3
  | sine => 4
  | arcSine => 5
  | logarithm => 6
  | exponential => 7
  | arcTangent => 8
  | power => 9
  | product => 100
  | sum => 101
  | quotient => 102
  | piecewise => 110

def isStandard : Kind → Bool
  | sine | arcSine | logarithm | exponential | arcTangent | power => true
  | constant | undefined | product | sum | quotient | piecewise => false

theorem rank_injective {k l : Kind} (h : k.rank = l.rank) : k = l := by
  cases k <;> cases l <;> first | rfl | cases h

end Kind

end Fn

namespace Kernel

def kind : Kernel α → Fn.Kind
  | power _ => .power
  | sine _ _ => .sine
  | arcSine _ => .arcSine
  | arcTangent _ => .arcTangent
  | exponential => .exponential
  | logarithm => .logarithm

def parameters : Kernel α → List α
  | power p => [p]
  | sine omega shift => [omega, shift]
  | arcSine shift => [shift]
  | arcTangent shift => [shift]
  | exponential => []
  | logarithm => []

variable [Scalar α]

instance : BEq (Kernel α) where
  beq k l := k.kind = l.kind && k.parameters == l.parameters

/-- Kernels of one kind with indistinguishable parameters. -/
def same (k l : Kernel α) : Bool :=
  k.kind = l.kind && (k.parameters.zip l.parameters).all fun (a, b) => Scalar.same a b

/-- The kernel stored with a scale: a power with scale zero has exponent one. -/
def atScale (k : Kernel α) (s : α) : Kernel α :=
  match k with
  | power p => power (if s == 0 then 1 else p)
  | k => k

/-- The value of a scaled standard function at `y`. Exponents zero and one need no power. -/
def apply (k : Kernel α) (s y : α) : α :=
  match k with
  | power p => if p == 0 then s else if p == 1 then s * y else s * Scalar.pow y p
  | sine omega shift => s * Scalar.sin (omega * y + shift)
  | arcSine shift => s * (Scalar.asin y + shift)
  | arcTangent shift => s * (Scalar.atan y + shift)
  | exponential => s * Scalar.exp y
  | logarithm => s * Scalar.log y

end Kernel

namespace Fn

variable [Scalar α]

def kind : Fn α → Kind
  | zero | one | const _ => .constant
  | undefined => .undefined
  | unary k _ _ => k.kind
  | sum _ => .sum
  | product _ => .product
  | quotient _ _ => .quotient
  | piecewise _ => .piecewise

def scaled (k : Kernel α) (s : α) (inner : Option (Fn α)) : Fn α := unary (k.atScale s) s inner

def identity : Fn α := unary (.power 1) 1 none

def power (inner : Option (Fn α)) (s p : α) : Fn α := scaled (.power p) s inner

def ofValue (v : α) : Fn α :=
  if v == 0 then zero else if v == 1 then one else if Scalar.isNaN v then undefined else const v

def value? : Fn α → Option α
  | zero => some 0
  | one => some 1
  | const v => some v
  | _ => none

def scale : Fn α → α
  | zero => 0
  | one => 1
  | const v => v
  | unary _ s _ => s
  | quotient n _ => n.scale
  | _ => 1

def isZero : Fn α → Bool
  | zero => true
  | _ => false

def isOne : Fn α → Bool
  | one => true
  | _ => false

def isUndefined : Fn α → Bool
  | undefined => true
  | _ => false

omit [Scalar α] in
theorem eq_zero_of_isZero {f : Fn α} (h : f.isZero = true) : f = zero := by
  cases f with
  | zero => rfl
  | _ => cases h

omit [Scalar α] in
theorem eq_one_of_isOne {f : Fn α} (h : f.isOne = true) : f = one := by
  cases f with
  | one => rfl
  | _ => cases h

omit [Scalar α] in
theorem eq_undefined_of_isUndefined {f : Fn α} (h : f.isUndefined = true) : f = undefined := by
  cases f with
  | undefined => rfl
  | _ => cases h

def isIdentity : Fn α → Bool
  | unary (.power p) s none => s == 1 && p == 1
  | _ => false

/-- The terms of a sum; any other function is its only term. -/
def toTerms : Fn α → List (Fn α)
  | sum ts => ts
  | f => [f]

def toFactors : Fn α → List (Fn α)
  | product fs => fs
  | f => [f]

end Fn

end FunctionAlgebra
