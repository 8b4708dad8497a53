import FunctionAlgebra.Fn.Merge
import FunctionAlgebra.Fn.Render

/-!
# Simplification

A simplified function has simplified parts. Sums and products are flattened, sorted and merged,
constants are folded, and scales of factors are collected in the first factor.

Merged functions are simplified again, so the recursion does not follow the tree. It is bounded by
`Fn.cost`, which no step makes larger.

## Main definitions

* `Fn.cost` — a bound for the depth of the recursion.
* `Fn.simplifyStep` — simplification, given how to simplify parts and merged functions.
* `Fn.simplifyWithin` — simplification down to a given depth.
* `Fn.simplify` — simplification.
* `Fn.mergeAdd` — sum of two functions as one function.
-/

namespace FunctionAlgebra.Fn

variable {α : Type} [Scalar α]

mutual

/-- A weight for trees. Multiples of `x` weigh less than other functions without inner function,
which pays for the `x` that appears where `x ^ p` is taken under a common power. -/
def cost : Fn α → Nat
  | zero | one | const _ | undefined => 1
  | unary (.power p) _ none => if p == 1 then 1 else 2
  | unary _ _ none => 2
  | unary _ _ (some f) => f.cost + 1
  | sum fs => costAll fs + 1
  | product fs => costAll fs + 1
  | quotient n d => n.cost + d.cost + 1
  | piecewise segments => costSegments segments + 1

def costAll : List (Fn α) → Nat
  | [] => 0
  | f :: fs => f.cost + costAll fs

def costSegments : List (Segment α (Fn α)) → Nat
  | [] => 0
  | ⟨_, f⟩ :: rest => f.cost + costSegments rest

end

/-- A coefficient times all constants and scales of some factors, and the factors that are no
constants, each with scale one. A factor with scale zero stays as it is. -/
def splitCoefficientFrom (c : α) : List (Fn α) → α × List (Fn α)
  | [] => (c, [])
  | f :: fs =>
    match f.value? with
    | some v => splitCoefficientFrom (c * v) fs
    | none =>
      let s := f.scale
      let (c', units) := splitCoefficientFrom (if s == 1 then c else c * s) fs
      (c', (if s == 1 || s == 0 then f else f.withScale 1) :: units)

def splitCoefficient (fs : List (Fn α)) : α × List (Fn α) := splitCoefficientFrom 1 fs

/-- The sum of simplified, flattened and merged terms. If they are the terms of the sum `f` that
was to be simplified, it is `f` itself. -/
def ofTerms (f : Fn α) (ts : List (Fn α)) : Fn α :=
  if ts.any isUndefined then undefined
  else match ts.filter (!·.isZero) with
    | [] => zero
    | [t] => t
    | ts => if sameChildren ts f.toTerms then f else sum ts

/-- The product of a coefficient and unit factors that were split and merged. If the factors are
those of the product `f` that was to be simplified, it is `f` itself. -/
def ofFactors (f : Fn α) (c : α) (fs : List (Fn α)) : Fn α :=
  if c == 0 then zero
  else if Scalar.isNaN c || fs.any isUndefined then undefined
  else if fs.isEmpty then ofValue c
  else match if c == 1 then fs else scaleFirst c fs with
    | [g] => g
    | fs => if sameChildren fs f.toFactors then f else product fs

/-- Simplify a standard function whose inner function is simplified: exponents zero and one and
a frequency of zero leave no kernel. -/
def simplifyKernel (simplify : Fn α → Attempt α (Fn α)) (k : Kernel α) (s : α)
    (inner : Option (Fn α)) : Attempt α (Fn α) :=
  match k, inner with
  | .power p, inner =>
    if p == 0 then pure (ofValue s)
    else match inner with
      | some f => if p == 1 then simplify (f.scaleBy s) else pure (scaled k s inner)
      | none => pure (scaled k s inner)
  | .sine omega shift, inner =>
    if omega == 0 then
      if Scalar.isInfinite shift then throw .sineOfInfinity
      else pure (ofValue (s * Scalar.sin shift))
    else pure (scaled k s inner)
  | k, inner => pure (scaled k s inner)

def mergeSimplified (simplify : Fn α → Attempt α (Fn α))
    (merge : Fn α → Fn α → Attempt α (Option (Fn α))) (f g : Fn α) :
    Attempt α (Option (Fn α)) := do
  match ← merge f g with
  | some h => return some (← simplify h)
  | none => return none

/-- Simplify a standard function. A simplified inner function that is constant gives a constant,
and the inner function `x` is left out. -/
def simplifyStandard (simplify : Fn α → Attempt α (Fn α)) (k : Kernel α) (s : α)
    (inner : Option (Fn α)) : Attempt α (Fn α) :=
  if s == 0 then pure zero
  else match inner with
    | none => simplifyKernel simplify k s none
    | some g => do
      let g ← simplify g
      if g.isUndefined then return undefined
      match g.value? with
      | some v => simplify (const (k.apply s v))
      | none => simplifyKernel simplify k s (if g.isIdentity then none else some g)

/-- Simplify a sum: flatten it, drop zeros and collect like terms. An undefined term makes it
undefined. -/
def simplifySum (simplify : Fn α → Attempt α (Fn α)) (ts : List (Fn α)) : Attempt α (Fn α) := do
  let parts ← ts.mapM simplify
  let flat := parts.flatMap toTerms
  if flat.any isUndefined then return undefined
  let merged ← mergeNeighbours sort (mergeSimplified simplify (mergeAddWith simplify))
    (flat.filter (!·.isZero))
  return ofTerms (sum ts) merged

/-- A zero factor makes a product zero. Users are warned if that hides a factor which is not
finite. -/
def absorb (f : Fn α) (factors : List (Fn α)) : Attempt α (Fn α) :=
  if factors.any isUndefined || !factors.all (Scalar.isFinite ·.scale) then do
    let text ← f.render
    Attempt.warn (.absorbed text)
    return zero
  else pure zero

/-- Simplify a product: flatten it, split off the coefficient and merge powers. A zero factor makes
it zero, else an undefined factor makes it undefined. -/
def simplifyProduct (simplify : Fn α → Attempt α (Fn α)) (fs : List (Fn α)) :
    Attempt α (Fn α) := do
  let parts ← fs.mapM simplify
  let flat := parts.flatMap toFactors
  if flat.any (·.value?.any (· == 0)) then absorb (product fs) flat
  else if flat.any isUndefined then return undefined
  else
    let (c, units) := splitCoefficient flat
    let merged ← mergeNeighbours sort
      (mergeSimplified simplify fun g h => pure (mergeMultiply? g h)) units
    let (c', units) := splitCoefficient merged
    return ofFactors (product fs) (c * c') units

/-- Simplify a quotient: divide if the parts can be divided. A zero over a function that is not
constant is zero. -/
def simplifyQuotient (simplify : Fn α → Attempt α (Fn α)) (n d : Fn α) : Attempt α (Fn α) := do
  let n ← simplify n
  let d ← simplify d
  if n.isUndefined || d.isUndefined then return undefined
  match mergeDivide? n d with
  | some h => simplify h
  | none => return if n.isZero then zero else quotient n d

def simplifySegment (simplify : Fn α → Attempt α (Fn α)) (s : Segment α (Fn α)) :
    Attempt α (Segment α (Fn α)) := do
  let f ← simplify s.payload
  return ⟨s.range, f⟩

def simplifyStep (simplify : Fn α → Attempt α (Fn α)) : Fn α → Attempt α (Fn α)
  | zero => pure zero
  | one => pure one
  | const v => pure (ofValue v)
  | undefined => pure undefined
  | unary k s inner => simplifyStandard simplify k s inner
  | sum ts => simplifySum simplify ts
  | product fs => simplifyProduct simplify fs
  | quotient n d => simplifyQuotient simplify n d
  | piecewise segments => do
    let segments ← segments.mapM (simplifySegment simplify)
    return piecewise segments

/-- Simplification that fails if it nests deeper than a given depth. -/
def simplifyWithin : Nat → Fn α → Attempt α (Fn α)
  | 0, _ => throw .depthExceeded
  | depth + 1, f => simplifyStep (simplifyWithin depth) f

/-- Simplification. Its depth is bounded by the cost of the function. -/
def simplify (f : Fn α) : Attempt α (Fn α) := simplifyWithin (2 * f.cost + 2) f

def mergeAdd (f g : Fn α) : Attempt α (Option (Fn α)) := mergeAddWith simplify f g

end FunctionAlgebra.Fn
