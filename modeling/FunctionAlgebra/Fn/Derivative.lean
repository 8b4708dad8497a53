import FunctionAlgebra.Fn.Simplify

/-!
# Derivatives

## Main definitions

* `Kernel.derivative` — the derivative of a scaled standard function in its argument.
* `Fn.derivative` — the derivative of a function, simplified.
-/

namespace FunctionAlgebra

variable {α : Type} [Scalar α]

/-- The derivative of a scaled standard function in its argument, as a function of `x` through the
same inner function. A sine is shifted by a right angle, which needs a finite shift. -/
def Kernel.derivative (k : Kernel α) (s : α) (inner : Option (Fn α)) :
    Except (Failure α) (Fn α) :=
  match k with
  | .power p =>
    .ok <| if p == 0 then .zero else if p == 1 then .const s else .power inner (s * p) (p - 1)
  | .sine omega shift => do
    let shift ← Angle.aroundZero (shift + Scalar.quarterTurn)
    return .scaled (.sine omega shift) (s * omega) inner
  | .arcSine _ => .ok (.power (some (.sum [.one, .power inner (-1) Scalar.two])) s (-0.5))
  | .arcTangent _ => .ok (.quotient (.const s) (.sum [.power inner 1 Scalar.two, .one]))
  | .exponential => .ok (.scaled .exponential s inner)
  | .logarithm => .ok (.power inner s (-1))

namespace Fn

/-- The terms of the product rule: in each, one factor is replaced by its derivative. Factors with
derivative zero have no term. -/
def productRule (before : List (Fn α)) : List (Fn α) → List (Fn α) → List (Fn α)
  | f :: fs, d :: ds =>
    let rest := productRule (before ++ [f]) fs ds
    if d.isZero then rest else product (before ++ d :: fs) :: rest
  | _, _ => []

mutual

def derivative : Fn α → Attempt α (Fn α)
  | zero | one | const _ => pure zero
  | undefined => pure undefined
  | unary k s none =>
    if s == 0 then pure zero else do
      let outer ← k.derivative s none
      outer.simplify
  | unary .logarithm s (some f) =>
    if s == 0 then pure zero else do
      let df ← f.derivative
      (quotient (df.scaleBy s) f).simplify
  | unary k s (some f) =>
    if s == 0 then pure zero else do
      let outer ← k.derivative s (some f)
      let df ← f.derivative
      (product [outer, df]).simplify
  | sum ts => do
    let ds ← derivatives ts
    (sum ds).simplify
  | product fs => do
    let ds ← derivatives fs
    match productRule [] fs ds with
    | [] => return zero
    | ts => (sum ts).simplify
  | quotient n d => do
    let dn ← n.derivative
    let dd ← d.derivative
    let top ← (sum [product [dn, d], scaleBy (-1) (product [n, dd])]).simplify
    if top.isZero then return zero
    let bottom ← (product [d, d]).simplify
    if bottom.isOne then return top
    (quotient top bottom).simplify
  | piecewise segments => do
    let segments ← segmentDerivatives segments
    return piecewise segments

def derivatives : List (Fn α) → Attempt α (List (Fn α))
  | [] => pure []
  | f :: fs => do
    let d ← f.derivative
    let ds ← derivatives fs
    return d :: ds

def segmentDerivatives : List (Segment α (Fn α)) → Attempt α (List (Segment α (Fn α)))
  | [] => pure []
  | ⟨range, f⟩ :: rest => do
    let d ← f.derivative
    let ds ← segmentDerivatives rest
    return ⟨range, d⟩ :: ds

end

def iteratedDerivative (f : Fn α) : Nat → Attempt α (Fn α)
  | 0 => pure f
  | n + 1 => do
    let d ← f.derivative
    iteratedDerivative d n

end Fn

end FunctionAlgebra
