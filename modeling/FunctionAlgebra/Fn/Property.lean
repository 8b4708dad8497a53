import FunctionAlgebra.Fn.Evaluate

/-!
# Properties

The parts and parameters of functions under the names that users know them by.

## Main definitions

* `Property` — the values of properties.
* `Fn.property` — the property of a function with a given name.
-/

namespace FunctionAlgebra

variable {α : Type}

inductive Property (α : Type) where
  | nothing
  | number (value : α)
  | pair (first second : α)
  | text (value : String)
  | function (f : Fn α)
  | functions (fs : List (Fn α))
  | segments (segments : List (Segment α (Fn α)))

variable [Scalar α]

/-- The base of the logarithm with a given scale. A logarithm with scale zero has an infinite
base. -/
def logarithmBase (s : α) : Except (Failure α) α :=
  if s == 0 then .ok Scalar.infinity
  else
    let base := Scalar.exp (1 / s)
    if Scalar.isInfinite base && Scalar.isFinite (1 / s) then .error .baseOverflow else .ok base

def Kernel.scaleName : Kernel α → Option String
  | power _ => some "weight"
  | sine _ _ => some "amplitude"
  | arcSine _ | arcTangent _ => some "omega"
  | exponential => some "factor"
  | logarithm => none

def Kernel.parameter? : Kernel α → String → Option α
  | power p, "exponent" => some p
  | sine omega _, "omega" => some omega
  | sine _ shift, "shift" => some shift
  | arcSine shift, "shift" => some shift
  | arcTangent shift, "shift" => some shift
  | _, _ => none

/-- The attribute that holds the property with a given name. Properties are attributes of their
own name, but the ends of a domain are read through accessors. -/
def attributeOfProperty : String → String
  | "domain_low" => "get_domain_low"
  | "domain_high" => "get_domain_high"
  | name => name

namespace Fn

/-- Properties that only some kinds of functions have. A missing property is reported as its
attribute. -/
def ownProperty (f : Fn α) (name : String) : Except (Failure α) (Property α) :=
  let missing : Except (Failure α) (Property α) :=
    .error (.noAttribute f.kind.name (attributeOfProperty name))
  match f with
  | unary k s inner =>
    if name == "chain" then .ok ((inner.map .function).getD .nothing)
    else if k.scaleName == some name then .ok (.number s)
    else match k.parameter? name with
      | some v => .ok (.number v)
      | none => match k, name with
        | .logarithm, "base" => (logarithmBase s).map .number
        | _, _ => missing
  | sum ts => if name == "terms" then .ok (.functions ts) else missing
  | product fs => if name == "factors" then .ok (.functions fs) else missing
  | quotient n d =>
    if name == "numerator" then .ok (.function n)
    else if name == "denominator" then .ok (.function d)
    else missing
  | piecewise segments =>
    match name, hull? segments with
    | "segments", _ => .ok (.segments segments)
    | "domain_low", some domain => .ok (.number domain.low)
    | "domain_high", some domain => .ok (.number domain.high)
    | _, _ => missing
  | f => match f.value?, name with
    | some v, "value" => .ok (.number v)
    | _, _ => missing

def property (f : Fn α) (name : String) : Except (Failure α) (Property α) :=
  match name with
  | "class" => .ok (.text f.kind.name)
  | "scale" => .ok (.number f.scale)
  | "domain" => .ok ((f.domain.map fun d => .pair d.low d.high).getD .nothing)
  | name => ownProperty f name

end Fn

end FunctionAlgebra
