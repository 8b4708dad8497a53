import FunctionAlgebra.Decimal.Reader
import FunctionAlgebra.Fn.Equality
import FunctionAlgebra.Fn.Piecewise
import FunctionAlgebra.Fn.Render

/-!
# Arguments

Values that a user may hand to a constructor, whether they fit or not.

## Main definitions

* `Argument` — numbers, truth values, texts, functions, intervals with payload, or nothing.
* `Argument.toNumber`, `Argument.toFunction` — an argument as number or as function.
* `Argument.show`, `Argument.describe` — an argument in a text and on its own.
-/

namespace FunctionAlgebra

inductive Argument (α : Type) where
  | none
  | number (value : α)
  | truth (value : Bool)
  | text (value : String)
  | function (f : Fn α)
  | interval (range : Interval α) (payload : Argument α)

variable {α : Type} [Scalar α]

def Numeral.value : Numeral → α
  | infinite negative => if negative then -Scalar.infinity else Scalar.infinity
  | undefined => Scalar.nan
  | finite negative digits exponent =>
    let size : α := OfScientific.ofScientific digits (decide (exponent < 0)) exponent.natAbs
    if negative then -size else size

namespace Argument

def isNone : Argument α → Bool
  | none => true
  | _ => false

def typeName : Argument α → String
  | none => "NoneType"
  | number _ => "float"
  | truth _ => "bool"
  | text _ => "str"
  | function f => f.kind.name
  | interval _ _ => "Interval"

def «show» : Argument α → Except (Failure α) String
  | none => .ok "None"
  | number v => .ok (Scalar.numeral v)
  | truth b => .ok (if b then "True" else "False")
  | text t => .ok t
  | function f => f.render
  | interval range none => .ok ("Interval " ++ range.text)
  | interval range payload => do
    let t ← payload.show
    return "Interval " ++ range.text ++ ": " ++ t

/-- An argument on its own: texts are quoted, functions and intervals in angle brackets. -/
def describe : Argument α → Except (Failure α) String
  | text t => .ok (quoted t)
  | function f => f.describe
  | interval range payload => do
    let t ← (interval range payload).show
    return "<" ++ t ++ ">"
  | a => a.show

/-- An argument as number. Truth values are 1 and 0, and a text is read as numeral. -/
def toNumber : Argument α → Except (Failure α) α
  | number v => .ok v
  | truth b => .ok (if b then 1 else 0)
  | text t => match Numeral.read? t with
    | some n => .ok n.value
    | Option.none => .error (.notNumeral (quoted t))
  | a => .error (.notNumber a.typeName)

/-- An argument as function that plays a role in another one. Numbers and truth values become
constants. -/
def toFunction (role : String) (a : Argument α) : Except (Failure α) (Fn α) :=
  match a with
  | none => .error (.missing role)
  | function f => .ok f
  | number v => .ok (.const v)
  | truth b => .ok (.const (if b then 1 else 0))
  | a => do
    let t ← a.describe
    .error (.notFunction role t)

def toSegment : Argument α → Except (Failure α) (Segment α (Fn α))
  | interval range (function f) => .ok ⟨range, f⟩
  | interval range _ => .error (.payloadNotFunction range)
  | a => do
    let t ← a.describe
    .error (.notSegment t)

def equal : Argument α → Argument α → Bool
  | none, none => true
  | text s, text t => s == t
  | function f, function g => f == g
  | interval i p, interval j q => i == j && equal p q
  | a, b => match a, b with
    | number v, number w => v == w
    | truth a, truth b => a == b
    | number v, truth b | truth b, number v => v == if b then 1 else 0
    | _, _ => false

instance : BEq (Argument α) := ⟨equal⟩

end Argument

end FunctionAlgebra
