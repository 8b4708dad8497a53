import FunctionAlgebra.Argument

/-!
# Constructors

Functions are made from argument lists in which numbers may be left out. Standard functions take an
inner function in front of their numbers, or by name.

## Main definitions

* `Constructor` — the ways to make a function.
* `Constructor.apply` — the function made from arguments.
-/

namespace FunctionAlgebra

inductive Constructor where
  | constant | undefined
  | power | sine | cosine | arcSine | arcCosine | arcTangent | exponential
  /-- A logarithm given by its base. -/
  | logarithm
  /-- A logarithm given by its scale. -/
  | scaledLogarithm
  | sum | product | quotient
  /-- A piecewise function given by its segments. -/
  | piecewise
  /-- A piecewise linear function given by numbers `x₀, y₀, x₁, y₁, …` -/
  | piecewiseLinear
deriving DecidableEq, Repr

namespace Constructor

variable {α : Type} [Scalar α]

open Scalar (quarterTurn)

/-- The inner function, given by name or as first argument, and the other arguments. -/
def splitInner (args : List (Argument α)) (inner : Argument α) :
    Except (Failure α) (Argument α × List (Argument α)) :=
  match args with
  | .none :: rest => if inner.isNone then .ok (.none, rest) else .error .twoChains
  | .function f :: rest => if inner.isNone then .ok (.function f, rest) else .error .twoChains
  | args => .ok (inner, args)

def fillNumbers (kind : Fn.Kind) (args : List (Argument α)) (defaults : List α) :
    Except (Failure α) (List (Argument α)) :=
  if defaults.length < args.length then
    .error (.tooManyNumbers kind.name defaults.length args.length)
  else .ok (args ++ (defaults.drop args.length).map .number)

def toInner : Argument α → Except (Failure α) (Option (Fn α))
  | .none => .ok none
  | .function f => .ok (some f)
  | a => do
    let t ← a.describe
    .error (.chainNotFunction t)

/-- Scale times a power. The exponent of a power with weight zero is not looked at. -/
def makePower (args : List (Argument α)) (inner : Argument α) : Except (Failure α) (Fn α) := do
  let (inner, args) ← splitInner args inner
  let (weight, exponent) ← match args with
    | [] => pure (.number 1, .number 1)
    | [p] => pure (.number 1, p)
    | [w, p] => pure (w, p)
    | args => throw (.tooManyPowerNumbers args.length)
  let inner ← toInner inner
  let w ← weight.toNumber
  if w == 0 then return .power inner w 1
  let p ← exponent.toNumber
  return .power inner w p

def makeStandard (kind : Fn.Kind) (defaults : List α) (kernel : List α → Kernel α)
    (args : List (Argument α)) (inner : Argument α) : Except (Failure α) (Fn α) := do
  let (inner, args) ← splitInner args inner
  let args ← fillNumbers kind args defaults
  let inner ← toInner inner
  match ← args.mapM Argument.toNumber with
  | s :: ps => return .scaled (kernel ps) s inner
  | [] => return .undefined

def makeSine : List (Argument α) → Argument α → Except (Failure α) (Fn α) :=
  makeStandard .sine [1, 1, 0] fun
    | [omega, shift] => .sine omega shift
    | _ => .sine 1 0

def makeArcSine : List (Argument α) → Argument α → Except (Failure α) (Fn α) :=
  makeStandard .arcSine [1, 0] fun ps => .arcSine (ps.headD 0)

def makeArcTangent : List (Argument α) → Argument α → Except (Failure α) (Fn α) :=
  makeStandard .arcTangent [1, 0] fun ps => .arcTangent (ps.headD 0)

def makeExponential : List (Argument α) → Argument α → Except (Failure α) (Fn α) :=
  makeStandard .exponential [1] fun _ => .exponential

/-- The numbers and the inner function of a call with at most `most` arguments. The inner function
is the last of them, or it is given by name and then its place has to be free. -/
def lastInner (call : String) (least most : Nat) (args : List (Argument α))
    (named : Option (Argument α)) : Except (Failure α) (List (Argument α) × Argument α) :=
  match named with
  | some inner => if most ≤ args.length then .error (.repeatedChain call) else .ok (args, inner)
  | none =>
    if most < args.length then
      .error (.surplusArguments call (least + 1) (most + 1) (args.length + 1))
    else match args[most - 1]? with
      | some last => .ok (args.take (most - 1), last)
      | none => .ok (args, .none)

def makeCosine (args : List (Argument α)) (named : Option (Argument α)) :
    Except (Failure α) (Fn α) := do
  let (args, inner) ← lastInner "Sine.cosine()" 0 4 args named
  let shift ← match args[2]? with
    | none => pure 0
    | some (.text _) => throw (.notAngle "str")
    | some a => a.toNumber.mapError fun _ => .notAngle a.typeName
  let shift ← Angle.aroundZero (shift + quarterTurn)
  let amplitude := (args[0]?).getD (.number 1)
  let omega := (args[1]?).getD (.number 1)
  makeSine [inner, amplitude, omega, .number shift] .none

def makeArcCosine (args : List (Argument α)) (named : Option (Argument α)) :
    Except (Failure α) (Fn α) := do
  let (args, inner) ← lastInner "ArcSine.arc_cosine()" 0 2 args named
  let omega ← match args[0]? with
    | none => pure 1
    | some (.text _) => throw (.noNegative "str")
    | some a => a.toNumber.mapError fun _ => .noNegative a.typeName
  makeArcSine [inner, .number (-omega), .number (-quarterTurn)] .none

def logarithmScale (base : α) : Except (Failure α) α :=
  if Scalar.isNaN base || Scalar.le base 0 || base == 1 then .error (.invalidBase base)
  else if base == Scalar.e then .ok 1
  else if Scalar.isInfinite base then .ok 0
  else .ok (1 / Scalar.log base)

def makeLogarithm (args : List (Argument α)) (inner : Argument α) : Except (Failure α) (Fn α) := do
  let (inner, args) ← splitInner args inner
  let args ← fillNumbers .logarithm args [Scalar.e]
  let base ← (args.headD (.number Scalar.e)).toNumber
  let s ← logarithmScale base
  let inner ← toInner inner
  return .scaled .logarithm s inner

def makeScaledLogarithm (args : List (Argument α)) (named : Option (Argument α)) :
    Except (Failure α) (Fn α) := do
  let (args, inner) ← lastInner "Logarithm.from_scale()" 1 2 args named
  match args with
  | [] => throw (.missingArguments "Logarithm.from_scale()" ["scale"])
  | scale :: _ =>
    let inner ← toInner inner
    let s ← scale.toNumber
    return .scaled .logarithm s inner

def makePiecewise (args : List (Argument α)) : Except (Failure α) (Fn α) := do
  let segments ← args.mapM Argument.toSegment
  Fn.ofSegments segments

def insertSample (points : List (α × α)) (p : Argument α × Argument α) :
    Except (Failure α) (List (α × α)) := do
  let x ← p.1.toNumber
  let y ← p.2.toNumber
  Fn.insertPoint points (x, y)

def interpolateArguments (points : List (Argument α × Argument α)) : Except (Failure α) (Fn α) := do
  let points ← points.foldlM insertSample []
  Fn.throughPoints points

/-- The piecewise linear function through the points of a table, in which the last entry for an
argument `x` counts, at the place of the first. -/
def interpolateTable (table : List (Argument α × Argument α)) : Except (Failure α) (Fn α) :=
  let enter (entries : List (Argument α × Argument α)) (p : Argument α × Argument α) :=
    if entries.any (·.1 == p.1) then
      entries.map fun q => if q.1 == p.1 then (q.1, p.2) else q
    else entries ++ [p]
  interpolateArguments (table.foldl enter [])

def apply (c : Constructor) (args : List (Argument α)) (named : Option (Argument α)) :
    Except (Failure α) (Fn α) :=
  let inner := named.getD .none
  let withoutName (call : String) (make : Except (Failure α) (Fn α)) :=
    if named.isSome then .error (.surplusChain call) else make
  match c with
  | constant => withoutName "Constant.__init__()" <| match args with
    | [a] => a.toNumber.map .const
    | [] => .error (.missingArguments "Constant.__init__()" ["value"])
    | args => .error (.surplusArguments "Constant.__init__()" 2 2 (args.length + 1))
  | undefined => withoutName "Nan.__new__()" <| match args with
    | [] => .ok .undefined
    | args => .error (.surplusArguments "Nan.__new__()" 1 1 (args.length + 1))
  | power => makePower args inner
  | sine => makeSine args inner
  | cosine => makeCosine args named
  | arcSine => makeArcSine args inner
  | arcCosine => makeArcCosine args named
  | arcTangent => makeArcTangent args inner
  | exponential => makeExponential args inner
  | logarithm => makeLogarithm args inner
  | scaledLogarithm => makeScaledLogarithm args named
  | sum => withoutName "Sum.__init__()" <|
    if args.isEmpty then .error .noTerms else .sum <$> args.mapM (Argument.toFunction "term")
  | product => withoutName "Product.__init__()" <|
    if args.isEmpty then .error .noFactors
    else .product <$> args.mapM (Argument.toFunction "factor")
  | quotient => withoutName "Quotient.__init__()" <| match args with
    | [n, d] => do
      let n ← n.toFunction "numerator"
      let d ← d.toFunction "denominator"
      return .quotient n d
    | [] => .error (.missingArguments "Quotient.__init__()" ["numerator", "denominator"])
    | [_] => .error (.missingArguments "Quotient.__init__()" ["denominator"])
    | args => .error (.surplusArguments "Quotient.__init__()" 3 3 (args.length + 1))
  | piecewise => withoutName "Concatenation.__init__()" (makePiecewise args)
  | piecewiseLinear => withoutName "Concatenation.continuous_piecewise_linear()" <| do
    let points ← Fn.samplePairs args
    interpolateArguments points

end Constructor

end FunctionAlgebra
