import FunctionAlgebra.Fn.Derivative
import FunctionAlgebra.Fn.Evaluate

/-!
# Evaluators

An evaluator computes values of a function and its derivatives. It keeps the derivatives that were
asked for, and builds further ones from the last.

## Main definitions

* `Evaluator` — a function with its first derivatives.
* `Evaluator.function` — a derivative as function.
* `Evaluator.diff`, `Evaluator.sample` — values of a derivative at one or more points.
-/

namespace FunctionAlgebra

variable {α : Type} [Scalar α]

structure Evaluator (α : Type) where
  root : Fn α
  /-- The first, second, … derivative, as far as they are known. -/
  derivatives : List (Fn α)
  /-- Whether values may be infinite or NaN. -/
  allowNonfinite : Bool

def Fn.nextDerivative (f : Fn α) : Attempt α (Fn α) := do
  let d ← f.derivative
  d.simplify

namespace Evaluator

variable {β : Type}

def new (f : Fn α) (allowNonfinite : Bool) : Evaluator α := ⟨f, [], allowNonfinite⟩

def last (e : Evaluator α) : Fn α := (e.derivatives.getLast?).getD e.root

/-- Build some further derivatives. Those before a failure are kept. -/
def grow : Nat → Evaluator α → Attempt α Unit × Evaluator α
  | 0, e => (pure (), e)
  | n + 1, e =>
    let next := e.last.nextDerivative
    match next.outcome with
    | .error cause => (⟨.error cause, next.warnings⟩, e)
    | .ok d =>
      let (result, e) := grow n { e with derivatives := e.derivatives ++ [d] }
      (⟨result.outcome, next.warnings ++ result.warnings⟩, e)

def function (e : Evaluator α) (order : Int) : Attempt α (Fn α) × Evaluator α :=
  if order < 0 then (throw (.invalidOrder order), e)
  else
    let n := order.toNat
    let (result, e) := grow (n - e.derivatives.length) e
    (result >>= fun _ => pure (((e.root :: e.derivatives)[n]?).getD e.root), e)

def isZeroFunction (e : Evaluator α) (order : Int) : Attempt α Bool × Evaluator α :=
  let (result, e) := e.function order
  (result >>= fun f => pure f.isZero, e)

def check (e : Evaluator α) (order : Int) (x value : α) : Except (Failure α) α :=
  if !e.allowNonfinite && !Scalar.isFinite value then .error (.notFinite order x value)
  else .ok value

def diff (e : Evaluator α) (x : α) (order : Int) : Attempt α α × Evaluator α :=
  let (result, e) := e.function order
  (result >>= fun f => .ofExcept (f.evaluate x >>= e.check order x), e)

def call (e : Evaluator α) (x : α) : Attempt α α × Evaluator α := e.diff x 0

/-- The values at some points, all accepted or none. -/
def sampleOf (e : Evaluator α) (f : Fn α) (xs : List α) : Except (Failure α) (List α) := do
  let values ← xs.mapM fun x => f.evaluate x
  if !e.allowNonfinite && !values.all Scalar.isFinite then throw .samplesNotFinite
  return values

def sample (e : Evaluator α) (xs : List α) (order : Int) : Attempt α (List α) × Evaluator α :=
  let (result, e) := e.function order
  (result >>= fun f => .ofExcept (e.sampleOf f xs), e)

def domain (e : Evaluator α) : Option (Interval α) := e.root.domain

end Evaluator

end FunctionAlgebra
