import FunctionAlgebra.Fn.Evaluate
import FunctionAlgebra.Fn.Render
import FunctionAlgebra.Sorted.Stable

/-!
# Knots of functions

Each standard function knows where it or its derivative is undefined. A composite function has the
knots of its parts, as far as they are known, and a piecewise function also those at the bounds of
its segments.

## Main definitions

* `Fn.knotReport` — what is known about the knots on an interval.
* `Fn.knots` — the list of the knots, if there are finitely many and they are known.
-/

namespace FunctionAlgebra

variable {α : Type} [Scalar α]

def sortDistinct (xs : List α) : List α :=
  sortStable Scalar.lt <|
    (xs.foldl (fun kept x => if kept.any (x == ·) then kept else x :: kept) []).reverse

namespace Kernel

def isMonomial : Kernel α → Bool
  | power p => Scalar.isInteger p && Scalar.le 0 p
  | _ => false

def knotReport (k : Kernel α) (i : Interval α) : KnotReport :=
  match k with
  | power p =>
    if k.isMonomial then .noKnots
    else if !Scalar.isInteger p && Scalar.lt i.low 0 then undefinedReport i
    else if Scalar.lt p 0 && i.contains 0 then .finite
    else .noKnots
  | arcSine _ =>
    if Scalar.lt i.low (-1) || Scalar.lt 1 i.high then undefinedReport i else .noKnots
  | logarithm =>
    if Scalar.lt i.low 0 then undefinedReport i
    else if i.contains 0 then .finite
    else .noKnots
  | sine _ _ | arcTangent _ | exponential => .noKnots

def knots (k : Kernel α) (i : Interval α) : List α :=
  match k with
  | power p =>
    if k.isMonomial then []
    else if !Scalar.isInteger p && Scalar.lt i.low 0 then undefinedKnots i
    else if Scalar.lt p 0 && i.contains 0 then [0]
    else []
  | arcSine _ =>
    if Scalar.lt i.low (-1) || Scalar.lt 1 i.high then undefinedKnots i else []
  | logarithm =>
    if Scalar.lt i.low 0 then undefinedKnots i
    else if i.contains 0 then [0]
    else []
  | sine _ _ | arcTangent _ | exponential => []

/-- Whether a standard function of an inner function has no knots but those of the inner
function, whatever its values are. -/
def inheritsKnots : Kernel α → Bool
  | power p => (power p : Kernel α).isMonomial
  | arcSine _ | logarithm => false
  | sine _ _ | arcTangent _ | exponential => true

end Kernel

def boundaries {β : Type} (segments : List (Segment α β)) : List α :=
  sortDistinct (segments.flatMap fun s => [s.range.low, s.range.high])

namespace Fn

mutual

/-- What is known about the knots of a function on an interval. -/
def knotReport : Fn α → Interval α → KnotReport
  | zero, _ | one, _ | const _, _ => .noKnots
  | undefined, i => undefinedReport i
  | unary k s none, i => if s == 0 then .noKnots else k.knotReport i
  | unary k s (some f), i =>
    if s == 0 then .noKnots else if k.inheritsKnots then f.knotReport i else .unknown
  | sum fs, i => reportAll fs i
  | product fs, i => reportAll fs i
  | quotient n d, i =>
    match d.value? with
    | some v => if v == 0 then undefinedReport i else n.knotReport i
    | none => .unknown
  | piecewise segments, i =>
    match hull? segments with
    | none => .noKnots
    | some domain =>
      if !domain.covers i then .infinite
      else
        let own := if (boundaries segments).any i.contains then KnotReport.finite else .noKnots
        own.combineWith (reportPieces segments i)

def reportAll : List (Fn α) → Interval α → KnotReport
  | [], _ => .noKnots
  | f :: fs, i => (f.knotReport i).combineWith (reportAll fs i)

def reportPieces : List (Segment α (Fn α)) → Interval α → KnotReport
  | [], _ => .noKnots
  | ⟨range, f⟩ :: rest, i =>
    match range.inter? i with
    | none => reportPieces rest i
    | some part => (f.knotReport part).combineWith (reportPieces rest i)

end

mutual

/-- Positions of the knots, in no order and with repetitions, where the report is finite. Parts that
report no knots are left out. -/
def knotPositions : Fn α → Interval α → List α
  | zero, _ | one, _ | const _, _ => []
  | undefined, i => [i.low]
  | unary k s none, i => if s == 0 then [] else k.knots i
  | unary _ s (some f), i =>
    if s == 0 then [] else if f.knotReport i = .noKnots then [] else f.knotPositions i
  | sum fs, i => positionsAll fs i
  | product fs, i => positionsAll fs i
  | quotient n d, i =>
    match d.value? with
    | some v =>
      if v == 0 then undefinedKnots i
      else if n.knotReport i = .noKnots then [] else n.knotPositions i
    | none => []
  | piecewise segments, i =>
    (boundaries segments).filter i.contains ++ positionsInPieces segments i

def positionsAll : List (Fn α) → Interval α → List α
  | [], _ => []
  | f :: fs, i =>
    (if f.knotReport i = .noKnots then [] else f.knotPositions i) ++ positionsAll fs i

def positionsInPieces : List (Segment α (Fn α)) → Interval α → List α
  | [], _ => []
  | ⟨range, f⟩ :: rest, i =>
    match range.inter? i with
    | none => positionsInPieces rest i
    | some part =>
      (if f.knotReport part = .noKnots then [] else f.knotPositions part) ++
        positionsInPieces rest i

end

def knots (f : Fn α) (i : Interval α) : Except (Failure α) (List α) :=
  match f.knotReport i with
  | .noKnots => .ok []
  | .finite => .ok (sortDistinct (f.knotPositions i))
  | report => do
    let text ← f.render
    .error (.knotsUnlisted text i report)

end Fn

end FunctionAlgebra
