import FunctionAlgebra.Fn.Evaluate
import FunctionAlgebra.Interval.Order

/-!
# Piecewise functions

A piecewise function is built from disjoint segments in any order. Gaps between them become
segments of the undefined function, so that the segments cover the domain without holes.

## Main definitions

* `Fn.ofSegments` — the function with given segments.
* `Fn.interpolate` — the continuous, piecewise linear function through given points.
* `Fn.discontinuities` — the gaps, jumps and knots at the bounds of segments.
-/

namespace FunctionAlgebra

variable {α : Type} [Scalar α]

def Interval.gap? (left right : Interval α) : Option (Interval α) :=
  if Scalar.lt left.high right.low then
    some ⟨left.high, !left.highClosed, right.low, !right.lowClosed⟩
  else if left.high == right.low && !(left.highClosed || right.lowClosed) then
    some ⟨left.high, true, right.low, true⟩
  else none

namespace Fn

/-- Put segments, which follow `previous` in order, behind each other with the gaps between them.
No two neighbours may overlap. -/
def joinSegments (previous : Segment α (Fn α)) :
    List (Segment α (Fn α)) → Except (Failure α) (List (Segment α (Fn α)))
  | [] => .ok [previous]
  | next :: rest =>
    if !previous.range.disjoint next.range then .error (.overlap previous.range next.range)
    else do
      let joined ← joinSegments next rest
      match previous.range.gap? next.range with
      | some gap => return previous :: ⟨gap, undefined⟩ :: joined
      | none => return previous :: joined

/-- The function with given segments, which must not overlap. -/
def ofSegments (segments : List (Segment α (Fn α))) : Except (Failure α) (Fn α) :=
  match Segment.sort segments with
  | [] => .error .noSegments
  | first :: rest => do
    let joined ← joinSegments first rest
    return piecewise joined

/-- The line through two points, written as weighted average of their values, so that it has
exactly these values there. -/
def line (p q : α × α) : Fn α :=
  let width := const (q.1 - p.1)
  let rising := quotient (sum [power none 1 1, const (-p.1)]) width
  let falling := quotient (sum [power none (-1) 1, const q.1]) width
  sum [power (some falling) p.2 1, power (some rising) q.2 1]

/-- Add a point to a list of points with different `x`. The same point may be given again; the
place of the first and the sign of zero of the last count. -/
def insertPoint (points : List (α × α)) (p : α × α) : Except (Failure α) (List (α × α)) :=
  if !(Scalar.isFinite p.1 && Scalar.isFinite p.2) then .error (.infinitePoint p.1 p.2)
  else match points.find? (·.1 == p.1) with
    | none => .ok (points ++ [p])
    | some q =>
      if q.2 == p.2 then .ok (points.map fun r => if r.1 == p.1 then (r.1, p.2) else r)
      else .error (.contradiction p.1 q.2 p.2)

/-- Segments between neighbouring points. Each point belongs to the segment that ends there, the
first one to the first segment. -/
def linesThrough (isFirst : Bool) : List (α × α) → List (Segment α (Fn α))
  | p :: q :: rest => ⟨⟨p.1, isFirst, q.1, true⟩, line p q⟩ :: linesThrough false (q :: rest)
  | _ => []

def pointBefore (p q : α × α) : Bool :=
  if p.1 == q.1 then Scalar.lt p.2 q.2 else Scalar.lt p.1 q.1

def throughPoints (points : List (α × α)) : Except (Failure α) (Fn α) :=
  if points.length < 2 then .error .fewPoints
  else ofSegments (linesThrough true (sortStable pointBefore points))

def interpolate (points : List (α × α)) : Except (Failure α) (Fn α) := do
  let points ← points.foldlM insertPoint []
  throughPoints points

def pairUp {β : Type} : List β → List (β × β)
  | x :: y :: rest => (x, y) :: pairUp rest
  | _ => []

def samplePairs {β : Type} (values : List β) : Except (Failure α) (List (β × β)) :=
  if values.length % 2 = 1 then .error (.oddSamples values.length)
  else if values.length < 4 then .error .fewSamples
  else .ok (pairUp values)

def interpolateFlat (values : List α) : Except (Failure α) (Fn α) := do
  let points ← samplePairs values
  interpolate points

/-- The gaps inside an interval, and the bounds inside it at which two defined segments meet. There
the function jumps if the values of both segments differ by more than the tolerance. -/
def discontinuitiesIn (i : Interval α) (tolerance : α) :
    List (Segment α (Fn α)) → Except (Failure α) (List (Segment α Discontinuity))
  | [] => .ok []
  | s :: rest =>
    if s.payload.isUndefined then do
      let later ← discontinuitiesIn i tolerance rest
      match s.range.inter? i with
      | some part => return ⟨part, .gap⟩ :: later
      | none => return later
    else match rest with
      | [] => .ok []
      | t :: _ =>
        let x := s.range.high
        if t.payload.isUndefined || !i.contains x then discontinuitiesIn i tolerance rest
        else do
          let a ← s.payload.evaluate x
          let b ← t.payload.evaluate x
          let kind := if Scalar.isClose a b 0 tolerance then Discontinuity.knot else .jump
          let later ← discontinuitiesIn i tolerance rest
          return ⟨.point x, kind⟩ :: later

def defaultTolerance : α := 1e-9

/-- The irregular points of a piecewise function on an interval, by default on its domain. Only
piecewise functions have this list. -/
def discontinuities (f : Fn α) (i : Option (Interval α)) (tolerance : Option α) :
    Except (Failure α) (List (Segment α Discontinuity)) :=
  match f with
  | piecewise segments =>
    match i <|> hull? segments with
    | some i => discontinuitiesIn i (tolerance.getD defaultTolerance) segments
    | none => .ok []
  | f => .error (.noAttribute f.kind.name "discontinuities")

end Fn

end FunctionAlgebra
