import FunctionAlgebra.Fn.Knots
import FunctionAlgebra.Interval.Checked

/-!
# Checked knots

The positions of knots are collected by a recursion of its own, which relies on the report: it reads
the value of every denominator, and only numbers have one, and it builds the parts of segments anew.

## Main definitions

* `Fn.collectKnots` — the positions of the knots, if they can be read.
* `Fn.checkedKnots` — the list of the knots, if the report allows one and it can be read.
-/

namespace FunctionAlgebra.Fn

variable {α : Type} [Scalar α]

/-- The positions that a part lists, which is not asked for any if it reports no knots. -/
def askedFor (report : KnotReport) (positions : Except (Failure α) (List α)) :
    Except (Failure α) (List α) :=
  if report = .noKnots then .ok [] else positions

mutual

def collectKnots : Fn α → Interval α → Except (Failure α) (List α)
  | unary _ s (some f), i =>
    if s == 0 then .ok [] else askedFor (f.knotReport i) (collectKnots f i)
  | sum fs, i => collectAll fs i
  | product fs, i => collectAll fs i
  | quotient n d, i =>
    match d.value? with
    | none => .error (.noAttribute d.kind.name "value")
    | some v =>
      if v == 0 then .ok (undefinedKnots i) else askedFor (n.knotReport i) (collectKnots n i)
  | piecewise segments, i =>
    ((boundaries segments).filter i.contains ++ ·) <$> collectInPieces segments i
  | f, i => .ok (f.knotPositions i)

def collectAll : List (Fn α) → Interval α → Except (Failure α) (List α)
  | [], _ => .ok []
  | f :: fs, i => do
    let own ← askedFor (f.knotReport i) (collectKnots f i)
    return own ++ (← collectAll fs i)

def collectInPieces : List (Segment α (Fn α)) → Interval α → Except (Failure α) (List α)
  | [], _ => .ok []
  | ⟨range, f⟩ :: rest, i => do
    match ← (⟨range, ()⟩ : Segment α Unit).checkedClip i with
    | none => collectInPieces rest i
    | some part =>
      let own ← askedFor (f.knotReport part.range) (collectKnots f part.range)
      return own ++ (← collectInPieces rest i)

end

def checkedKnots (f : Fn α) (i : Interval α) : Except (Failure α) (List α) :=
  match f.knotReport i with
  | .noKnots => .ok []
  | .finite => sortDistinct <$> f.collectKnots i
  | report => do
    let text ← f.render
    .error (.knotsUnlisted text i report)

end FunctionAlgebra.Fn
