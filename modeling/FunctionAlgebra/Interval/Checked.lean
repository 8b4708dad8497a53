import FunctionAlgebra.Failure

/-!
# Checked intervals

## Main definitions

* `Interval.make` — the interval with given bounds, if it is valid.
* `Interval.ofPair` — the closed interval given by a pair of bounds.
* `Segment.checkedClip` — the part of a segment inside an interval, with its bounds checked.
-/

namespace FunctionAlgebra

variable {α β : Type} [Scalar α]

namespace Interval

def make (low : α) (lowClosed : Bool) (high : α) (highClosed : Bool) :
    Except (Failure α) (Interval α) :=
  if Scalar.isNaN low || Scalar.isNaN high then .error .boundUndefined
  else if Scalar.lt high low then .error (.boundsReversed low high)
  else if low == high && !(lowClosed && highClosed) then .error (.openPoint low)
  else .ok ⟨low, lowClosed, high, highClosed⟩

def ofPair : List α → Except (Failure α) (Interval α)
  | [low, high] => make low true high true
  | [] => .error (.pairTooShort 0)
  | [_] => .error (.pairTooShort 1)
  | _ => .error .pairTooLong

def ofFirstTwo : List α → Except (Failure α) (Interval α)
  | low :: high :: _ => make low true high true
  | _ => .error .pairIndex

end Interval

/-- The part of a segment inside an interval, with the same payload. Its bounds are checked as
those of any other interval. -/
def Segment.checkedClip (s : Segment α β) (i : Interval α) :
    Except (Failure α) (Option (Segment α β)) :=
  if s.range.disjoint i then .ok none
  else do
    let (low, lowClosed) := s.range.tighterLow i
    let (high, highClosed) := s.range.tighterHigh i
    let part ← Interval.make low lowClosed high highClosed
    return some ⟨part, s.payload⟩

end FunctionAlgebra
