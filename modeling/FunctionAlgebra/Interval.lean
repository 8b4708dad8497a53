import FunctionAlgebra.Text.Number

/-!
# Intervals

Intervals of the line whose ends are open or closed, and segments: intervals with a payload.

## Main definitions

* `Interval`, `Interval.isValid` — two bounds; a valid interval has at least one point.
* `Interval.contains`, `Interval.covers`, `Interval.disjoint` — membership, inclusion and
  disjointness.
* `Interval.inter?` — the common part.
* `Interval.compare` — the order by lower, then by upper bound.
* `Segment` — an interval with a payload.
-/

namespace FunctionAlgebra

variable {α β γ : Type}

structure Interval (α : Type) where
  low : α
  lowClosed : Bool
  high : α
  highClosed : Bool

namespace Interval

variable [Scalar α]

def closed (low high : α) : Interval α := ⟨low, true, high, true⟩

def point (x : α) : Interval α := closed x x

def width (i : Interval α) : α := i.high - i.low

def isPoint (i : Interval α) : Bool := i.low == i.high

/-- An interval is valid if its bounds are numbers in ascending order, or one number that belongs
to it on both sides. -/
def isValid (i : Interval α) : Bool :=
  Scalar.lt i.low i.high || (i.low == i.high && i.lowClosed && i.highClosed)

def contains (i : Interval α) (x : α) : Bool :=
  !(Scalar.lt x i.low || Scalar.lt i.high x || (x == i.low && !i.lowClosed) ||
    (x == i.high && !i.highClosed))

/-- Whether all points of `j` lie inside, told by the bounds. -/
def covers (i j : Interval α) : Bool :=
  !(Scalar.lt j.low i.low || Scalar.lt i.high j.high ||
    (j.low == i.low && j.lowClosed && !i.lowClosed) ||
    (j.high == i.high && j.highClosed && !i.highClosed))

/-- Whether there is no common point. A common bound is one if it belongs to both. -/
def disjoint (i j : Interval α) : Bool :=
  if Scalar.lt i.high j.low || Scalar.lt j.high i.low then true
  else if i.high == j.low then !(i.highClosed && j.lowClosed)
  else if i.low == j.high then !(i.lowClosed && j.highClosed)
  else false

def tighterLow (i j : Interval α) : α × Bool :=
  if Scalar.lt j.low i.low then (i.low, i.lowClosed)
  else if Scalar.lt i.low j.low then (j.low, j.lowClosed)
  else (i.low, i.lowClosed && j.lowClosed)

def tighterHigh (i j : Interval α) : α × Bool :=
  if Scalar.lt i.high j.high then (i.high, i.highClosed)
  else if Scalar.lt j.high i.high then (j.high, j.highClosed)
  else (i.high, i.highClosed && j.highClosed)

def inter? (i j : Interval α) : Option (Interval α) :=
  if i.disjoint j then none
  else some ⟨(i.tighterLow j).1, (i.tighterLow j).2, (i.tighterHigh j).1, (i.tighterHigh j).2⟩

/-- Compare the lower bounds, a closed one first, and then the upper bounds, an open one first. -/
def compare (i j : Interval α) : Ordering :=
  (Scalar.cmp i.low j.low).then <|
  (Ord.compare j.lowClosed i.lowClosed).then <|
  (Scalar.cmp i.high j.high).then <|
  Ord.compare i.highClosed j.highClosed

instance : BEq (Interval α) where
  beq i j := i.low == j.low && i.lowClosed == j.lowClosed && i.high == j.high &&
    i.highClosed == j.highClosed

def same (i j : Interval α) : Bool :=
  Scalar.same i.low j.low && i.lowClosed == j.lowClosed && Scalar.same i.high j.high &&
    i.highClosed == j.highClosed

def text (i : Interval α) : String :=
  (if i.lowClosed then "[" else "(") ++ Scalar.text i.low ++ ", " ++ Scalar.text i.high ++
    (if i.highClosed then "]" else ")")

end Interval

structure Segment (α β : Type) where
  range : Interval α
  payload : β

namespace Segment

variable [Scalar α]

def map (f : β → γ) (s : Segment α β) : Segment α γ := ⟨s.range, f s.payload⟩

def clip? (s : Segment α β) (i : Interval α) : Option (Segment α β) :=
  (s.range.inter? i).map (⟨·, s.payload⟩)

end Segment

end FunctionAlgebra
