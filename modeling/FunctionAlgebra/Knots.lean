import FunctionAlgebra.Interval

/-!
# Knots

A knot is a point at which a function or its derivative is not continuous. A report tells how much
is known about the knots on an interval.

## Main definitions

* `KnotReport` — no knots, finitely many, infinitely many, or nothing known.
* `KnotReport.combineWith`, `KnotReport.combine` — the report on parts taken together.
* `Discontinuity` — kinds of irregular points of a piecewise function.
-/

namespace FunctionAlgebra

/-- What is known about the knots of a function on an interval. -/
inductive KnotReport where
  /-- There are none. -/
  | noKnots
  /-- There are finitely many, and they can be listed. -/
  | finite
  /-- There are infinitely many. -/
  | infinite
  /-- Nothing is known. -/
  | unknown
deriving DecidableEq, Repr

namespace KnotReport

/-- Reports are ordered by how little they promise. -/
def rank : KnotReport → Nat
  | noKnots => 0
  | finite => 1
  | infinite => 2
  | unknown => 3

def name : KnotReport → String
  | noKnots => "NONE"
  | finite => "KNOWN_FINITE"
  | infinite => "KNOWN_INFINITE"
  | unknown => "UNKNOWN"

def combineWith (r s : KnotReport) : KnotReport := if s.rank ≤ r.rank then r else s

def combine (rs : List KnotReport) : KnotReport := rs.foldl combineWith noKnots

def isFinite : KnotReport → Bool
  | noKnots | finite => true
  | infinite | unknown => false

theorem rank_injective {r s : KnotReport} (h : r.rank = s.rank) : r = s := by
  cases r <;> cases s <;> first | rfl | cases h

theorem rank_combineWith (r s : KnotReport) :
    (r.combineWith s).rank = Nat.max r.rank s.rank := by
  cases r <;> cases s <;> rfl

theorem combineWith_assoc (r s t : KnotReport) :
    (r.combineWith s).combineWith t = r.combineWith (s.combineWith t) := by
  cases r <;> cases s <;> cases t <;> rfl

@[simp] theorem combineWith_noKnots (r : KnotReport) : r.combineWith noKnots = r := by
  cases r <;> rfl

@[simp] theorem noKnots_combineWith (r : KnotReport) : noKnots.combineWith r = r := by
  cases r <;> rfl

end KnotReport

inductive Discontinuity where
  /-- The function is continuous, but its definition changes. -/
  | knot
  /-- The function jumps. -/
  | jump
  /-- The function is undefined. -/
  | gap
deriving DecidableEq, Repr

def Discontinuity.name : Discontinuity → String
  | knot => "KNOT"
  | jump => "DISCONTINUOUS"
  | gap => "GAP"

variable {α : Type} [Scalar α]

/-- A function that is undefined on a whole interval has infinitely many knots there, unless the
interval is a point. -/
def undefinedReport (i : Interval α) : KnotReport := if i.isPoint then .finite else .infinite

def undefinedKnots (i : Interval α) : List α := if i.isPoint then [i.low] else []

end FunctionAlgebra
