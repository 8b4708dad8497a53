import FunctionAlgebra.Interval
import FunctionAlgebra.Sorted.Stable
import FunctionAlgebra.Sorted.Relations

/-!
# The order of segments

Segments are ordered by their ranges alone. Equality also takes the payloads into account.

## Main definitions

* `Segment.sort` — segments in ascending order.
* `Segment.distinct` — segments without repetitions.
-/

namespace FunctionAlgebra.Segment

variable {α β : Type} [Scalar α]

instance [BEq β] : BEq (Segment α β) where
  beq s t := s.range == t.range && s.payload == t.payload

def less (s t : Segment α β) : Bool := s.range.compare t.range == .lt

/-- All relations between two segments. Segments with equal ranges and different payloads are both
greater than each other. -/
def relations [BEq β] (s t : Segment α β) : Relations := .ofLess (s.less t) (s == t)

def sort (segments : List (Segment α β)) : List (Segment α β) := sortStable less segments

def distinct [BEq β] (segments : List (Segment α β)) : List (Segment α β) :=
  (segments.foldl (fun kept s => if kept.any (s == ·) then kept else s :: kept) []).reverse

end FunctionAlgebra.Segment
