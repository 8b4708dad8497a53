import FunctionAlgebra.Attempt
import FunctionAlgebra.Fn.Equality
import FunctionAlgebra.Fn.Piecewise
import FunctionAlgebra.Interval.Checked

/-!
# Rebuilding piecewise functions

An operation on a piecewise function is applied to its payloads. Unless all of them come back as
they were, a new piecewise function is made of the segments with the new payloads. Their bounds are
checked again, and they are sorted and joined like any other segments.

## Main definitions

* `Segment.withPayload` — a segment with another payload.
* `Fn.mapPayloads` — a piecewise function with an operation applied to its payloads.
-/

namespace FunctionAlgebra

variable {α : Type} [Scalar α]

def Segment.withPayload {β γ : Type} (s : Segment α β) (payload : γ) :
    Except (Failure α) (Segment α γ) := do
  let range ← Interval.make s.range.low s.range.lowClosed s.range.high s.range.highClosed
  return ⟨range, payload⟩

namespace Fn

/-- The piecewise function with an operation applied to the payloads of given segments, which it is
made of. If the operation changes no payload, the function is made of the segments as they are. -/
def mapPayloads (op : Fn α → Attempt α (Fn α)) (segments : List (Segment α (Fn α))) :
    Attempt α (Fn α) := do
  let payloads ← segments.mapM (op ·.payload)
  if sameAll payloads (segments.map (·.payload)) then return piecewise segments
  else Attempt.ofExcept do
    let renewed ← (segments.zip payloads).mapM fun (s, f) => s.withPayload f
    ofSegments renewed

end Fn

end FunctionAlgebra
