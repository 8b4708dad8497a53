/-!
# Binary search

## Main definitions

* `partitionPoint` — where a predicate on indices turns from false to true, found by halving.
-/

namespace FunctionAlgebra

/-- The index in `low … high` up to which `p` fails and from which on it holds, found by halving
the range. It is the only such index if `p` stays true once it is true. -/
def partitionPoint (p : Nat → Bool) (low high : Nat) : Nat :=
  if low < high then
    let mid := (low + high) / 2
    if p mid then partitionPoint p low mid else partitionPoint p (mid + 1) high
  else low
termination_by high - low

theorem le_partitionPoint (p : Nat → Bool) (low high : Nat) :
    low ≤ partitionPoint p low high := by
  fun_induction partitionPoint p low high <;> omega

theorem partitionPoint_le (p : Nat → Bool) {low high : Nat} (h : low ≤ high) :
    partitionPoint p low high ≤ high := by
  fun_induction partitionPoint p low high <;> omega

end FunctionAlgebra
