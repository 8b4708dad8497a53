import FunctionAlgebra.Sorted.Search

/-!
# Galloping

Counts the items at an end of a list that satisfy a predicate, where those stand together. Probes
at doubling distances from the end find a range that holds the last of them, and halving finds it
there: few comparisons if the number is small, and never many more than for halving alone.

## Main definitions

* `End` — the ends of a list.
* `gallop` — the range in which a predicate on indices turns from true to false.
* `countLeading` — the number of items at an end.
-/

namespace FunctionAlgebra

inductive End where
  | front
  | back
deriving DecidableEq, Repr

/-- A range `(low, high)` of indices up to `size` in which `p` turns from true to false. It is
known to hold below `low`. -/
def gallop (p : Nat → Bool) (size low : Nat) : Nat × Nat :=
  let probe := 2 * low - 1
  if probe < size then
    if p probe then gallop p size (probe + 1) else (low, probe)
  else (low, size)
termination_by size - low

theorem gallop_snd_le (p : Nat → Bool) (size low : Nat) : (gallop p size low).2 ≤ size := by
  fun_induction gallop p size low <;> grind

variable {β : Type}

/-- Number of items at the beginning of `xs` that satisfy `p`, if these stand together. Here `xs`
lists a run from the end `e` on. Halving goes by the order of the run, and so it prefers the items
near the end `e` if that is the back. -/
def countLeading (e : End) (p : β → Bool) (xs : List β) : Nat :=
  let items := xs.toArray
  let holds (i : Nat) : Bool := items[i]?.any p
  let size := items.size
  let (low, high) := gallop holds size 0
  match e with
  | .front => partitionPoint (fun i => !holds i) low high
  | .back => size - partitionPoint (fun i => holds (size - 1 - i)) (size - high) (size - low)

end FunctionAlgebra
