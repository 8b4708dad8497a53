import FunctionAlgebra.Failure
import FunctionAlgebra.Fn.Basic
import FunctionAlgebra.Sorted.Search

/-!
# Evaluation

## Main definitions

* `locate?` — the segment that contains a point, found by binary search.
* `Fn.evaluate` — the value of a function.
-/

namespace FunctionAlgebra

variable {α : Type} [Scalar α]

def startedBefore (ranges : Array (Interval α)) (x : α) : Nat :=
  partitionPoint (fun i => ranges[i]?.any fun r => Scalar.lt x r.low) 0 ranges.size

/-- Index of the range that contains a point, for ascending disjoint ranges. Only the last two
ranges that begin at or before the point are tried: an earlier one ends before it. -/
def locate? (ranges : Array (Interval α)) (x : α) : Option Nat :=
  let n := startedBefore ranges x
  (List.range' (n - 2) (n - (n - 2))).find? fun i => ranges[i]?.any (·.contains x)

def hull? {β : Type} (segments : List (Segment α β)) : Option (Interval α) :=
  match segments.head?, segments.getLast? with
  | some first, some last => some (.closed first.range.low last.range.high)
  | _, _ => none

namespace Fn

mutual

/-- The value of a function at a point. It fails only outside the domain of a piecewise function;
poles and undefined points give infinities and NaN. -/
def evaluate (x : α) : Fn α → Except (Failure α) α
  | zero => .ok 0
  | one => .ok 1
  | const v => .ok v
  | undefined => .ok Scalar.nan
  | unary k s none => .ok (if s == 0 then 0 else k.apply s x)
  | unary k s (some inner) =>
    if s == 0 then .ok 0 else do
      let y ← inner.evaluate x
      return k.apply s y
  | sum ts => sumAt x 0 ts
  | product fs => productAt x 1 fs
  | quotient n d => do
    let a ← n.evaluate x
    let b ← d.evaluate x
    return a / b
  | piecewise segments =>
    if Scalar.isNaN x then .ok Scalar.nan
    else match hull? segments with
      | none => .ok Scalar.nan
      | some domain =>
        if Scalar.lt x domain.low || Scalar.lt domain.high x then
          .error (.outsideDomain x domain.low domain.high)
        else match locate? (segments.map (·.range)).toArray x with
          | none => .ok Scalar.nan
          | some i => payloadAt x i segments

def sumAt (x total : α) : List (Fn α) → Except (Failure α) α
  | [] => .ok total
  | t :: ts => do
    let y ← t.evaluate x
    sumAt x (total + y) ts

def productAt (x total : α) : List (Fn α) → Except (Failure α) α
  | [] => .ok total
  | f :: fs => do
    let y ← f.evaluate x
    productAt x (total * y) fs

def payloadAt (x : α) : Nat → List (Segment α (Fn α)) → Except (Failure α) α
  | _, [] => .ok Scalar.nan
  | 0, ⟨_, f⟩ :: _ => f.evaluate x
  | i + 1, _ :: rest => payloadAt x i rest

end

/-- The interval outside which a piecewise function has no value. Other functions have values on
the whole line. -/
def domain : Fn α → Option (Interval α)
  | piecewise segments => hull? segments
  | _ => none

end Fn

end FunctionAlgebra
