import FunctionAlgebra.Fn.Basic

/-!
# Records

The form in which a function is stored: a tree of uniform nodes, in which the canonical leaves are
given by name.

## Main definitions

* `Record` — stored trees.
* `Fn.toRecord`, `Record.toFn?` — writing and reading.
-/

namespace FunctionAlgebra

variable {α : Type}

inductive Record (α : Type) where
  /-- One of the canonical leaves. -/
  | canonical (name : String)
  /-- Any other function: its kind, its numbers, the bounds of its segments and its parts. -/
  | node (kind : Fn.Kind) (numbers : List α) (ranges : List (Interval α))
      (parts : List (Record α))

namespace Fn

mutual

/-- The record of a function. The numbers of a standard function are its scale and its
parameters. -/
def toRecord : Fn α → Record α
  | zero => .canonical "ZERO"
  | one => .canonical "ONE"
  | undefined => .canonical "NAN"
  | const v => .node .constant [v] [] []
  | unary k s none => .node k.kind (s :: k.parameters) [] []
  | unary k s (some f) => .node k.kind (s :: k.parameters) [] [f.toRecord]
  | sum ts => .node .sum [] [] (allToRecords ts)
  | product fs => .node .product [] [] (allToRecords fs)
  | quotient n d => .node .quotient [] [] [n.toRecord, d.toRecord]
  | piecewise segments =>
    .node .piecewise [] (segments.map (·.range)) (payloadsToRecords segments)

def allToRecords : List (Fn α) → List (Record α)
  | [] => []
  | f :: fs => f.toRecord :: allToRecords fs

def payloadsToRecords : List (Segment α (Fn α)) → List (Record α)
  | [] => []
  | ⟨_, f⟩ :: rest => f.toRecord :: payloadsToRecords rest

end

end Fn

def Kernel.ofKind? : Fn.Kind → List α → Option (Kernel α)
  | .power, [p] => some (power p)
  | .sine, [omega, shift] => some (sine omega shift)
  | .arcSine, [shift] => some (arcSine shift)
  | .arcTangent, [shift] => some (arcTangent shift)
  | .exponential, [] => some exponential
  | .logarithm, [] => some logarithm
  | _, _ => none

def Fn.ofParts? (kind : Fn.Kind) (numbers : List α) (ranges : List (Interval α))
    (parts : List (Fn α)) : Option (Fn α) :=
  match kind, numbers, parts with
  | .constant, [v], [] => some (.const v)
  | .sum, [], ts => some (.sum ts)
  | .product, [], fs => some (.product fs)
  | .quotient, [], [n, d] => some (.quotient n d)
  | .piecewise, [], fs => some (.piecewise (ranges.zipWith Segment.mk fs))
  | kind, s :: ps, [] => (Kernel.ofKind? kind ps).map fun k => .unary k s none
  | kind, s :: ps, [f] => (Kernel.ofKind? kind ps).map fun k => .unary k s (some f)
  | _, _, _ => none

namespace Record

mutual

def toFn? : Record α → Option (Fn α)
  | canonical name =>
    match name with
    | "ZERO" => some .zero
    | "ONE" => some .one
    | "NAN" => some .undefined
    | _ => none
  | node kind numbers ranges parts => do
    let parts ← allToFns? parts
    Fn.ofParts? kind numbers ranges parts

def allToFns? : List (Record α) → Option (List (Fn α))
  | [] => some []
  | r :: rs => do
    let f ← r.toFn?
    let fs ← allToFns? rs
    return f :: fs

end

end Record

end FunctionAlgebra
