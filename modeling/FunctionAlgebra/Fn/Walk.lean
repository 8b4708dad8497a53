import FunctionAlgebra.Fn.Render

/-!
# Walking through a tree

## Main definitions

* `Fn.children` — the direct parts of a function, with their keys.
* `Fn.walk` — all parts of a function, each before its own parts.
* `Fn.outline` — a function with all its parts, line by line.
-/

namespace FunctionAlgebra

/-- A part of a tree, its key in the part above it, and all parts above it from the root on. -/
structure Visit (α : Type) where
  ancestors : List (Fn α)
  key : String
  node : Fn α

namespace Fn

variable {α : Type}

def numbered (word : String) (fs : List (Fn α)) : List (String × Fn α) :=
  fs.mapIdx fun i f => (word ++ toString i, f)

def children : Fn α → List (String × Fn α)
  | unary _ _ (some f) => [("chain", f)]
  | sum ts => numbered "term" ts
  | product fs => numbered "factor" fs
  | quotient n d => [("numerator", n), ("denominator", d)]
  | piecewise segments => numbered "segment" (segments.map (·.payload))
  | _ => []

mutual

def walkBelow (ancestors : List (Fn α)) : Fn α → List (Visit α)
  | zero | one | const _ | undefined | unary _ _ none => []
  | unary k s (some f) =>
    let above := ancestors ++ [unary k s (some f)]
    ⟨above, "chain", f⟩ :: walkBelow above f
  | sum ts => walkAll (ancestors ++ [sum ts]) "term" 0 ts
  | product fs => walkAll (ancestors ++ [product fs]) "factor" 0 fs
  | quotient n d =>
    let above := ancestors ++ [quotient n d]
    ⟨above, "numerator", n⟩ :: walkBelow above n ++
      ⟨above, "denominator", d⟩ :: walkBelow above d
  | piecewise segments => walkSegments (ancestors ++ [piecewise segments]) 0 segments

def walkAll (above : List (Fn α)) (word : String) (i : Nat) : List (Fn α) → List (Visit α)
  | [] => []
  | f :: fs =>
    ⟨above, word ++ toString i, f⟩ :: walkBelow above f ++ walkAll above word (i + 1) fs

def walkSegments (above : List (Fn α)) (i : Nat) : List (Segment α (Fn α)) → List (Visit α)
  | [] => []
  | ⟨_, f⟩ :: rest =>
    ⟨above, "segment" ++ toString i, f⟩ :: walkBelow above f ++ walkSegments above (i + 1) rest

end

/-- All parts of a function, each followed by its own parts, with or without the function
itself. -/
def walk (f : Fn α) (includeRoot : Bool) : List (Visit α) :=
  if includeRoot then ⟨[], "", f⟩ :: walkBelow [] f else walkBelow [] f

variable [Scalar α]

def outlineLine (depth : Nat) (name : String) (f : Fn α) : Except (Failure α) String := do
  let text ← f.render
  return "".intercalate (List.replicate depth ". ") ++ name ++ ": " ++ text ++ " <" ++
    f.kind.name ++ ">"

def outline (f : Fn α) (name : String) : Except (Failure α) (List String) := do
  let first ← outlineLine 0 name f
  let rest ← (f.walk false).mapM fun v => outlineLine v.ancestors.length v.key v.node
  return first :: rest

end Fn

end FunctionAlgebra
