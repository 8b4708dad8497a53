import FunctionAlgebra.Fn.Basic

/-!
# Scaling

## Main definitions

* `Fn.scaleBy` — a function times a number.
* `Fn.withScale` — a function with another leading coefficient.
* `Fn.unit` — a function with leading coefficient one.
-/

namespace FunctionAlgebra.Fn

variable {α : Type} [Scalar α]

mutual

/-- A function times a number. The number is taken into the leading coefficient: of every term of
a sum, of the first factor of a product, of every payload of a piecewise function. Times zero is
the canonical zero, and times one is the function as it is. -/
def scaleBy (c : α) : Fn α → Fn α
  | zero => if c == 0 then zero else if c == 1 then zero else ofValue (0 * c)
  | one => if c == 0 then zero else if c == 1 then one else ofValue (1 * c)
  | const v => if c == 0 then zero else if c == 1 then const v else ofValue (v * c)
  | undefined => undefined
  | unary k s inner =>
    if c == 0 then zero else if c == 1 then unary k s inner else scaled k (s * c) inner
  | sum ts => if c == 0 then zero else if c == 1 then sum ts else sum (scaleAll c ts)
  | product fs => if c == 0 then zero else if c == 1 then product fs else product (scaleFirst c fs)
  | quotient n d =>
    if c == 0 then zero else if c == 1 then quotient n d else quotient (scaleBy c n) d
  | piecewise segments =>
    if c == 0 then zero else if c == 1 then piecewise segments
    else piecewise (scalePayloads c segments)

def scaleAll (c : α) : List (Fn α) → List (Fn α)
  | [] => []
  | f :: fs => scaleBy c f :: scaleAll c fs

def scaleFirst (c : α) : List (Fn α) → List (Fn α)
  | [] => []
  | f :: fs => scaleBy c f :: fs

def scalePayloads (c : α) : List (Segment α (Fn α)) → List (Segment α (Fn α))
  | [] => []
  | ⟨range, f⟩ :: rest => ⟨range, scaleBy c f⟩ :: scalePayloads c rest

end

theorem scaleAll_eq_map (c : α) (fs : List (Fn α)) : scaleAll c fs = fs.map (scaleBy c) := by
  induction fs with
  | nil => rfl
  | cons f fs ih => simp [scaleAll, ih]

theorem scalePayloads_eq_map (c : α) (segments : List (Segment α (Fn α))) :
    scalePayloads c segments = segments.map (·.map (scaleBy c)) := by
  induction segments with
  | nil => rfl
  | cons s rest ih => simp [scalePayloads, Segment.map, ih]

/-- A function with another leading coefficient. Where there is none to replace, the function is
multiplied. -/
def withScale (c : α) : Fn α → Fn α
  | zero => if c == 0 then zero else ofValue c
  | one => if c == 1 then one else ofValue c
  | const v => if c == v then const v else ofValue c
  | unary k s inner => if c == s then unary k s inner else scaled k c inner
  | quotient n d => if c == n.scale then quotient n d else quotient (withScale c n) d
  | f => if 1 == c then f else scaleBy (c / 1) f

def unit (f : Fn α) : Fn α := if f.scale == 0 || f.scale == 1 then f else f.withScale 1

end FunctionAlgebra.Fn
