import FunctionAlgebra.Failure
import FunctionAlgebra.Fn.Equality
import FunctionAlgebra.Sorted.Stable
import FunctionAlgebra.Sorted.Relations

/-!
# The order of functions

Functions of different kinds are ordered by rank, functions of one kind by their parts. Products
are first compared with the scales of their factors left aside, so that products which differ only
in scales come together.

## Main definitions

* `Fn.compare` — three-way comparison of functions.
* `Fn.compareTo` — the same by way of kinds.
* `Fn.sort` — a list of functions in ascending order.
-/

namespace FunctionAlgebra.Fn

variable {α : Type} [Scalar α]

def unitScale (s : α) : α := if s == 0 || s == 1 then s else 1

def compareScales : List (Fn α) → List (Fn α) → Ordering
  | f :: fs, g :: gs => (Scalar.cmp f.scale g.scale).then (compareScales fs gs)
  | _, _ => .eq

mutual

/-- Three-way comparison. With `unit`, the functions are taken with leading coefficient one, or
zero where it is zero. -/
def compareWith (unit : Bool) : Fn α → Fn α → Ordering
  | unary k s none, unary k' s' inner' =>
    (Ord.compare k.kind.rank k'.kind.rank).then <|
    (if inner'.isNone then Ordering.eq else .lt).then <|
    (Scalar.cmpList k.parameters k'.parameters).then <|
    if unit then Scalar.cmp (unitScale s) (unitScale s') else Scalar.cmp s s'
  | unary k s (some f), unary k' s' inner' =>
    (Ord.compare k.kind.rank k'.kind.rank).then <|
    (match inner' with
      | none => Ordering.gt
      | some g => compareWith false f g).then <|
    (Scalar.cmpList k.parameters k'.parameters).then <|
    if unit then Scalar.cmp (unitScale s) (unitScale s') else Scalar.cmp s s'
  | sum fs, sum gs => (Ord.compare fs.length gs.length).then (compareAll false fs gs)
  | product fs, product gs =>
    (Ord.compare fs.length gs.length).then <|
    (compareAll true fs gs).then <|
    compareScales fs gs
  | quotient n d, quotient n' d' => (compareWith false d d').then (compareWith unit n n')
  | piecewise ss, piecewise ts =>
    (Ord.compare ss.length ts.length).then (compareSegments ss ts)
  | f, g =>
    match f.value?, g.value? with
    | some v, some w =>
      if unit then Scalar.cmp (unitScale v) (unitScale w) else Scalar.cmp v w
    | _, _ => Ord.compare f.kind.rank g.kind.rank

def compareAll (unit : Bool) : List (Fn α) → List (Fn α) → Ordering
  | f :: fs, g :: gs => (compareWith unit f g).then (compareAll unit fs gs)
  | _, _ => .eq

def compareSegments : List (Segment α (Fn α)) → List (Segment α (Fn α)) → Ordering
  | ⟨i, f⟩ :: ss, ⟨j, g⟩ :: ts =>
    (i.compare j).then <| (compareWith false f g).then <| compareSegments ss ts
  | _, _ => .eq

end

def compare (f g : Fn α) : Ordering := compareWith false f g

def compareWithinKind (f g : Fn α) : Except (Failure α) Ordering :=
  if f.kind = g.kind then .ok (f.compare g) else .error (.kindsDiffer f.kind.name g.kind.name)

def compareTo (f g : Fn α) : Except (Failure α) Ordering :=
  match Ord.compare f.kind.rank g.kind.rank with
  | .eq => f.compareWithinKind g
  | order => .ok order

def less (f g : Fn α) : Bool := f.compare g == .lt

def relations (f g : Fn α) : Relations := .ofLess (f.less g) (f == g)

def sort (fs : List (Fn α)) : List (Fn α) := sortStable less fs

end FunctionAlgebra.Fn
