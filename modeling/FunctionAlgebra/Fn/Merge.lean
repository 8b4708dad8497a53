import FunctionAlgebra.Attempt
import FunctionAlgebra.Fn.Order
import FunctionAlgebra.Fn.Scale

/-!
# Merging

Two functions may have a sum, a product or a quotient that is one function of their kind: like
terms, powers of one base, quotients over one denominator. The merged function is not simplified.

## Main definitions

* `Fn.mergeMultiply?`, `Fn.mergeDivide?` — product and quotient as one function.
* `Fn.mergeAddWith` — sum as one function, given how to simplify the sum of two numerators.
* `mergeNeighbours` — merge the neighbours in a sorted list until none are left to merge.
-/

namespace FunctionAlgebra

namespace Fn

variable {α : Type} [Scalar α]

/-- The product of two functions as one function, if they are constants or powers. Powers of one
base have their exponents added, and powers with one exponent become a power of the product of
their bases. The undefined function absorbs any factor behind it. -/
def mergeMultiply? (f g : Fn α) : Option (Fn α) :=
  match f, g with
  | undefined, _ => some undefined
  | unary (.power p) s inner, unary (.power q) t inner' =>
    if equalInner inner inner' then some (power inner (s * t) (p + q))
    else if p == q then
      let bases := sort [inner.getD identity, inner'.getD identity]
      some (power (some (product bases)) (s * t) p)
    else none
  | f, g => match f.value?, g.value? with
    | some v, some w => some (const (v * w))
    | _, _ => none

/-- The quotient of two functions as one function, if they are constants or powers of one base.
A power with weight zero divides nothing. The undefined function absorbs any divisor. -/
def mergeDivide? (f g : Fn α) : Option (Fn α) :=
  match f, g with
  | undefined, _ => some undefined
  | unary (.power p) s inner, unary (.power q) t inner' =>
    if t == 0 then none
    else if equalInner inner inner' then some (power inner (s / t) (p - q))
    else none
  | f, g => match f.value?, g.value? with
    | some v, some w => some (const (v / w))
    | _, _ => none

/-- The sum of two functions as one function, if they are constants, differ only in their leading
coefficient, or are quotients over one denominator. The undefined function absorbs any term behind
it. -/
def mergeAddWith (simplify : Fn α → Attempt α (Fn α)) (f g : Fn α) :
    Attempt α (Option (Fn α)) :=
  match f, g with
  | undefined, _ => pure (some undefined)
  | unary k s inner, unary k' t inner' =>
    pure <| if k == k' && equalInner inner inner' then some (scaled k (s + t) inner) else none
  | product (a :: as), product (b :: bs) =>
    pure <| if equalAll as bs && a.unit == b.unit then
      some (product (a.withScale (a.scale + b.scale) :: as)) else none
  | quotient n d, quotient n' d' =>
    if d == d' then do
      let top ← simplify (sum [n, n'])
      return some (quotient top d)
    else pure none
  | f, g => match f.value?, g.value? with
    | some v, some w => pure (some (const (v + w)))
    | _, _ => pure none

end Fn

section Neighbours

variable {α β : Type}

/-- Go through a list once, from its first item `x` on, and replace neighbours that merge. A merged
item is tried again with its next neighbour. The answer tells whether any did merge. -/
def mergePass (merge : β → β → Attempt α (Option β)) : β → List β → Attempt α (Bool × List β)
  | x, [] => pure (false, [x])
  | x, y :: rest => do
    match ← merge x y with
    | some z =>
      let (_, items) ← mergePass merge z rest
      return (true, items)
    | none =>
      let (changed, items) ← mergePass merge y rest
      return (changed, x :: items)

/-- Repeat passes, sorting in between, until one changes nothing. A pass that changes something
shortens the list, so there are no more passes than items. -/
def mergePasses (sort : List β → List β) (merge : β → β → Attempt α (Option β)) :
    Nat → List β → Attempt α (List β)
  | n + 1, x :: rest => do
    let (changed, items) ← mergePass merge x rest
    if changed then mergePasses sort merge n (sort items) else return items
  | _, items => pure items

def mergeNeighbours (sort : List β → List β) (merge : β → β → Attempt α (Option β))
    (items : List β) : Attempt α (List β) :=
  mergePasses sort merge items.length (sort items)

end Neighbours

end FunctionAlgebra
