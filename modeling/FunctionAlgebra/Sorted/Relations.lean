/-!
# Order relations

## Main definitions

* `Relations` — how two values stand to each other.
* `Relations.ofLess` — all relations, from the strict one and equality.
-/

namespace FunctionAlgebra

structure Relations where
  less : Bool
  lessEqual : Bool
  greater : Bool
  greaterEqual : Bool
  equal : Bool
deriving DecidableEq, Repr

/-- What is not smaller is greater or equal. What is neither smaller nor equal is greater, also
where the order does not tell two values apart that are not equal. -/
def Relations.ofLess (less equal : Bool) : Relations :=
  ⟨less, less || equal, !less && !equal, !less, equal⟩

end FunctionAlgebra
