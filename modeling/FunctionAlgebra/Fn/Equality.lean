import FunctionAlgebra.Fn.Basic

/-!
# Equality of functions

## Main definitions

* `BEq (Fn α)` — equal trees with equal numbers. The canonical constants equal the constants with
  their value, and a NaN makes a tree unequal to itself.
* `Fn.same` — indistinguishable trees.
-/

namespace FunctionAlgebra.Fn

variable {α : Type} [Scalar α]

mutual

def equal : Fn α → Fn α → Bool
  | zero, g => g.value?.any (0 == ·)
  | one, g => g.value?.any (1 == ·)
  | const v, g => g.value?.any (v == ·)
  | undefined, undefined => true
  | unary k s none, unary k' s' none => s == s' && k == k'
  | unary k s (some f), unary k' s' (some g) => s == s' && k == k' && equal f g
  | sum fs, sum gs => equalAll fs gs
  | product fs, product gs => equalAll fs gs
  | quotient n d, quotient n' d' => equal n n' && equal d d'
  | piecewise ss, piecewise ts => equalSegments ss ts
  | _, _ => false

def equalAll : List (Fn α) → List (Fn α) → Bool
  | [], [] => true
  | f :: fs, g :: gs => equal f g && equalAll fs gs
  | _, _ => false

def equalSegments : List (Segment α (Fn α)) → List (Segment α (Fn α)) → Bool
  | [], [] => true
  | ⟨i, f⟩ :: ss, ⟨j, g⟩ :: ts => i == j && equal f g && equalSegments ss ts
  | _, _ => false

end

instance : BEq (Fn α) := ⟨equal⟩

mutual

/-- Indistinguishable trees: the same leaves and nodes with indistinguishable numbers. -/
def same : Fn α → Fn α → Bool
  | zero, zero => true
  | one, one => true
  | const v, const w => Scalar.same v w
  | undefined, undefined => true
  | unary k s none, unary k' s' none => Scalar.same s s' && k.same k'
  | unary k s (some f), unary k' s' (some g) => Scalar.same s s' && k.same k' && same f g
  | sum fs, sum gs => sameAll fs gs
  | product fs, product gs => sameAll fs gs
  | quotient n d, quotient n' d' => same n n' && same d d'
  | piecewise ss, piecewise ts => sameSegments ss ts
  | _, _ => false

def sameAll : List (Fn α) → List (Fn α) → Bool
  | [], [] => true
  | f :: fs, g :: gs => same f g && sameAll fs gs
  | _, _ => false

def sameSegments : List (Segment α (Fn α)) → List (Segment α (Fn α)) → Bool
  | [], [] => true
  | ⟨i, f⟩ :: ss, ⟨j, g⟩ :: ts => i.same j && same f g && sameSegments ss ts
  | _, _ => false

end

def equalInner : Option (Fn α) → Option (Fn α) → Bool
  | none, none => true
  | some f, some g => f == g
  | _, _ => false

/-- Whether two lists hold, place by place, indistinguishable or equal functions. -/
def sameChildren : List (Fn α) → List (Fn α) → Bool
  | [], [] => true
  | f :: fs, g :: gs => (f.same g || f == g) && sameChildren fs gs
  | _, _ => false

def distinct (fs : List (Fn α)) : List (Fn α) :=
  (fs.foldl (fun kept f => if kept.any (f == ·) then kept else f :: kept) []).reverse

end FunctionAlgebra.Fn
