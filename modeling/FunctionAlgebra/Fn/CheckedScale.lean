import FunctionAlgebra.Fn.Piecewise
import FunctionAlgebra.Fn.Scale

/-!
# Checked scaling

Multiples are built through the same constructors as all other functions: a sum needs a term, a
product a factor, and segments must not overlap. A coefficient that is replaced by division must not
be zero.

## Main definitions

* `Fn.checkedScaleBy` — a function times a number, if it can be built.
* `Fn.rescale` — a leading coefficient replaced by division.
* `Fn.checkedWithScale` — a function with another leading coefficient, if it can be built.
-/

namespace FunctionAlgebra.Fn

variable {α : Type} [Scalar α]

def checkedSum (ts : List (Fn α)) : Except (Failure α) (Fn α) :=
  if ts.isEmpty then .error .noTerms else .ok (sum ts)

def checkedProduct (fs : List (Fn α)) : Except (Failure α) (Fn α) :=
  if fs.isEmpty then .error .noFactors else .ok (product fs)

mutual

/-- A function times a number, built anew from its multiplied parts. -/
def checkedScaleBy (c : α) : Fn α → Except (Failure α) (Fn α)
  | sum ts =>
    if c == 0 then .ok zero else if c == 1 then .ok (sum ts)
    else checkedScaleAll c ts >>= checkedSum
  | product fs =>
    if c == 0 then .ok zero else if c == 1 then .ok (product fs)
    else checkedScaleFirst c fs >>= checkedProduct
  | quotient n d =>
    if c == 0 then .ok zero else if c == 1 then .ok (quotient n d)
    else (quotient · d) <$> checkedScaleBy c n
  | piecewise segments =>
    if c == 0 then .ok zero else if c == 1 then .ok (piecewise segments)
    else checkedScalePayloads c segments >>= ofSegments
  | f => .ok (f.scaleBy c)

def checkedScaleAll (c : α) : List (Fn α) → Except (Failure α) (List (Fn α))
  | [] => .ok []
  | f :: fs => do
    let scaled ← checkedScaleBy c f
    return scaled :: (← checkedScaleAll c fs)

def checkedScaleFirst (c : α) : List (Fn α) → Except (Failure α) (List (Fn α))
  | [] => .ok []
  | f :: fs => (· :: fs) <$> checkedScaleBy c f

def checkedScalePayloads (c : α) :
    List (Segment α (Fn α)) → Except (Failure α) (List (Segment α (Fn α)))
  | [] => .ok []
  | ⟨range, f⟩ :: rest => do
    let scaled ← checkedScaleBy c f
    return ⟨range, scaled⟩ :: (← checkedScalePayloads c rest)

end

def rescale (c : α) (f : Fn α) : Except (Failure α) (Fn α) :=
  if f.scale == c then .ok f
  else if f.scale == 0 then .error .zeroScale
  else f.checkedScaleBy (c / f.scale)

/-- A function with another leading coefficient. Where there is none to replace, the function is
rescaled. -/
def checkedWithScale (c : α) : Fn α → Except (Failure α) (Fn α)
  | undefined => rescale c undefined
  | sum ts => rescale c (sum ts)
  | product fs => rescale c (product fs)
  | piecewise segments => rescale c (piecewise segments)
  | quotient n d =>
    if c == n.scale then .ok (quotient n d) else (quotient · d) <$> checkedWithScale c n
  | f => .ok (f.withScale c)

end FunctionAlgebra.Fn
