import FunctionAlgebra.Failure

/-!
# Angles

## Main definitions

* `Angle.fromZero` — an angle reduced to the turn that begins at zero.
* `Angle.aroundZero` — an angle reduced to the turn that has zero in its middle.
* `Angle.quarterTurns?` — the number of right angles, for multiples of a right angle.
-/

namespace FunctionAlgebra.Angle

variable {α : Type} [Scalar α]

def requireFinite (a : α) : Except (Failure α) α :=
  if Scalar.isNaN a then .error .undefinedAngle
  else if Scalar.isFinite a then .ok a
  else .error .infiniteAngle

/-- The angle less all full turns in it, at least zero and below a full turn. A result that is
rounded up to a full turn becomes zero. -/
def fromZero (a : α) : Except (Failure α) α := do
  let turns ← requireFinite (a / Scalar.fullTurn)
  let rest := a - Scalar.fullTurn * Scalar.ofInt (Scalar.floor turns)
  return if Scalar.le Scalar.fullTurn rest then 0 else rest

/-- The angle less full turns, above minus half a turn and at most half a turn. -/
def aroundZero (a : α) : Except (Failure α) α := do
  let rest ← fromZero a
  return if Scalar.lt Scalar.pi rest then rest - Scalar.fullTurn else rest

/-- How far an angle may be from a multiple of a right angle to count as one: ten units in the last
place of half a turn. -/
def tolerance : α := 4.440892098500626e-15

def quarterTurns? (a : α) : Except (Failure α) (Option Nat) := do
  let rest ← fromZero a
  let turns := Scalar.round (← requireFinite (rest / Scalar.quarterTurn))
  let error := Scalar.abs (rest - Scalar.ofInt turns * Scalar.quarterTurn)
  return if Scalar.lt tolerance error then none else some (turns % 4).toNat

end FunctionAlgebra.Angle
