import FunctionAlgebra.Angle
import FunctionAlgebra.Proofs.Attempt
import FunctionAlgebra.Proofs.Exact

/-!
# Angles

## Main definitions

* `Failure.IsAngle` — the failures of angles that are not finite.

## Main statements

* `Angle.aroundZero_failsOnly`, `Angle.quarterTurns?_failsOnly` — angles cause no other failures.
* `Angle.fromZero_real`, `Angle.aroundZero_real` — a reduced angle differs by full turns.
* `Angle.quarterTurns?_real` — right angles can be counted in every real angle.
-/

namespace FunctionAlgebra

def Failure.IsAngle {α : Type} : Failure α → Prop
  | infiniteAngle | undefinedAngle | sineOfInfinity => True
  | _ => False

namespace Angle

section FailsOnly

variable {α : Type} [Scalar α]

theorem requireFinite_failsOnly (a : α) : FailsOnly Failure.IsAngle (requireFinite a) := by
  unfold requireFinite
  split
  · exact .error trivial
  split
  · exact .ok a
  · exact .error trivial

theorem fromZero_failsOnly (a : α) : FailsOnly Failure.IsAngle (fromZero a) :=
  (requireFinite_failsOnly _).bind fun _ _ => .ok _

theorem aroundZero_failsOnly (a : α) : FailsOnly Failure.IsAngle (aroundZero a) :=
  (fromZero_failsOnly a).bind fun _ _ => .ok _

theorem quarterTurns?_failsOnly (a : α) : FailsOnly Failure.IsAngle (quarterTurns? a) :=
  (fromZero_failsOnly a).bind fun _ _ => (requireFinite_failsOnly _).bind fun _ _ => .ok _

end FailsOnly

open Exact (real)

theorem fullTurn_eq : (Scalar.fullTurn : Exact) = real (2 * Real.pi) := by
  have : (Scalar.two : Exact) = real 2 := by
    rw [Scalar.two, Exact.one_eq, Exact.real_add]
    norm_num
  rw [Scalar.fullTurn, this]
  rfl

theorem quarterTurn_eq : (Scalar.quarterTurn : Exact) = real (Real.pi / 2) := by
  have : (Scalar.two : Exact) = real 2 := by
    rw [Scalar.two, Exact.one_eq, Exact.real_add]
    norm_num
  rw [Scalar.quarterTurn, this]
  exact Exact.real_div _ two_ne_zero

theorem requireFinite_real (a : ℝ) : requireFinite (real a) = .ok (real a) := by
  simp [requireFinite]

theorem fromZero_real (a : ℝ) :
    ∃ n : ℤ, fromZero (real a) = .ok (real (a - n * (2 * Real.pi))) := by
  have hpi : 2 * Real.pi ≠ 0 := by positivity
  set n := ⌊a / (2 * Real.pi)⌋ with hn
  have hrest : real a - real (2 * Real.pi) * Scalar.ofInt n = real (a - n * (2 * Real.pi)) := by
    have : (Scalar.ofInt n : Exact) = real n := rfl
    rw [this, Exact.real_mul, Exact.real_sub, mul_comm]
  have hlt : a - n * (2 * Real.pi) < 2 * Real.pi := by
    have := Int.lt_floor_add_one (a / (2 * Real.pi))
    rw [← hn, div_lt_iff₀ (by positivity)] at this
    linarith
  have hle : Scalar.le (real (2 * Real.pi)) (real (a - n * (2 * Real.pi))) = false := by
    simp only [Scalar.le, Exact.lt_real, Exact.real_beq, Bool.or_eq_false_iff,
      decide_eq_false_iff_not]
    exact ⟨not_lt.2 hlt.le, hlt.ne'⟩
  refine ⟨n, ?_⟩
  rw [fromZero, fullTurn_eq, Exact.real_div a hpi, requireFinite_real]
  have hfloor : Scalar.floor (real (a / (2 * Real.pi))) = n := rfl
  simp only [bind, Except.bind, hfloor, hrest, hle, Bool.false_eq_true, if_false]
  rfl

/-- An angle is reduced by full turns. -/
theorem aroundZero_real (a : ℝ) :
    ∃ n : ℤ, aroundZero (real a) = .ok (real (a - n * (2 * Real.pi))) := by
  obtain ⟨n, hn⟩ := fromZero_real a
  rw [aroundZero, hn]
  by_cases h : Real.pi < a - n * (2 * Real.pi)
  · refine ⟨n + 1, ?_⟩
    have hlt : Scalar.lt Scalar.pi (real (a - n * (2 * Real.pi))) = true := by
      change Scalar.lt (real Real.pi) _ = true
      simpa using h
    simp only [bind, Except.bind, hlt, if_true, fullTurn_eq, Exact.real_sub]
    push_cast
    ring_nf
    rfl
  · refine ⟨n, ?_⟩
    have hlt : Scalar.lt Scalar.pi (real (a - n * (2 * Real.pi))) = false := by
      change Scalar.lt (real Real.pi) _ = false
      simpa using h
    simp only [bind, Except.bind, hlt, Bool.false_eq_true, if_false]
    rfl

theorem quarterTurns?_real (a : ℝ) : ∃ t, quarterTurns? (real a) = .ok t := by
  obtain ⟨n, hn⟩ := fromZero_real a
  have hpi : Real.pi / 2 ≠ 0 := by positivity
  rw [quarterTurns?, hn, quarterTurn_eq]
  simp only [bind, Except.bind, Exact.real_div _ hpi, requireFinite_real]
  exact ⟨_, rfl⟩

end Angle

end FunctionAlgebra
