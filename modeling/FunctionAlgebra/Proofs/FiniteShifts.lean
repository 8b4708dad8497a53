import FunctionAlgebra.Proofs.DoubleArithmetic
import FunctionAlgebra.Proofs.SineShifts

/-!
# Finite shifts of sines

A finite angle can be reduced to one turn in doubles: the number of its turns is finite, and so are
these turns as an angle, because rounding never leads beyond the greatest double. So all the
failures of simplification and differentiation are due to shifts that are infinite or not a number.

## Main definitions

* `Kernel.HasFiniteShift` — a sine has a finite shift.

## Main statements

* `Angle.fromZero_finite`, `Angle.aroundZero_finite` — finite angles have finite reductions.
* `Fn.simplify_and_derivative_succeed` — with finite shifts, nothing fails.
-/

namespace FunctionAlgebra

open Double

open Float.Model (UnpackedFloat)

open Float.Model.UnpackedFloat (Sign)

def Kernel.HasFiniteShift {α : Type} [Scalar α] : Kernel α → Prop
  | sine _ shift => Scalar.isFinite shift = true
  | _ => True

namespace Angle

variable {a : Float}

theorem requireFinite_of_isFinite (h : Scalar.isFinite a = true) : requireFinite a = .ok a := by
  have hnan : Scalar.isNaN a = false := (LineScalar.isFinite_iff.1 h).1
  simp [requireFinite, h, hnan]

/-- The mantissa of half a turn, and of the angles that are half or double of it. -/
def piMantissa : ℕ := 7074237752028440

def turnsMantissa : ℕ := 5734161139222658

theorem unpack_fullTurn : (Scalar.fullTurn : Float).toModel.unpack =
    .finite .positive piMantissa (-50) (by decide) :=
  unpack_of_toBits (b := 0x401921FB54442D18) (by decide +kernel) rfl

theorem unpack_quarterTurn : (Scalar.quarterTurn : Float).toModel.unpack =
    .finite .positive piMantissa (-52) (by decide) :=
  unpack_of_toBits (b := 0x3FF921FB54442D18) (by decide +kernel) rfl

theorem unpack_pi : (Scalar.pi : Float).toModel.unpack =
    .finite .positive piMantissa (-51) (by decide) :=
  unpack_of_toBits (b := 0x400921FB54442D18) (by decide +kernel) rfl

theorem two_zpow_greatest : (2 : ℝ) ^ (971 : ℤ) = 4 * 2 ^ (969 : ℤ) := by
  rw [show (971 : ℤ) = 2 + 969 by norm_num, zpow_add₀ two_ne_zero]
  norm_num

theorem isBound_turns : IsBound turnsMantissa 969 where
  low := by norm_num [turnsMantissa]
  high := by norm_num [turnsMantissa]
  least := by norm_num
  greatest := by norm_num

theorem greatest_lt_turns : greatest <
    (turnsMantissa + 1 / 2) * 2 ^ (969 : ℤ) * sizeOf piMantissa (-50) := by
  have hpos : (0 : ℝ) < 2 ^ (969 : ℤ) := by positivity
  rw [greatest, sizeOf_eq, sizeOf_eq, two_zpow_greatest, piMantissa, turnsMantissa]
  generalize (2 : ℝ) ^ (969 : ℤ) = c at hpos
  norm_num
  linarith

theorem turns_lt_greatest : sizeOf piMantissa (-50) * sizeOf turnsMantissa 969 <
    ((2 ^ 53 - 1 : ℕ) + 1 / 2) * 2 ^ (971 : ℤ) := by
  have hpos : (0 : ℝ) < 2 ^ (969 : ℤ) := by positivity
  rw [sizeOf_eq, sizeOf_eq, two_zpow_greatest, piMantissa, turnsMantissa]
  generalize (2 : ℝ) ^ (969 : ℤ) = c at hpos
  norm_num
  linarith

theorem greatest_lt_quarterTurns : greatest <
    ((2 ^ 53 - 1 : ℕ) + 1 / 2) * 2 ^ (971 : ℤ) * sizeOf piMantissa (-52) := by
  have hpos : (0 : ℝ) < 2 ^ (971 : ℤ) := by positivity
  rw [greatest, sizeOf_eq, sizeOf_eq, piMantissa]
  generalize (2 : ℝ) ^ (971 : ℤ) = c at hpos
  norm_num
  linarith

/-- A right angle is far below half the distance of the two greatest doubles. -/
theorem quarterTurn_lt_half : sizeOf piMantissa (-52) < 1 / 2 * 2 ^ (971 : ℤ) := by
  have hpow : (2 : ℝ) ^ (2 : ℤ) ≤ 2 ^ (971 : ℤ) := zpow_le_zpow_right₀ one_le_two (by norm_num)
  calc sizeOf piMantissa (-52) < 1 / 2 * 2 ^ (2 : ℤ) := by
        rw [sizeOf_eq, piMantissa]
        norm_num
    _ ≤ 1 / 2 * 2 ^ (971 : ℤ) := by gcongr

theorem sizeOf_turn_le_greatest {e : ℤ} (he : e ≤ 971) : sizeOf piMantissa e ≤ greatest := by
  rw [greatest, sizeOf_eq, sizeOf_eq]
  gcongr
  · norm_num [piMantissa]
  · exact one_le_two

theorem within_fullTurn : Within .positive (sizeOf piMantissa (-50)) Scalar.fullTurn := by
  rw [Within, unpack_fullTurn]
  exact .finite le_rfl

theorem within_quarterTurn :
    Within .positive (sizeOf piMantissa (-52)) Scalar.quarterTurn := by
  rw [Within, unpack_quarterTurn]
  exact .finite le_rfl

theorem div_positive (s : Sign) : s / .positive = s := by
  cases s <;> rfl

theorem positive_mul (s : Sign) : .positive * s = s := by
  cases s <;> rfl

/-- What is left of a finite angle without its full turns is finite. -/
theorem fromZero_finite (h : Scalar.isFinite a = true) :
    ∃ rest, fromZero a = .ok rest ∧ Scalar.isFinite rest = true := by
  obtain ⟨s, ha⟩ := isFinite_iff_within.1 h
  have hturns := within_div isBound_turns ha unpack_fullTurn greatest_lt_turns
  rw [div_positive] at hturns
  have hint : sizeOf turnsMantissa 969 = (turnsMantissa * 2 ^ 969 : ℕ) := by
    rw [sizeOf_eq, Nat.cast_mul, Nat.cast_pow]
    rfl
  obtain ⟨n, hn, hfloor⟩ := floor_eq_apply (hint ▸ hturns)
  have hcount : Within s (sizeOf turnsMantissa 969)
      (Scalar.ofInt (Scalar.floor (a / Scalar.fullTurn))) := by
    change Within s _ (Float.ofInt (floor (a / Scalar.fullTurn)))
    rw [hfloor]
    exact within_ofInt isBound_turns (by rw [hint]; exact_mod_cast hn) s
  have hfull := within_mul isBound_greatest within_fullTurn hcount turns_lt_greatest
  rw [positive_mul] at hfull
  obtain ⟨r, hrest⟩ := within_sub isBound_greatest ha hfull
  rw [fromZero, requireFinite_of_isFinite hturns.isFinite]
  refine ⟨_, rfl, ?_⟩
  split
  · decide +kernel
  · exact hrest.isFinite

/-- An angle above half a turn is positive. -/
theorem within_positive_of_lt {r : Sign} {bound : ℝ} (h : Within r bound a)
    (hlt : Scalar.lt Scalar.pi a = true) : Within .positive bound a := by
  have hplace := (lt_iff.1 hlt).2.2
  rw [unpack_pi] at hplace
  unfold Within at h ⊢
  generalize a.toModel.unpack = u at h hplace ⊢
  cases h with
  | zero t => exact .zero t
  | finite h =>
    cases r with
    | positive => exact .finite h
    | negative => simp [place, Prod.Lex.toLex_lt_toLex] at hplace

theorem aroundZero_finite (h : Scalar.isFinite a = true) :
    ∃ rest, aroundZero a = .ok rest ∧ Scalar.isFinite rest = true := by
  obtain ⟨rest, hrest, hfinite⟩ := fromZero_finite h
  rw [aroundZero, hrest]
  refine ⟨_, rfl, ?_⟩
  split
  · rename_i hlt
    obtain ⟨r, hr⟩ := isFinite_iff_within.1 hfinite
    obtain ⟨t, ht⟩ := within_sub isBound_greatest (within_positive_of_lt hr hlt)
      (within_fullTurn.mono (sizeOf_turn_le_greatest (by norm_num)))
    exact ht.isFinite
  · exact hfinite

theorem isProper_of_isFinite (h : Scalar.isFinite a = true) : IsProper a := by
  refine ⟨by simp [Scalar.isInfinite, h], ?_⟩
  obtain ⟨rest, hrest, hfinite⟩ := fromZero_finite h
  obtain ⟨s, hs⟩ := isFinite_iff_within.1 hfinite
  have hturns := within_div isBound_greatest hs unpack_quarterTurn greatest_lt_quarterTurns
  rw [quarterTurns?, hrest]
  simp only [bind, Except.bind, requireFinite_of_isFinite hturns.isFinite]
  exact ⟨_, rfl⟩

theorem isFinite_add_quarterTurn (h : Scalar.isFinite a = true) :
    Scalar.isFinite (a + Scalar.quarterTurn) = true := by
  obtain ⟨s, hs⟩ := isFinite_iff_within.1 h
  have hmiddle : greatest + sizeOf piMantissa (-52) <
      ((2 ^ 53 - 1 : ℕ) + 1 / 2) * 2 ^ (971 : ℤ) := by
    rw [add_mul, greatest, sizeOf_eq]
    gcongr
    exact quarterTurn_lt_half
  obtain ⟨r, hr⟩ := within_add isBound_greatest hs within_quarterTurn le_rfl
    (sizeOf_turn_le_greatest (by norm_num)) hmiddle
  exact hr.isFinite

end Angle

namespace Fn

theorem derivativeFailures_finite : DerivativeFailures (fun _ : Failure Float => False)
    Kernel.HasFiniteShift Kernel.HasFiniteShift :=
  .of_proper (fun _ => trivial) Angle.isProper_of_isFinite
    fun h => Angle.aroundZero_finite (Angle.isFinite_add_quarterTurn h)

/-- Functions whose sines have finite shifts have a simplified form and a derivative, whatever their
other numbers are, and these functions have finite shifts again. Without the condition, nothing
fails but an angle that is not finite. -/
theorem simplify_and_derivative_succeed (f : Fn Float) :
    (f.Kernels Kernel.HasFiniteShift →
      (∃ g, f.simplify.outcome = .ok g ∧ g.Kernels Kernel.HasFiniteShift) ∧
      ∃ g, f.derivative.outcome = .ok g ∧ g.Kernels Kernel.HasFiniteShift) ∧
    (∀ e, f.simplify.outcome = .error e → e.IsAngle) ∧
      ∀ e, f.derivative.outcome = .error e → e.IsAngle := by
  have hall : f.Kernels fun _ => True := kernels_of_forall (fun _ => trivial) f
  refine ⟨fun h => ⟨?_, ?_⟩, fun e he => ?_, fun e he => ?_⟩
  · exact (simplify_meets derivativeFailures_finite.toFailures h).exists_ok
  · exact (derivative_meets derivativeFailures_finite h).exists_ok
  · exact (simplify_meets failures_angle.toFailures hall).of_error he
  · exact (derivative_meets failures_angle hall).of_error he

/-- Only the shift has to be finite, not the frequency, the scale or the exponent. -/
theorem simplify_and_derivative_succeed_infinite_frequency :
    (∃ g, (power (some (unary (.sine Scalar.infinity 1e300) Scalar.nan none)) Scalar.infinity
      Scalar.infinity : Fn Float).simplify.outcome = .ok g ∧ g.Kernels Kernel.HasFiniteShift) ∧
    ∃ g, (power (some (unary (.sine Scalar.infinity 1e300) Scalar.nan none)) Scalar.infinity
      Scalar.infinity : Fn Float).derivative.outcome = .ok g ∧ g.Kernels Kernel.HasFiniteShift := by
  have hshift : (Kernel.sine Scalar.infinity 1e300 : Kernel Float).HasFiniteShift := by
    change Scalar.isFinite (1e300 : Float) = true
    decide +kernel
  exact (simplify_and_derivative_succeed _).1
    (kernels_power derivativeFailures_finite.toFailures _ _ (by simpa using hshift))

/-- With an infinite shift, a sine cannot be evaluated for its simplified form, nor can the shift be
reduced for its derivative. -/
theorem simplify_and_derivative_fail_infinite_shift :
    (¬ ∃ g, (unary (.sine 0 Scalar.infinity) Scalar.two none : Fn Float).simplify.outcome = .ok g) ∧
    ¬ ∃ g, (unary (.sine 1 Scalar.infinity) 1 none : Fn Float).derivative.outcome = .ok g := by
  have hsimplify : (unary (.sine 0 Scalar.infinity) Scalar.two none :
      Fn Float).simplify.outcome.isOk = false := by
    decide +kernel
  have hderivative : (unary (.sine 1 Scalar.infinity) 1 none :
      Fn Float).derivative.outcome.isOk = false := by
    decide +kernel
  constructor
  · rintro ⟨g, hg⟩
    rw [hg] at hsimplify
    cases hsimplify
  · rintro ⟨g, hg⟩
    rw [hg] at hderivative
    cases hderivative

end Fn

end FunctionAlgebra
