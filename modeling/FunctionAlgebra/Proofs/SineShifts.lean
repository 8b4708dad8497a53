import FunctionAlgebra.Proofs.Angle
import FunctionAlgebra.Proofs.DerivativeOutcome

/-!
# Shifts of sines

Which shifts of sines leave a function with a text, a simplified form and a derivative.

## Main definitions

* `Angle.IsProper` — right angles can be counted in an angle, and its sine exists.
* `Kernel.HasProperShift`, `Kernel.HasTurnableShift` — a sine has such a shift, and its derivative
  has one too.
* `Kernel.HasRealShift` — over exact numbers, a sine has a real shift.

## Main statements

* `Fn.failures_angle` — all failures are due to angles.
* `Fn.exists_simplify_of_proper`, `Fn.exists_derivative_of_turnable` — with such shifts, nothing
  fails.
* `Fn.exists_simplify`, `Fn.derivative_succeeds` — nor does it with real shifts.
-/

namespace FunctionAlgebra

variable {α : Type} [Scalar α]

def Angle.IsProper (a : α) : Prop :=
  Scalar.isInfinite a = false ∧ ∃ q, Angle.quarterTurns? a = .ok q

def Kernel.HasProperShift : Kernel α → Prop
  | sine _ shift => Angle.IsProper shift
  | _ => True

/-- The shift is proper, and so is the one of the derivative, if the standard function is a sine. -/
def Kernel.HasTurnableShift : Kernel α → Prop
  | sine _ shift => Angle.IsProper shift ∧
      ∃ turned, Angle.aroundZero (shift + Scalar.quarterTurn) = .ok turned ∧ Angle.IsProper turned
  | _ => True

def Kernel.HasRealShift : Kernel Exact → Prop
  | sine _ shift => shift.IsReal
  | _ => True

theorem Angle.isProper_real (r : ℝ) : IsProper (Exact.real r) :=
  ⟨by simp [Scalar.isInfinite], quarterTurns?_real r⟩

theorem Kernel.HasRealShift.turnable {k : Kernel Exact} (hk : k.HasRealShift) :
    k.HasTurnableShift := by
  cases k with
  | sine omega shift =>
    rw [Exact.IsReal.eq_real hk, Kernel.HasTurnableShift, Angle.quarterTurn_eq, Exact.real_add]
    obtain ⟨n, hn⟩ := Angle.aroundZero_real (shift.toReal + Real.pi / 2)
    exact ⟨Angle.isProper_real _, _, hn, Angle.isProper_real _⟩
  | _ => trivial

namespace Fn

/-- Whatever the shifts of sines are, all failures are due to angles. -/
theorem failures_angle : DerivativeFailures (Failure.IsAngle : Failure α → Prop) (fun _ => True)
    fun _ => True where
  power _ := trivial
  sine _ _ := trivial
  turns _ := Angle.quarterTurns?_failsOnly _
  keeps _ := trivial
  turn _ := .lift (Angle.aroundZero_failsOnly _) fun _ _ => trivial

theorem failures_proper : Failures (fun _ : Failure α => False) Kernel.HasProperShift where
  power _ := trivial
  sine h hinf := by
    rw [h.1] at hinf
    cases hinf
  turns h := by
    obtain ⟨-, q, hq⟩ := h
    exact .of_eq_ok hq

theorem derivativeFailures_turnable : DerivativeFailures (fun _ : Failure α => False)
    Kernel.HasTurnableShift Kernel.HasProperShift where
  toFailures := failures_proper
  keeps {k} h := by
    cases k with
    | sine omega shift => exact h.1
    | _ => trivial
  turn h := by
    obtain ⟨-, turned, hturned, hproper⟩ := h
    refine .lift (.of_eq_ok hturned) fun shift' hshift' => ?_
    obtain rfl : turned = shift' := Except.ok.inj (hturned.symm.trans hshift')
    exact hproper

/-- Nothing fails if the shifts are proper and stay so when a right angle is added. -/
theorem DerivativeFailures.of_proper {K : Kernel α → Prop} (power : ∀ p, K (.power p))
    (proper : ∀ {omega shift}, K (.sine omega shift) → Angle.IsProper shift)
    (turn : ∀ {omega shift}, K (.sine omega shift) → ∃ turned,
      Angle.aroundZero (shift + Scalar.quarterTurn) = .ok turned ∧ K (.sine omega turned)) :
    DerivativeFailures (fun _ : Failure α => False) K K where
  power := power
  sine {omega _} h :=
    failures_proper.sine (show (Kernel.sine omega _).HasProperShift from proper h)
  turns {omega _} h :=
    failures_proper.turns (show (Kernel.sine omega _).HasProperShift from proper h)
  keeps h := h
  turn h := by
    obtain ⟨turned, hturned, hK⟩ := turn h
    refine .lift (.of_eq_ok hturned) fun shift' hshift' => ?_
    obtain rfl : turned = shift' := Except.ok.inj (hturned.symm.trans hshift')
    exact hK

/-- Functions whose sines have proper shifts can be simplified. -/
theorem exists_simplify_of_proper [LawfulScalar α] {f : Fn α}
    (h : f.Kernels Kernel.HasProperShift) : ∃ g, f.simplify.outcome = .ok g :=
  (simplify_meets failures_proper h).exists_ok.imp fun _ hg => hg.1

/-- If their shifts are proper after a right angle is added, they have a derivative. -/
theorem exists_derivative_of_turnable [LawfulScalar α] {f : Fn α}
    (h : f.Kernels Kernel.HasTurnableShift) : ∃ g, f.derivative.outcome = .ok g :=
  (derivative_meets derivativeFailures_turnable h).exists_ok.imp fun _ hg => hg.1

/-! ## Real shifts -/

abbrev Succeeds (a : Attempt Exact (Fn Exact)) : Prop :=
  a.Meets (fun _ => False) fun g => g.Kernels Kernel.HasRealShift

theorem derivativeFailures_real : DerivativeFailures (fun _ : Failure Exact => False)
    Kernel.HasRealShift Kernel.HasRealShift := by
  refine .of_proper (fun _ => trivial) (fun {_ shift} h => ?_) fun {_ shift} h => ?_
  · rw [Exact.IsReal.eq_real h]
    exact Angle.isProper_real _
  · rw [Exact.IsReal.eq_real h, Angle.quarterTurn_eq, Exact.real_add]
    obtain ⟨n, hn⟩ := Angle.aroundZero_real (shift.toReal + Real.pi / 2)
    exact ⟨_, hn, trivial⟩

/-- Functions whose sines have real shifts can be simplified. -/
theorem exists_simplify {f : Fn Exact} (h : f.Kernels Kernel.HasRealShift) :
    ∃ g, f.simplify.outcome = .ok g ∧ g.Kernels Kernel.HasRealShift :=
  (simplify_meets derivativeFailures_real.toFailures h).exists_ok

/-- Functions whose sines have real shifts have a derivative, and it is such a function. -/
theorem derivative_succeeds {f : Fn Exact} (h : f.Kernels Kernel.HasRealShift) :
    Succeeds f.derivative :=
  derivative_meets derivativeFailures_real h

theorem HasFiniteNumbers.kernels {f : Fn Exact} (h : f.HasFiniteNumbers) :
    f.Kernels Kernel.HasRealShift := by
  refine Numbers.kernels (fun k hk => ?_) h
  cases k with
  | sine omega shift => exact Exact.isFinite_iff.1 (hk shift (by simp [Kernel.parameters]))
  | _ => trivial

end Fn

end FunctionAlgebra
