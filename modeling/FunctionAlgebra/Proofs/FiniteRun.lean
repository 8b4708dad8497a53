import FunctionAlgebra.Proofs.Numbers
import FunctionAlgebra.Proofs.Recursion

/-!
# Simplification among finite numbers

Divisions by zero and the like lead to numbers that are not finite, and what is known about real
functions does not hold for these. Here is a simplification that gives up as soon as such a number
turns up. Where it gives a function, simplification gives the same.

## Main definitions

* `Fn.simplifyFinite` — simplification that gives up where it meets a number that is not finite.
* `Fn.StaysFinite` — this simplification has a result.

## Main statements

* `Fn.simplify_of_simplifyFinite` — where it has a result, simplification has this result.
-/

namespace FunctionAlgebra.Fn

variable {α : Type} [Scalar α]

open Classical in
/-- Simplification down to a given depth that gives up where a function that is to be simplified, or
its simplified form, has a number which is not finite. -/
noncomputable def simplifyFinite : Nat → Fn α → Attempt α (Fn α)
  | 0, _ => throw .depthExceeded
  | depth + 1, f => do
    let g ← simplifyStep (simplifyFinite depth) f
    if f.HasFiniteNumbers ∧ g.HasFiniteNumbers then return g else throw .depthExceeded

/-- All numbers that turn up when the function is simplified are finite. -/
def StaysFinite (f : Fn α) : Prop := ∃ n g, (simplifyFinite n f).outcome = .ok g

theorem simplifyFinite_succ_eq_ok_iff {n : Nat} {f g : Fn α} :
    (simplifyFinite (n + 1) f).outcome = .ok g ↔
      (simplifyStep (simplifyFinite n) f).outcome = .ok g ∧ f.HasFiniteNumbers ∧
        g.HasFiniteNumbers := by
  rw [simplifyFinite, Attempt.bind_eq_ok_iff]
  constructor
  · rintro ⟨g', hg', hg⟩
    split at hg
    · rename_i h
      obtain rfl := Attempt.pure_eq_ok_iff.1 hg
      exact ⟨hg', h⟩
    · cases hg
  · rintro ⟨hg, h⟩
    exact ⟨g, hg, by rw [if_pos h, Attempt.outcome_pure]⟩

/-- Simplification among finite numbers is simplification, as far as it goes. -/
theorem simplifyFinite_approximates (n : Nat) (f : Fn α) :
    (simplifyFinite n f).Approximates (simplifyWithin n f) := by
  induction n generalizing f with
  | zero => exact .refl _
  | succ n ih =>
    have hguard : (simplifyFinite (n + 1) f).Approximates
        (simplifyStep (simplifyFinite n) f >>= pure) := by
      refine (Attempt.Approximates.refl _).bind fun g _ => ?_
      split
      · exact .refl _
      · exact .throw _
    rw [bind_pure] at hguard
    exact hguard.trans (simplifyStep_approximates ih f)

/-- Where simplification among finite numbers has a result, simplification has this result. -/
theorem simplify_of_simplifyFinite [LawfulScalar α] {n : Nat} {f g : Fn α}
    (h : (simplifyFinite n f).outcome = .ok g) : f.simplify.outcome = .ok g :=
  ((simplifyFinite_approximates n f).trans (simplifyWithin_approximates_simplify n f)).of_ok h

end FunctionAlgebra.Fn
