import FunctionAlgebra.Proofs.Approximation
import FunctionAlgebra.Proofs.SineShifts

/-!
# The recursion of simplification

Simplification is defined down to a depth. This depth is never reached, whatever numbers are in a
function, so simplification solves the equation of the recursion that has no bound. The loop that
merges neighbours is bounded too, and its bound is no restriction either.

## Main statements

* `Fn.simplifyWithin_eq_simplify` — more depth gives no other result.
* `Fn.simplify_eq_simplifyStep` — simplification calls itself for parts and merged functions.
* `Fn.simplify_terminates` — simplification and derivatives end for all functions.
-/

namespace FunctionAlgebra.Fn

variable {α : Type} [Scalar α] [LawfulScalar α]

/-- The bound on the depth is not reached if it is the depth that simplification may need. -/
theorem simplifyWithin_meets {n : Nat} {f : Fn α} (h : f.depth ≤ n) :
    (simplifyWithin n f).Meets Failure.IsAngle fun _ => True := by
  have hends := simplifyWithin_ends (failures_angle (α := α)).toFailures n
  exact (hends.meets f h (kernels_of_forall (fun _ => trivial) f)).mono fun _ _ => trivial

theorem simplifyWithin_eq_of_le {m n : Nat} {f : Fn α} (hm : f.depth ≤ m) (hmn : m ≤ n) :
    simplifyWithin m f = simplifyWithin n f := by
  refine (simplifyWithin_approximates hmn f).eq_of_ne fun he => ?_
  exact (simplifyWithin_meets hm).of_error he

omit [LawfulScalar α] in
theorem depth_le_cost (f : Fn α) : f.depth ≤ 2 * f.cost := by
  rw [cost_eq]
  exact depth_le f

/-- More depth than the cost of a function calls for gives no other result. -/
theorem simplifyWithin_eq_simplify {n : Nat} {f : Fn α} (h : 2 * f.cost ≤ n) :
    simplifyWithin n f = f.simplify := by
  have hdepth := depth_le_cost f
  rw [← simplifyWithin_eq_of_le hdepth h]
  exact simplifyWithin_eq_of_le hdepth (by omega)

/-- Simplification down to any depth gives up or is simplification. -/
theorem simplifyWithin_approximates_simplify (n : Nat) (f : Fn α) :
    (simplifyWithin n f).Approximates f.simplify := by
  have h := simplifyWithin_approximates (le_max_left n (2 * f.cost)) f
  rwa [simplifyWithin_eq_simplify (le_max_right n (2 * f.cost))] at h

/-- Simplification calls itself for parts and merged functions, without a bound. -/
theorem simplify_eq_simplifyStep (f : Fn α) : f.simplify = simplifyStep simplify f := by
  have hsucc : simplifyWithin (2 * f.cost + 1) f = f.simplify :=
    simplifyWithin_eq_simplify (by omega)
  have hdepth : f.depth ≤ 2 * f.cost + 1 := (depth_le_cost f).trans (Nat.le_succ _)
  have hstep := simplifyStep_approximates (simplifyWithin_approximates_simplify (2 * f.cost)) f
  rw [← hsucc]
  exact hstep.eq_of_ne fun he => (simplifyWithin_meets hdepth).of_error he

/-- Simplified functions cost no more. -/
theorem simplify_cost_le (f : Fn α) : f.simplify.Meets Failure.IsAngle fun g => g.cost ≤ f.cost := by
  have hmeets : f.simplify.Meets Failure.IsAngle fun _ => True :=
    simplifyWithin_meets ((depth_le_cost f).trans (Nat.le_add_right _ 2))
  have hcost : f.simplify.Meets (fun _ => True) fun g => g.weight .cost ≤ f.weight .cost :=
    (simplify_lightens .cost).weight_le f
  refine (hmeets.and_of_ok hcost).mono fun g hg => ?_
  rw [cost_eq, cost_eq]
  exact hg.1

/-- Simplification ends for every function, however deep or wide it is and whatever numbers are in
it. It solves the recursion without a bound on the depth, and no bound from the cost of the function
on changes it; nor does a bound on the passes that merge neighbours. So it gives a function that
costs no more, unless an angle is not finite, and a function if the shifts of sines are proper. The
same is true of the derivative. -/
theorem simplify_terminates (f : Fn α) :
    f.simplify = simplifyStep simplify f ∧
    (∀ n, 2 * f.cost ≤ n → simplifyWithin n f = f.simplify) ∧
    (∀ (merge : Fn α → Fn α → Attempt α (Option (Fn α))) (fs : List (Fn α)) (n : Nat),
      fs.length ≤ n → mergePasses sort merge n (sort fs) = mergeNeighbours sort merge fs) ∧
    f.simplify.Meets Failure.IsAngle (fun g => g.cost ≤ f.cost) ∧
    (f.Kernels Kernel.HasProperShift → ∃ g, f.simplify.outcome = .ok g) ∧
    f.derivative.Meets Failure.IsAngle (fun _ => True) ∧
    (f.Kernels Kernel.HasTurnableShift → ∃ g, f.derivative.outcome = .ok g) := by
  refine ⟨simplify_eq_simplifyStep f, fun n hn => simplifyWithin_eq_simplify hn,
    fun merge fs n hn => mergePasses_eq_mergeNeighbours (fun l => ?_) hn,
    simplify_cost_le f, exists_simplify_of_proper, ?_, exists_derivative_of_turnable⟩
  · exact (sortStable_perm less l).length_eq
  · have hk : f.Kernels fun _ => True := kernels_of_forall (fun _ => trivial) f
    exact (derivative_meets failures_angle hk).mono fun _ _ => trivial

theorem simplify_terminates_sine_mul_square :
    (∃ g, (product [unary (.sine 1 0) 1 none, power (some (unary (.sine 1 0) 1 none)) 1 Scalar.two] :
      Fn Exact).simplify.outcome = .ok g) ∧
    ∃ g, (product [unary (.sine 1 0) 1 none, power (some (unary (.sine 1 0) 1 none)) 1 Scalar.two] :
      Fn Exact).derivative.outcome = .ok g := by
  have hshift : (Kernel.sine 1 0 : Kernel Exact).HasTurnableShift :=
    Kernel.HasRealShift.turnable Exact.isReal_zero
  have hf : (product [unary (.sine 1 0) 1 none, power (some (unary (.sine 1 0) 1 none)) 1 Scalar.two] :
      Fn Exact).Kernels Kernel.HasTurnableShift := by
    simpa [power, scaled] using And.intro hshift ⟨trivial, hshift⟩
  obtain ⟨-, -, -, -, hsimplify, -, hderivative⟩ := simplify_terminates
    (product [unary (.sine 1 0) 1 none, power (some (unary (.sine 1 0) 1 none)) 1 Scalar.two] : Fn Exact)
  exact ⟨hsimplify (hf.mono derivativeFailures_turnable.keeps), hderivative hf⟩

end FunctionAlgebra.Fn
