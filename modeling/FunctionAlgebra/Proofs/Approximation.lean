import FunctionAlgebra.Fn.Simplify
import FunctionAlgebra.Proofs.Neighbours

/-!
# Approximations of simplification

Simplification is a recursion that is cut off at a depth. A step of it uses the results for parts
and merged functions and nothing else of them, so if the ways to get these approximate others, the
step does too.

## Main statements

* `Fn.simplifyStep_approximates` — a step of simplification respects approximation.
* `Fn.simplifyWithin_approximates` — more depth leaves the results as they are.
-/

namespace FunctionAlgebra.Fn

variable {α : Type} {simplify simplify' : Fn α → Attempt α (Fn α)}

theorem mergeSimplified_approximates {merge merge' : Fn α → Fn α → Attempt α (Option (Fn α))}
    (h : ∀ f, (simplify f).Approximates (simplify' f)) {f g : Fn α}
    (hm : (merge f g).Approximates (merge' f g)) :
    (mergeSimplified simplify merge f g).Approximates (mergeSimplified simplify' merge' f g) := by
  refine hm.bind fun merged _ => ?_
  cases merged with
  | none => exact .refl _
  | some m => exact (h m).bind fun _ _ => .refl _

variable [Scalar α]

theorem mergeAddWith_approximates (h : ∀ f, (simplify f).Approximates (simplify' f)) (f g : Fn α) :
    (mergeAddWith simplify f g).Approximates (mergeAddWith simplify' f g) := by
  unfold mergeAddWith
  split
  · exact .refl _
  · exact .refl _
  · exact .refl _
  · split
    · exact (h _).bind fun _ _ => .refl _
    · exact .refl _
  · exact .refl _

theorem simplifyKernel_approximates (h : ∀ f, (simplify f).Approximates (simplify' f))
    (k : Kernel α) (s : α) (inner : Option (Fn α)) :
    (simplifyKernel simplify k s inner).Approximates (simplifyKernel simplify' k s inner) := by
  cases k with
  | power p =>
    simp only [simplifyKernel]
    split
    · exact .refl _
    cases inner with
    | none => exact .refl _
    | some f =>
      dsimp only
      split
      · exact h _
      · exact .refl _
  | _ => exact .refl _

theorem simplifyStandard_approximates (h : ∀ f, (simplify f).Approximates (simplify' f))
    (k : Kernel α) (s : α) (inner : Option (Fn α)) :
    (simplifyStandard simplify k s inner).Approximates (simplifyStandard simplify' k s inner) := by
  unfold simplifyStandard
  split
  · exact .refl _
  cases inner with
  | none => exact simplifyKernel_approximates h k s none
  | some f =>
    refine (h f).bind fun g _ => ?_
    split
    · exact .refl _
    split
    · exact h _
    · exact simplifyKernel_approximates h k s _

/-- A step of simplification respects approximation. -/
theorem simplifyStep_approximates (h : ∀ f, (simplify f).Approximates (simplify' f)) (f : Fn α) :
    (simplifyStep simplify f).Approximates (simplifyStep simplify' f) := by
  cases f with
  | zero | one | const v | undefined => exact .refl _
  | unary k s inner => exact simplifyStandard_approximates h k s inner
  | sum ts =>
    refine (Attempt.Approximates.mapM h ts).bind fun parts _ => ?_
    dsimp only
    split
    · exact .refl _
    · have hmerge (f g : Fn α) := mergeSimplified_approximates h (mergeAddWith_approximates h f g)
      exact (mergeNeighbours_approximates hmerge _).bind fun _ _ => .refl _
  | product fs =>
    refine (Attempt.Approximates.mapM h fs).bind fun parts _ => ?_
    dsimp only
    split
    · exact .refl _
    split
    · exact .refl _
    · refine (mergeNeighbours_approximates (fun f g => ?_) _).bind fun _ _ => .refl _
      exact mergeSimplified_approximates h (.refl _)
  | quotient n d =>
    refine (h n).bind fun n' _ => (h d).bind fun d' _ => ?_
    split
    · exact .refl _
    split
    · exact h _
    · exact .refl _
  | piecewise segments =>
    refine (Attempt.Approximates.mapM (fun s => ?_) segments).bind fun _ _ => .refl _
    exact (h s.payload).bind fun _ _ => .refl _

theorem simplifyWithin_approximates_succ (n : Nat) (f : Fn α) :
    (simplifyWithin n f).Approximates (simplifyWithin (n + 1) f) := by
  induction n generalizing f with
  | zero => exact .throw _
  | succ n ih => exact simplifyStep_approximates ih f

/-- More depth leaves the results as they are. -/
theorem simplifyWithin_approximates {m n : Nat} (h : m ≤ n) (f : Fn α) :
    (simplifyWithin m f).Approximates (simplifyWithin n f) := by
  induction h with
  | refl => exact .refl _
  | step _ ih => exact ih.trans (simplifyWithin_approximates_succ _ f)

end FunctionAlgebra.Fn
