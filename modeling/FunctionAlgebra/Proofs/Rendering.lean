import FunctionAlgebra.Argument
import FunctionAlgebra.Proofs.Attempt
import FunctionAlgebra.Proofs.Kernels

/-!
# Texts of functions

The only part of a function that may keep it from having a text is the shift of a sine, in which
right angles are counted. So it is for any value, which has a text if its functions have one.

## Main definitions

* `Fn.Failures` — the failures that functions with certain standard functions may cause.
* `Argument.Kernels` — what holds of all standard functions in a value.

## Main statements

* `Fn.Failures.render`, `Fn.Failures.describe` — a function, and any value, fails to have a text
  for a sine in it.
-/

namespace FunctionAlgebra

variable {α : Type} [Scalar α] {E : Failure α → Prop} {K : Kernel α → Prop}

/-- Functions whose standard functions all satisfy `K` cause no other failures than `E`: neither
where right angles are counted in the shift of a sine nor where a sine has an infinite shift. -/
structure Fn.Failures (E : Failure α → Prop) (K : Kernel α → Prop) : Prop where
  power : ∀ p, K (.power p)
  sine : ∀ {omega shift}, K (.sine omega shift) → Scalar.isInfinite shift = true →
    E .sineOfInfinity
  turns : ∀ {omega shift}, K (.sine omega shift) → FailsOnly E (Angle.quarterTurns? shift)

theorem Kernel.render_failsOnly (hE : Fn.Failures E K) {k : Kernel α} (hk : K k) (s : α)
    {inner : Except (Failure α) (Option String)} (hi : FailsOnly E inner) :
    FailsOnly E (k.render s inner) := by
  unfold Kernel.render
  split
  · exact .ok _
  cases k with
  | power p =>
    dsimp only
    split
    · exact .ok _
    · exact hi.bind fun _ _ => .ok _
  | sine omega shift =>
    have hform : FailsOnly E (sineForm s shift) := by
      refine (hE.turns hk).bind fun q _ => ?_
      cases q with
      | none => exact .ok _
      | some q => exact .ok _
    exact hform.bind fun _ _ => hi.bind fun _ _ => .ok _
  | exponential =>
    refine hi.bind fun t _ => ?_
    cases t with
    | none => exact .ok _
    | some t => exact .ok _
  | arcSine | arcTangent | logarithm => exact hi.bind fun _ _ => .ok _

namespace Fn

theorem renderAll_failsOnly {fs : List (Fn α)} (h : ∀ f ∈ fs, FailsOnly E f.render) :
    FailsOnly E (renderAll fs) := by
  induction fs with
  | nil => exact .ok _
  | cons f fs ih =>
    rw [List.forall_mem_cons] at h
    rw [renderAll]
    exact h.1.bind fun _ _ => (ih h.2).bind fun _ _ => .ok _

theorem renderSegments_failsOnly {segments : List (Segment α (Fn α))}
    (h : ∀ s ∈ segments, FailsOnly E s.payload.render) : FailsOnly E (renderSegments segments) := by
  induction segments with
  | nil => exact .ok _
  | cons s rest ih =>
    rw [List.forall_mem_cons] at h
    rw [renderSegments]
    exact h.1.bind fun _ _ => (ih h.2).bind fun _ _ => .ok _

/-- A function fails to have a text for a sine in it. -/
theorem Failures.render (hE : Failures E K) {f : Fn α} (h : f.Kernels K) :
    FailsOnly E f.render := by
  induction f with
  | zero | one | const v | undefined => exact .ok _
  | plain k s =>
    obtain ⟨hk, -⟩ := (kernels_unary ..).1 h
    exact Kernel.render_failsOnly hE hk s (.ok _)
  | chain k s f ih =>
    obtain ⟨hk, hf⟩ := (kernels_unary ..).1 h
    exact Kernel.render_failsOnly hE hk s (ih (hf f rfl)).map
  | sum ts ih =>
    rw [kernels_sum] at h
    exact (renderAll_failsOnly fun t ht => ih t ht (h t ht)).bind fun _ _ => .ok _
  | product fs ih =>
    rw [kernels_product] at h
    exact (renderAll_failsOnly fun f hf => ih f hf (h f hf)).bind fun _ _ => .ok _
  | quotient n d ihn ihd =>
    rw [kernels_quotient] at h
    exact (ihn h.1).bind fun _ _ => (ihd h.2).bind fun _ _ => .ok _
  | piecewise segments ih =>
    rw [kernels_piecewise] at h
    exact (renderSegments_failsOnly fun s hs => ih s hs (h s hs)).bind fun _ _ => .ok _

end Fn

/-! ## Values -/

def Argument.Kernels (K : Kernel α → Prop) : Argument α → Prop
  | .function f => f.Kernels K
  | .interval _ payload => payload.Kernels K
  | .none | .number _ | .truth _ | .text _ => True

namespace Fn.Failures

/-- A value fails to have a text for a sine in it. -/
theorem «show» (hE : Failures E K) {a : Argument α} (h : a.Kernels K) : FailsOnly E a.show := by
  induction a with
  | none | number | truth | text => exact .ok _
  | function f => exact hE.render h
  | interval range payload ih =>
    cases payload with
    | none => exact .ok _
    | number | truth | text | function | interval => exact (ih h).bind fun _ _ => .ok _

theorem describe (hE : Failures E K) {a : Argument α} (h : a.Kernels K) :
    FailsOnly E a.describe := by
  cases a with
  | none | number | truth | text => exact .ok _
  | function f => exact (hE.render h).bind fun _ _ => .ok _
  | interval range payload => exact (hE.show h).bind fun _ _ => .ok _

end Fn.Failures

end FunctionAlgebra
