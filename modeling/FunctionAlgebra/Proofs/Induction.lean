import FunctionAlgebra.Fn.Scale
import Mathlib.Tactic.SplitIfs

/-!
# Induction on functions

## Main statements

* `Fn.induct` — induction on the parts of a function.
* `Fn.scaleBy_induct`, `Fn.withScale_induct` — induction on the parts of a function that is scaled.
-/

namespace FunctionAlgebra.Fn

variable {α : Type}

/-- Induction on the parts of a function: the terms of a sum, the factors of a product and the
payloads of the segments of a piecewise function are smaller than the whole. -/
@[elab_as_elim, induction_eliminator]
theorem induct {motive : Fn α → Prop}
    (zero : motive zero)
    (one : motive one)
    (const : ∀ v, motive (const v))
    (undefined : motive undefined)
    (plain : ∀ k s, motive (unary k s none))
    (chain : ∀ k s f, motive f → motive (unary k s (some f)))
    (sum : ∀ ts, (∀ t ∈ ts, motive t) → motive (sum ts))
    (product : ∀ fs, (∀ f ∈ fs, motive f) → motive (product fs))
    (quotient : ∀ n d, motive n → motive d → motive (quotient n d))
    (piecewise : ∀ segments : List (Segment α (Fn α)),
      (∀ s ∈ segments, motive s.payload) → motive (piecewise segments)) :
    ∀ f, motive f
  | .zero => zero
  | .one => one
  | .const v => const v
  | .undefined => undefined
  | .unary k s none => plain k s
  | .unary k s (some f) => chain k s f
      (induct zero one const undefined plain chain sum product quotient piecewise f)
  | .sum ts => sum ts fun t _ =>
      induct zero one const undefined plain chain sum product quotient piecewise t
  | .product fs => product fs fun f _ =>
      induct zero one const undefined plain chain sum product quotient piecewise f
  | .quotient n d => quotient n d
      (induct zero one const undefined plain chain sum product quotient piecewise n)
      (induct zero one const undefined plain chain sum product quotient piecewise d)
  | .piecewise segments => piecewise segments fun s _ =>
      induct zero one const undefined plain chain sum product quotient piecewise s.payload
termination_by f => sizeOf f
decreasing_by
  all_goals simp_wf
  all_goals try omega
  · have := List.sizeOf_lt_of_mem ‹_›
    omega
  · have := List.sizeOf_lt_of_mem ‹_›
    omega
  · have := List.sizeOf_lt_of_mem ‹_›
    cases s
    simp at *
    omega

variable [Scalar α]

/-- A relation between functions holds between a function and its multiple if it holds between
every function and itself or zero, and if it carries over from the parts that are multiplied.
Standard functions are multiplied by numbers other than zero only. -/
theorem scaleBy_induct {motive : Fn α → Fn α → Prop} (c : α)
    (same : ∀ f, motive f f)
    (zero : ∀ f, motive f zero)
    (value : ∀ f v, f.value? = some v → motive f (ofValue (v * c)))
    (unary : (c == 0) = false → ∀ k s inner, motive (unary k s inner) (scaled k (s * c) inner))
    (sum : ∀ ts, (∀ t ∈ ts, motive t (t.scaleBy c)) → motive (sum ts) (sum (ts.map (scaleBy c))))
    (product : ∀ f fs, motive f (f.scaleBy c) →
      motive (product (f :: fs)) (product (f.scaleBy c :: fs)))
    (quotient : ∀ n d, motive n (n.scaleBy c) →
      motive (quotient n d) (quotient (n.scaleBy c) d))
    (piecewise : ∀ segments : List (Segment α (Fn α)),
      (∀ s ∈ segments, motive s.payload (s.payload.scaleBy c)) →
        motive (piecewise segments) (piecewise (segments.map (·.map (scaleBy c)))))
    (f : Fn α) : motive f (f.scaleBy c) := by
  induction f with
  | undefined => exact same _
  | zero | one | const v =>
    rw [scaleBy]
    split_ifs
    · exact zero _
    · exact same _
    · exact value _ _ rfl
  | plain k s | chain k s f =>
    rw [scaleBy]
    split_ifs with h0 h1
    · exact zero _
    · exact same _
    · exact unary (Bool.eq_false_iff.2 h0) ..
  | sum ts ih =>
    rw [scaleBy, scaleAll_eq_map]
    split_ifs
    · exact zero _
    · exact same _
    · exact sum ts ih
  | product fs ih =>
    rw [scaleBy]
    split_ifs
    · exact zero _
    · exact same _
    · cases fs with
      | nil => exact same _
      | cons f fs => exact product f fs (ih f (by simp))
  | quotient n d ihn =>
    rw [scaleBy]
    split_ifs
    · exact zero _
    · exact same _
    · exact quotient n d ihn
  | piecewise segments ih =>
    rw [scaleBy, scalePayloads_eq_map]
    split_ifs
    · exact zero _
    · exact same _
    · exact piecewise segments ih

/-- A relation between functions holds between a function and the one with another leading
coefficient if it holds between a function and itself, and between those whose coefficient is
replaced or multiplied. -/
theorem withScale_induct {motive : Fn α → Fn α → Prop} (c : α)
    (same : ∀ f, motive f f)
    (value : ∀ f v, f.value? = some v → motive f (ofValue c))
    (unary : ∀ k s inner, motive (unary k s inner) (scaled k c inner))
    (quotient : ∀ n d, motive n (n.withScale c) →
      motive (quotient n d) (quotient (n.withScale c) d))
    (multiple : ∀ f, motive f (f.scaleBy (c / 1)))
    (f : Fn α) : motive f (f.withScale c) := by
  induction f with
  | zero | one | const v =>
    rw [withScale]
    split_ifs
    · exact same _
    · exact value _ _ rfl
  | plain k s | chain k s f =>
    rw [withScale]
    split_ifs
    · exact same _
    · exact unary ..
  | quotient n d ihn =>
    rw [withScale]
    split_ifs
    · exact same _
    · exact quotient n d ihn
  | undefined | sum | product | piecewise =>
    unfold withScale
    split_ifs
    · exact same _
    · exact multiple _

end FunctionAlgebra.Fn
