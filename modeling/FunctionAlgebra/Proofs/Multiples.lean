import FunctionAlgebra.Proofs.Reduced
import FunctionAlgebra.Proofs.Stored

/-!
# Multiples

Numbers act on functions: a multiple of a multiple is the multiple by the product of both numbers,
whatever kinds of functions there are in the tree and although multiples by zero and one are not
built like the others. Canonical constants are the only thing in which the two may differ.

## Main statements

* `Fn.Stored.forget_scaleBy_scaleBy` — multiples of multiples, up to canonical constants.
* `Fn.scaling_is_action` — multiples and functions with other leading coefficients can be built, are
  equal to each other as numbers are, and have multiples of the values.
-/

namespace FunctionAlgebra.Fn

open Exact (real)

variable {f g : Fn Exact} {r : ℝ}

/-! ## Multiples by numbers other than zero -/

theorem forget_of_value? {v : Exact} (h : f.value? = some v) : f.forget = const v := by
  cases f <;> cases h <;> simp

theorem forget_scaleBy_value {v : ℝ} (hv : f.value? = some (real v)) (hr : r ≠ 0) :
    (f.scaleBy (real r)).forget = const (real (v * r)) := by
  by_cases h1 : r = 1
  · subst h1
    rw [← Exact.one_eq, scaleBy_one, forget_of_value? hv, mul_one]
  rw [← forget_scaleBy, forget_of_value? hv, scaleBy, if_neg (by simpa using hr),
    if_neg (by simpa using h1), Exact.real_mul, forget_ofValue (by simp)]

theorem value?_scaleBy {v : ℝ} (hv : f.value? = some (real v)) (hr : r ≠ 0) :
    (f.scaleBy (real r)).value? = some (real (v * r)) :=
  value?_congr ((forget_scaleBy_value hv hr).trans (forget_const _).symm)

/-- A standard function keeps its parameters if they are stored for its scale. -/
theorem scaleBy_unary_of_atScale {k : Kernel Exact} {s : ℝ} {inner : Option (Fn Exact)}
    (hk : k.atScale (real s) = k) (hr : r ≠ 0) :
    (unary k (real s) inner).scaleBy (real r) = unary k (real (s * r)) inner := by
  by_cases h1 : r = 1
  · subst h1
    rw [← Exact.one_eq, scaleBy_one, mul_one]
  rw [scaleBy, if_neg (by simpa using hr), if_neg (by simpa using h1), scaled, Exact.real_mul]
  by_cases hs : s = 0
  · subst hs
    rw [zero_mul, hk]
  · rw [Kernel.atScale_of_ne_zero (by simp [hs, hr])]

theorem scaleBy_unary {k : Kernel Exact} {s : ℝ} {inner : Option (Fn Exact)} (hs : s ≠ 0)
    (hr : r ≠ 0) : (unary k (real s) inner).scaleBy (real r) = unary k (real (s * r)) inner :=
  scaleBy_unary_of_atScale (Kernel.atScale_of_ne_zero (by simpa using hs)) hr

theorem scaleBy_sum (ts : List (Fn Exact)) (hr : r ≠ 0) :
    (sum ts).scaleBy (real r) = sum (ts.map (scaleBy (real r))) := by
  by_cases h1 : r = 1
  · subst h1
    rw [← Exact.one_eq, scaleBy_one, List.map_congr_left fun t _ => scaleBy_one t, List.map_id']
  rw [scaleBy, if_neg (by simpa using hr), if_neg (by simpa using h1), scaleAll_eq_map]

theorem scaleBy_product (f : Fn Exact) (fs : List (Fn Exact)) (hr : r ≠ 0) :
    (product (f :: fs)).scaleBy (real r) = product (f.scaleBy (real r) :: fs) := by
  by_cases h1 : r = 1
  · subst h1
    rw [← Exact.one_eq, scaleBy_one, scaleBy_one]
  rw [scaleBy, if_neg (by simpa using hr), if_neg (by simpa using h1), scaleFirst]

theorem scaleBy_quotient (n d : Fn Exact) (hr : r ≠ 0) :
    (quotient n d).scaleBy (real r) = quotient (n.scaleBy (real r)) d := by
  by_cases h1 : r = 1
  · subst h1
    rw [← Exact.one_eq, scaleBy_one, scaleBy_one]
  rw [scaleBy, if_neg (by simpa using hr), if_neg (by simpa using h1)]

theorem scaleBy_piecewise (segments : List (Segment Exact (Fn Exact))) (hr : r ≠ 0) :
    (piecewise segments).scaleBy (real r) =
      piecewise (segments.map (·.map (scaleBy (real r)))) := by
  by_cases h1 : r = 1
  · subst h1
    rw [← Exact.one_eq, scaleBy_one, List.map_congr_left (g := id), List.map_id]
    intro s _
    simp [Segment.map]
  rw [scaleBy, if_neg (by simpa using hr), if_neg (by simpa using h1), scalePayloads_eq_map]

/-! ## Multiples of multiples -/

theorem isUndefined_of_value? {v : Exact} (h : f.value? = some v) : f.isUndefined = false := by
  cases f <;> cases h <;> rfl

/-- Only the undefined function has undefined multiples. -/
theorem isUndefined_scaleBy (hf : f.HasFiniteNumbers) (hu : f.isUndefined = false) (r : ℝ) :
    (f.scaleBy (real r)).isUndefined = false := by
  by_cases hr : r = 0
  · subst hr
    rw [← Exact.zero_eq, scaleBy_zero hu]
    rfl
  have hvalue {f : Fn Exact} {v : Exact} (hf : f.HasFiniteNumbers) (hv : f.value? = some v) :
      (f.scaleBy (real r)).isUndefined = false := by
    rw [(hf.isReal_value hv).eq_real] at hv
    exact isUndefined_of_value? (value?_scaleBy hv hr)
  cases f with
  | zero | one | const v => exact hvalue hf rfl
  | undefined => cases hu
  | unary | sum | product | quotient | piecewise =>
    rw [scaleBy]
    split_ifs <;> rfl

/-- Multiples of multiples by numbers other than zero. -/
theorem Stored.forget_scaleBy_scaleBy_of_ne_zero (h : f.Stored) (hf : f.HasFiniteNumbers) {c : ℝ}
    (hr : r ≠ 0) (hc : c ≠ 0) :
    ((f.scaleBy (real r)).scaleBy (real c)).forget = (f.scaleBy (real (r * c))).forget := by
  have hrc : r * c ≠ 0 := mul_ne_zero hr hc
  induction h with
  | value hv =>
    rw [(hf.isReal_value hv).eq_real] at hv
    rw [forget_scaleBy_value (value?_scaleBy hv hr) hc, forget_scaleBy_value hv hrc, mul_assoc]
  | undefined => rfl
  | @plain k s hk | @chain k s f hk =>
    have hs : s.IsReal := Exact.isFinite_iff.1 ((numbers_unary ..).1 hf).1
    -- A scale that is zero stays zero, so the exponent that goes with it is kept.
    have hk' : k.atScale (real (s.toReal * r)) = k := by
      by_cases h0 : s.toReal * r = 0
      · have hs0 : s.toReal = 0 := (mul_eq_zero.1 h0).resolve_right hr
        rw [h0, ← hs0, ← hs.eq_real, hk]
      · exact Kernel.atScale_of_ne_zero (by simpa using h0)
    rw [hs.eq_real] at hk ⊢
    rw [scaleBy_unary_of_atScale hk hr, scaleBy_unary_of_atScale hk' hc,
      scaleBy_unary_of_atScale hk hrc, mul_assoc]
  | sum hne ht ih =>
    rw [scaleBy_sum _ hr, scaleBy_sum _ hc, scaleBy_sum _ hrc, forget_sum, forget_sum, List.map_map,
      List.map_map, List.map_map]
    have hf := (numbers_sum _).1 hf
    exact congrArg Fn.sum (List.map_congr_left fun t ht => ih t ht (hf t ht))
  | @product fs hne hfs ih =>
    cases fs with
    | nil => exact absurd rfl hne
    | cons f fs =>
      have hf := (numbers_product _).1 hf
      rw [scaleBy_product _ _ hr, scaleBy_product _ _ hc, scaleBy_product _ _ hrc, forget_product,
        forget_product, List.map_cons, List.map_cons,
        ih f List.mem_cons_self (hf f List.mem_cons_self)]
  | quotient hn hd ihn ihd =>
    rw [scaleBy_quotient _ _ hr, scaleBy_quotient _ _ hc, scaleBy_quotient _ _ hrc, forget_quotient,
      forget_quotient, ihn ((numbers_quotient ..).1 hf).1]
  | piecewise hs ih =>
    rw [scaleBy_piecewise _ hr, scaleBy_piecewise _ hc, scaleBy_piecewise _ hrc, forget_piecewise,
      forget_piecewise, List.map_map, List.map_map, List.map_map]
    have hf := (numbers_piecewise _).1 hf
    refine congrArg Fn.piecewise (List.map_congr_left fun s hs => ?_)
    simp [Segment.map, ih s hs (hf s hs).2]

/-- Multiples of multiples. -/
theorem Stored.forget_scaleBy_scaleBy (h : f.Stored) (hf : f.HasFiniteNumbers) (r c : ℝ) :
    ((f.scaleBy (real r)).scaleBy (real c)).forget = (f.scaleBy (real (r * c))).forget := by
  cases hu : f.isUndefined with
  | true =>
    cases f <;> cases hu
    rfl
  | false =>
    have hzero {g : Fn Exact} (hg : g.isUndefined = false) :
        (g.scaleBy (real 0)).forget = const (real 0) := by
      rw [← Exact.zero_eq, scaleBy_zero hg, forget_zero]
    by_cases hc : c = 0
    · subst hc
      rw [mul_zero, hzero hu, hzero (isUndefined_scaleBy hf hu r)]
    by_cases hr : r = 0
    · subst hr
      have hz : (zero : Fn Exact).value? = some (real 0) := rfl
      rw [zero_mul, hzero hu, ← Exact.zero_eq, scaleBy_zero hu, forget_scaleBy_value hz hc,
        zero_mul, Exact.zero_eq]
    exact h.forget_scaleBy_scaleBy_of_ne_zero hf hr hc

theorem hasFiniteNumbers_ofValue (r : ℝ) : (ofValue (real r)).HasFiniteNumbers := by
  unfold HasFiniteNumbers ofValue
  split_ifs <;> simp

theorem HasFiniteNumbers.scaled {k : Kernel Exact} {s : Exact} {inner : Option (Fn Exact)}
    (h : (unary k s inner).HasFiniteNumbers) (r : ℝ) :
    (Fn.scaled k (s * real r) inner).HasFiniteNumbers := by
  obtain ⟨hs, hk, hi⟩ := (numbers_unary ..).1 h
  refine (numbers_unary ..).2 ⟨?_, ?_, hi⟩
  · exact Exact.isFinite_iff.2 ((Exact.isFinite_iff.1 hs).mul trivial)
  · cases k with
    | power p =>
      simp only [Kernel.atScale, Kernel.parameters, List.forall_mem_singleton] at hk ⊢
      split_ifs
      exacts [Exact.isFinite_iff.2 trivial, hk]
    | _ => exact hk

/-- Multiples have finite numbers like the function. -/
theorem HasFiniteNumbers.scaleBy (hf : f.HasFiniteNumbers) (r : ℝ) :
    (f.scaleBy (real r)).HasFiniteNumbers := by
  have hrel : f.HasFiniteNumbers → (f.scaleBy (real r)).HasFiniteNumbers := by
    refine scaleBy_induct (real r) (motive := fun f g => f.HasFiniteNumbers → g.HasFiniteNumbers)
      (fun f h => h) (fun f h => numbers_zero) (fun f v hv h => ?_)
      (fun hc k s inner h => h.scaled r) (fun ts ih h => ?_) (fun f fs ih h => ?_)
      (fun n d ih h => ?_) (fun segments ih h => ?_) f
    · rw [(h.isReal_value hv).eq_real, Exact.real_mul]
      exact hasFiniteNumbers_ofValue _
    · have ht := (numbers_sum _).1 h
      exact (numbers_sum _).2 (List.forall_mem_map.2 fun t hmem => ih t hmem (ht t hmem))
    · have hfs := List.forall_mem_cons.1 ((numbers_product _).1 h)
      exact (numbers_product _).2 (List.forall_mem_cons.2 ⟨ih hfs.1, hfs.2⟩)
    · have hnd := (numbers_quotient ..).1 h
      exact (numbers_quotient ..).2 ⟨ih hnd.1, hnd.2⟩
    · have hs := (numbers_piecewise _).1 h
      exact (numbers_piecewise _).2 (List.forall_mem_map.2 fun s hmem =>
        ⟨(hs s hmem).1, ih s hmem (hs s hmem).2⟩)
  exact hrel hf

/-! ## Scaling is an action -/

/-- Numbers act on the functions that constructors make. Multiples can be built, a multiple of a
multiple equals the multiple by the product, and a multiple has the multiple of each value. Another
leading coefficient can always be given to a function, and where the old one is not zero, values
change in proportion. -/
theorem scaling_is_action (hw : f.WellFormed) (hs : f.Stored) (hf : f.HasFiniteNumbers)
    (a b : ℝ) :
    ∃ g h k u, f.checkedScaleBy (real a) = .ok g ∧ g.checkedScaleBy (real b) = .ok h ∧
      f.checkedScaleBy (real (a * b)) = .ok k ∧ (h == k) = true ∧
      f.checkedWithScale (real a) = .ok u ∧
      ∀ x : ℝ, f.DefinedAt x → ∃ v : ℝ, f.evaluate (real x) = .ok (real v) ∧
        g.evaluate (real x) = .ok (real (a * v)) ∧
        (f.scale ≠ 0 → ∃ s w : ℝ, f.scale = real s ∧ u.evaluate (real x) = .ok (real w) ∧
          w * s = a * v) := by
  have hg := hs.scaleBy (real a)
  refine ⟨_, _, _, _, checkedScaleBy_eq hw hs _, checkedScaleBy_eq (hw.scaleBy _) hg _,
    checkedScaleBy_eq hw hs _, ?_, checkedWithScale_eq hw hs _, fun x hx => ?_⟩
  · exact beq_iff.2 ⟨hs.forget_scaleBy_scaleBy hf a b, ((hf.scaleBy a).scaleBy b).hasNoNaN⟩
  · have hscale := hx.isReal_scale.eq_real
    refine ⟨f.value x, hx.gives.evaluate, (scaleBy_gives a hx).evaluate, fun h0 => ?_⟩
    have hs0 : f.scale.toReal ≠ 0 := fun h => h0 (hx.isReal_scale.toReal_eq_zero_iff.1 h)
    refine ⟨f.scale.toReal, a * (f.value x / f.scale.toReal), hscale,
      (withScale_gives a hx h0).evaluate, ?_⟩
    rw [mul_assoc, div_mul_cancel₀ _ hs0]

/-- The double of a sum is halved to the sum. -/
theorem scaling_is_action_halved :
    let f : Fn Exact := sum [one, unary .exponential 1 none]
    f.WellFormed ∧ f.Stored ∧ f.HasFiniteNumbers ∧ f.DefinedAt 0 ∧ f.scale ≠ 0 ∧
      ∃ g h u, f.checkedScaleBy (real 2) = .ok g ∧ g.checkedScaleBy (real 2⁻¹) = .ok h ∧
        (h == f) = true ∧ f.checkedWithScale (real 2) = .ok u ∧
        ∃ v s w : ℝ, f.evaluate (real 0) = .ok (real v) ∧ f.scale = real s ∧
          u.evaluate (real 0) = .ok (real w) ∧ w * s = 2 * v := by
  intro f
  have hw : f.WellFormed := .sum (by simpa using ⟨.value rfl, .plain⟩)
  have hs : f.Stored := .sum (by simp) (by simpa using ⟨.value rfl, .plain rfl⟩)
  have hf : f.HasFiniteNumbers := by
    simp [f, HasFiniteNumbers, Kernel.parameters, Exact.one_eq]
  have hx : f.DefinedAt 0 := by simp [f, definedAt_unary, InnerDefinedAt, Kernel.DefinedAt]
  have hscale : f.scale ≠ 0 := by simp [f, scale, Exact.one_eq]
  obtain ⟨g, h, k, u, hg, hh, hk, heq, hu, hvalue⟩ := scaling_is_action hw hs hf 2 2⁻¹
  obtain ⟨v, hv, -, hu0⟩ := hvalue 0 hx
  obtain ⟨s, w, hfs, hw0, hws⟩ := hu0 hscale
  obtain rfl : k = f := by
    rw [mul_inv_cancel₀ two_ne_zero, checkedScaleBy_eq hw hs, ← Exact.one_eq, scaleBy_one] at hk
    exact (Except.ok.inj hk).symm
  exact ⟨hw, hs, hf, hx, hscale, g, h, u, hg, hh, heq, hu, v, s, w, hv, hfs, hw0, hws⟩

end FunctionAlgebra.Fn
