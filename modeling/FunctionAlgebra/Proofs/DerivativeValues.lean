import FunctionAlgebra.Proofs.SimplifyValues
import FunctionAlgebra.Proofs.Slope

/-!
# Values of derivatives

Where the textbook rules apply, the derivative is defined and has the value that they give.

## Main statements

* `Fn.kernelDerivative_gives` — the derivative of a standard function has the right value.
* `Fn.derivative_yields` — the derivative has the value of the textbook rules.
-/

namespace FunctionAlgebra

open Exact (real)

noncomputable section

theorem Exact.two_eq : (Scalar.two : Exact) = real 2 := by
  rw [Scalar.two, Exact.one_eq, Exact.real_add]
  norm_num

theorem Exact.neg_one_eq : (-1 : Exact) = real (-1) := rfl

theorem Exact.neg_half_eq : (-0.5 : Exact) = real (-(1 / 2)) := by
  change real (-(0.5)) = _
  norm_num

namespace Fn

variable {x : ℝ}

/-! ## Values -/

abbrev Yields (x : ℝ) (a : Attempt Exact (Fn Exact)) (r : ℝ) : Prop :=
  a.Meets (fun _ => True) fun g => g.Gives x r

theorem Gives.simplify {f : Fn Exact} {r : ℝ} (h : f.Gives x r) : Yields x f.simplify r := by
  rw [← h.value_eq]
  exact simplifyWithin_sound _ f h.defined

theorem one_gives : (one : Fn Exact).Gives x 1 := ⟨trivial, by simp⟩

theorem power_sub_one_definedAt {p : Exact} {y : ℝ} (h : (Kernel.power p).SmoothAt y)
    (h0 : p ≠ 0) (h1 : p ≠ 1) : (Kernel.power (p - 1)).DefinedAt y := by
  obtain ⟨hp, hzero, hpos⟩ := h
  rw [hp.eq_real] at h0 h1 ⊢
  generalize p.toReal = p at *
  rw [ne_eq, Exact.real_eq_zero_iff] at h0
  rw [ne_eq, Exact.real_eq_one_iff] at h1
  rw [Exact.one_eq, Exact.real_sub]
  refine ⟨trivial, fun hy => ?_, fun hy => ?_⟩
  · -- At zero the exponent is an integer, and neither zero nor one.
    have hp0 := hzero hy
    obtain ⟨n, rfl⟩ : ∃ n : ℤ, p = n := by
      by_contra hint
      exact (hpos hint).ne' hy
    have hn : 0 ≤ n := by exact_mod_cast hp0
    have hn0 : n ≠ 0 := by exact_mod_cast h0
    have hn1 : n ≠ 1 := by exact_mod_cast h1
    have : (1 : ℤ) ≤ n := by omega
    simpa using (by exact_mod_cast this : (1 : ℝ) ≤ n)
  · obtain ⟨n, rfl⟩ : ∃ n : ℤ, p = n := by
      by_contra hint
      exact lt_asymm hy (hpos hint)
    exact ⟨n - 1, by simp⟩

section Kernels

variable {s : Exact} {inner : Option (Fn Exact)}

theorem square_gives (hi : InnerDefinedAt x inner) (c : ℝ) :
    (power inner (real c) Scalar.two).Gives x (c * innerValue x inner ^ 2) := by
  have hdef : (Kernel.power (real 2)).DefinedAt (innerValue x inner) :=
    ⟨trivial, fun _ => by simp, fun _ => ⟨2, by simp⟩⟩
  have := unary_gives_of (Exact.isReal_real c) fun _ => ⟨hi, hdef⟩
  rw [Exact.two_eq]
  exact scaled_gives (by simpa [Kernel.value] using this)

theorem powerDerivative_gives {p : Exact} (hs : s.IsReal) (hi : InnerDefinedAt x inner)
    (hk : (Kernel.power p).SmoothAt (innerValue x inner)) :
    Yields x (monadLift ((Kernel.power p).derivative s inner))
      (s.toReal * (Kernel.power p).slope (innerValue x inner)) := by
  simp only [Kernel.derivative, Attempt.Meets, Attempt.outcome_monadLift, Kernel.slope]
  split_ifs with h0 h1
  · have h0 : p = 0 := by simpa using h0
    exact ⟨by simp, by simp [h0]⟩
  · have h1 : p = 1 := by simpa using h1
    have := const_gives (x := x) s.toReal
    rw [← hs.eq_real] at this
    simpa [h1] using this
  · have hp := hk.1
    have hdef := power_sub_one_definedAt hk (by simpa using h0) (by simpa using h1)
    have := unary_gives_of (hs.mul hp) fun _ => ⟨hi, hdef⟩
    rw [Kernel.value, Exact.toReal_mul hs hp, Exact.toReal_sub hp Exact.isReal_one,
      Exact.toReal_one, mul_assoc] at this
    exact scaled_gives this

/-- A sine that is shifted by a right angle is a cosine. -/
theorem sineDerivative_gives {omega shift : Exact} (hs : s.IsReal) (hi : InnerDefinedAt x inner)
    (hk : (Kernel.sine omega shift).SmoothAt (innerValue x inner)) :
    Yields x (monadLift ((Kernel.sine omega shift).derivative s inner))
      (s.toReal * (Kernel.sine omega shift).slope (innerValue x inner)) := by
  obtain ⟨ho, hf⟩ := hk
  obtain ⟨n, hn⟩ := Angle.aroundZero_real (shift.toReal + Real.pi / 2)
  rw [← Exact.real_add, ← Angle.quarterTurn_eq, ← hf.eq_real] at hn
  simp only [Kernel.derivative, hn, Attempt.Meets, Attempt.outcome_monadLift]
  set y := innerValue x inner with hy
  set shift' := shift.toReal + Real.pi / 2 - n * (2 * Real.pi) with hshift
  have hdef : (Kernel.sine omega (real shift')).DefinedAt y := ⟨ho, trivial⟩
  have hsin : Real.sin (omega.toReal * y + shift') =
      Real.cos (omega.toReal * y + shift.toReal) := by
    rw [hshift, ← add_sub_assoc, ← add_assoc, Real.sin_sub_int_mul_two_pi, Real.sin_add_pi_div_two]
  have := unary_gives_of (hs.mul ho) fun _ => ⟨hi, hdef⟩
  rw [Kernel.value, Exact.toReal_real, ← hy, hsin, Exact.toReal_mul hs ho, mul_assoc] at this
  exact scaled_gives this

theorem arcSineDerivative_gives {shift : Exact} (hs : s.IsReal) (hi : InnerDefinedAt x inner)
    (hk : (Kernel.arcSine shift).SmoothAt (innerValue x inner)) :
    Yields x (monadLift ((Kernel.arcSine shift).derivative s inner))
      (s.toReal * (Kernel.arcSine shift).slope (innerValue x inner)) := by
  obtain ⟨-, hlow, hhigh⟩ := hk
  have hsum := one_gives.add (square_gives hi (-1))
  set y := innerValue x inner
  have hpos : 0 < 1 - y ^ 2 := by nlinarith
  rw [← Exact.neg_one_eq, neg_one_mul, ← sub_eq_add_neg] at hsum
  have hroot : (Kernel.power (real (-(1 / 2)))).DefinedAt (1 - y ^ 2) :=
    ⟨trivial, fun h => (hpos.ne' h).elim, fun h => (lt_asymm hpos h).elim⟩
  have hval : (Kernel.power (real (-(1 / 2)))).value (1 - y ^ 2) = 1 / √(1 - y ^ 2) := by
    rw [Kernel.value, Exact.toReal_real, Real.rpow_neg hpos.le, ← Real.sqrt_eq_rpow, one_div]
  have := hsum.unary hs hroot
  rw [hval, ← Exact.neg_half_eq] at this
  exact scaled_gives this

theorem arcTangentDerivative_gives {shift : Exact} (hs : s.IsReal) (hi : InnerDefinedAt x inner) :
    Yields x (monadLift ((Kernel.arcTangent shift).derivative s inner))
      (s.toReal * (Kernel.arcTangent shift).slope (innerValue x inner)) := by
  have hsum := (square_gives hi 1).add one_gives
  set y := innerValue x inner
  have hpos : y ^ 2 + 1 ≠ 0 := by positivity
  rw [← Exact.one_eq, one_mul] at hsum
  have hconst := const_gives (x := x) s.toReal
  rw [← hs.eq_real] at hconst
  have := hconst.div hsum hpos
  rwa [Kernel.slope, add_comm 1, mul_one_div]

theorem logarithmDerivative_gives (hs : s.IsReal) (hi : InnerDefinedAt x inner)
    (hk : (Kernel.logarithm : Kernel Exact).SmoothAt (innerValue x inner)) :
    Yields x (monadLift (Kernel.logarithm.derivative s inner))
      (s.toReal * (Kernel.logarithm : Kernel Exact).slope (innerValue x inner)) := by
  set y := innerValue x inner with hy
  have hdef : (Kernel.power (real (-1))).DefinedAt y :=
    ⟨trivial, fun h => (ne_of_gt hk h).elim, fun h => (lt_asymm hk h).elim⟩
  have hval : (Kernel.power (real (-1))).value y = 1 / y := by
    rw [Kernel.value, Exact.toReal_real, Real.rpow_neg_one, one_div]
  have := unary_gives_of hs fun _ => ⟨hi, hdef⟩
  rw [← hy, hval] at this
  exact scaled_gives this

/-- The derivative of a standard function has the value of the rule for it. -/
theorem kernelDerivative_gives {k : Kernel Exact} (hs : s.IsReal) (hi : InnerDefinedAt x inner)
    (hk : k.SmoothAt (innerValue x inner)) :
    Yields x (monadLift (k.derivative s inner)) (s.toReal * k.slope (innerValue x inner)) := by
  cases k with
  | power => exact powerDerivative_gives hs hi hk
  | sine => exact sineDerivative_gives hs hi hk
  | arcSine => exact arcSineDerivative_gives hs hi hk
  | arcTangent => exact arcTangentDerivative_gives hs hi
  | exponential => exact scaled_gives (unary_gives_of hs fun _ => ⟨hi, trivial⟩)
  | logarithm => exact logarithmDerivative_gives hs hi hk

end Kernels

/-- The terms of the product rule add up to the derivative of the product. -/
theorem sum_productRule (before : List (Fn Exact)) {fs ds : List (Fn Exact)}
    (hd : List.Forall₂ (fun f d => d.Gives x (f.slope x)) fs ds) :
    ((productRule before fs ds).map (value x)).sum =
      (before.map (value x)).prod * productSlope x fs := by
  induction hd generalizing before with
  | nil => simp [productRule, productSlope]
  | @cons f d fs ds hfd _ ih =>
    have hsum := ih (before ++ [f])
    rw [List.map_append, List.prod_append, List.map_singleton, List.prod_singleton] at hsum
    simp only [productRule, productSlope_cons]
    split_ifs with hz
    · have h0 : f.slope x = 0 := by rw [← hfd.value_eq, eq_zero_of_isZero hz, value_zero]
      rw [hsum, h0]
      ring
    · simp only [List.map_cons, List.sum_cons, hsum, value_product, List.map_append,
        List.prod_append, List.prod_cons, hfd.value_eq]
      ring

theorem productRule_gives {fs ds : List (Fn Exact)} (hf : ∀ f ∈ fs, f.DefinedAt x)
    (hd : List.Forall₂ (fun f d => d.Gives x (f.slope x)) fs ds) :
    (sum (productRule [] fs ds)).Gives x (productSlope x fs) := by
  constructor
  · refine (definedAt_sum _).2 fun t ht => ?_
    obtain ⟨gs, rfl, hne, hgs⟩ := mem_productRule ht
    refine (definedAt_product gs).2 ⟨hne, fun g hg => ?_⟩
    rcases hgs g hg with hg | hg | hg
    · cases hg
    · exact hf g hg
    · obtain ⟨f, -, hg⟩ := exists_mem_of_forall₂ hd hg
      exact hg.defined
  · rw [value_sum, sum_productRule [] hd, List.map_nil, List.prod_nil, one_mul]

/-! ## Derivatives -/

theorem zero_yields {r : ℝ} (h : r = 0) : Yields x (pure zero) r := .pure ⟨by simp, by simp [h]⟩

/-- With scale zero the kernel does not matter. -/
theorem yields_ite {s : Exact} {a : Attempt Exact (Fn Exact)} {r : ℝ}
    (h : s ≠ 0 → Yields x a (s.toReal * r)) :
    Yields x (if s == 0 then pure zero else a) (s.toReal * r) := by
  split_ifs with h0
  · have h0 : s = 0 := by simpa using h0
    exact zero_yields (by simp [h0])
  · exact h (by simpa using h0)

theorem plain_derivative_yields {k : Kernel Exact} {s : Exact} (h : (unary k s none).SmoothAt x) :
    Yields x (unary k s none).derivative ((unary k s none).slope x) := by
  rw [derivative, slope_plain]
  refine yields_ite fun h0 => ?_
  obtain ⟨hs, -, hk⟩ := ((smoothAt_unary ..).1 h).resolve_left h0
  exact (kernelDerivative_gives hs (by simp [InnerDefinedAt]) hk).bind fun g hg => hg.simplify

/-- The chain rule. For logarithms it is a quotient. -/
theorem chain_derivative_yields {k : Kernel Exact} {s : Exact} {f : Fn Exact}
    (h : (unary k s (some f)).SmoothAt x)
    (ih : f.SmoothAt x → Yields x f.derivative (f.slope x)) :
    Yields x (unary k s (some f)).derivative ((unary k s (some f)).slope x) := by
  have hchain (h0 : s ≠ 0) : s.IsReal ∧ f.SmoothAt x ∧ k.SmoothAt (f.value x) := by
    obtain ⟨hs, hf, hk⟩ := ((smoothAt_unary ..).1 h).resolve_left h0
    exact ⟨hs, hf f rfl, hk⟩
  rw [slope_chain]
  by_cases hlog : k = .logarithm
  · subst hlog
    rw [derivative]
    refine yields_ite fun h0 => ?_
    obtain ⟨hs, hf, hk⟩ := hchain h0
    refine (ih hf).bind fun df hdf => ?_
    have hscaled := scaleBy_gives s.toReal hdf.defined
    rw [← hs.eq_real, hdf.value_eq] at hscaled
    have hquot := hscaled.div hf.definedAt.gives (ne_of_gt hk)
    rw [mul_div_assoc, ← one_div_mul_eq_div] at hquot
    exact hquot.simplify
  · rw [derivative_chain hlog]
    refine yields_ite fun h0 => ?_
    obtain ⟨hs, hf, hk⟩ := hchain h0
    have houter : Yields x (monadLift (k.derivative s (some f)))
        (s.toReal * k.slope (f.value x)) :=
      kernelDerivative_gives hs (by simpa [InnerDefinedAt] using hf.definedAt) hk
    refine houter.bind fun outer ho => (ih hf).bind fun df hdf => ?_
    rw [← mul_assoc]
    exact (ho.mul hdf).simplify

theorem sum_derivative_yields {ts : List (Fn Exact)}
    (h : ∀ t ∈ ts, Yields x t.derivative (t.slope x)) :
    Yields x (sum ts).derivative ((sum ts).slope x) := by
  rw [derivative, derivatives_eq_mapM, slope_sum]
  refine (Attempt.Meets.mapM h).bind fun ds hds => ?_
  exact (sum_gives (List.forall₂_map_left_iff.2 hds)).simplify

theorem product_derivative_yields {fs : List (Fn Exact)} (hf : ∀ f ∈ fs, f.DefinedAt x)
    (h : ∀ f ∈ fs, Yields x f.derivative (f.slope x)) :
    Yields x (product fs).derivative ((product fs).slope x) := by
  rw [derivative, derivatives_eq_mapM, slope_product]
  refine (Attempt.Meets.mapM h).bind fun ds hds => ?_
  have hsum := productRule_gives hf hds
  split
  · rename_i heq
    rw [heq] at hsum
    exact zero_yields (by simpa using hsum.value_eq.symm)
  · exact hsum.simplify

theorem quotient_derivative_yields {n d : Fn Exact} (hn : n.DefinedAt x) (hd : d.DefinedAt x)
    (h0 : d.value x ≠ 0) (ihn : Yields x n.derivative (n.slope x))
    (ihd : Yields x d.derivative (d.slope x)) :
    Yields x (quotient n d).derivative ((quotient n d).slope x) := by
  rw [derivative, slope_quotient]
  refine ihn.bind fun dn hdn => ihd.bind fun dd hdd => ?_
  have hproduct := hn.gives.mul hdd
  have hminus := scaleBy_gives (-1) hproduct.defined
  rw [← Exact.neg_one_eq, hproduct.value_eq, neg_one_mul] at hminus
  have htop := (hdn.mul hd.gives).add hminus
  rw [← sub_eq_add_neg] at htop
  refine htop.simplify.bind fun top ht => ?_
  split
  · rename_i hz
    have h0 : n.slope x * d.value x - n.value x * d.slope x = 0 := by
      rw [← ht.value_eq, eq_zero_of_isZero hz, value_zero]
    exact zero_yields (by rw [h0, zero_div])
  · have hsquare := hd.gives.mul hd.gives
    rw [← sq] at hsquare
    refine hsquare.simplify.bind fun bottom hb => ?_
    split
    · rename_i hone
      have h1 : d.value x ^ 2 = 1 := by rw [← hb.value_eq, eq_one_of_isOne hone, value_one]
      exact .pure (by rw [h1, div_one]; exact ht)
    · exact (ht.div hb (pow_ne_zero 2 h0)).simplify

/-- The derivative has the value of the textbook rules wherever they apply. -/
theorem derivative_yields {f : Fn Exact} (h : f.SmoothAt x) :
    Yields x f.derivative (f.slope x) := by
  induction f with
  | zero | one | const v =>
    rw [derivative]
    exact zero_yields (by simp)
  | undefined => exact (not_smoothAt_undefined h).elim
  | plain k s => exact plain_derivative_yields h
  | chain k s f ih => exact chain_derivative_yields h ih
  | sum ts ih =>
    rw [smoothAt_sum] at h
    exact sum_derivative_yields fun t ht => ih t ht (h t ht)
  | product fs ih =>
    obtain ⟨-, h⟩ := (smoothAt_product fs).1 h
    exact product_derivative_yields (fun f hf => (h f hf).definedAt) fun f hf => ih f hf (h f hf)
  | quotient n d ihn ihd =>
    obtain ⟨hn, hd, h0⟩ := (smoothAt_quotient n d).1 h
    exact quotient_derivative_yields hn.definedAt hd.definedAt h0 (ihn hn) (ihd hd)
  | piecewise segments ih =>
    obtain ⟨i, s, hi, hseg, hd, -⟩ := (smoothAt_piecewise segments).1 h
    rw [derivative, segmentDerivatives_eq_mapM, slope_piecewise hi hseg]
    have hparts := piecewise_mapM_gives (g := segmentDerivative) hi hseg
      (fun t _ => (Attempt.Meets.trivial _).bind fun g _ => .pure rfl)
      ((ih s (List.mem_of_getElem? hseg) hd).bind fun g hg => .pure hg)
    exact hparts.bind fun parts hp => .pure hp

/-- The derivative succeeds, and wherever the textbook rules apply to a function with finite
parameters it is defined and evaluates to the number that they give. -/
theorem derivative_evaluates_to_slope {f : Fn Exact} (hf : f.HasFiniteNumbers) {x : ℝ}
    (h : f.SmoothAt x) :
    ∃ g, f.derivative.outcome = .ok g ∧ g.DefinedAt x ∧
      g.evaluate (real x) = .ok (real (f.slope x)) := by
  obtain ⟨g, hg, -⟩ := (derivative_succeeds hf.kernels).exists_ok
  have hgives := (derivative_yields h).of_ok hg
  refine ⟨g, hg, hgives.defined, ?_⟩
  rw [evaluate_eq_value hgives.defined, hgives.value_eq]

theorem derivative_evaluates_to_slope_self_mul_log :
    (product [identity, unary .logarithm 1 none] : Fn Exact).HasFiniteNumbers ∧
      (product [identity, unary .logarithm 1 none] : Fn Exact).SmoothAt 2 ∧
      ∃ g, (product [identity, unary .logarithm 1 none] : Fn Exact).derivative.outcome = .ok g ∧
        g.DefinedAt 2 ∧
        g.evaluate (real 2) =
          .ok (real ((product [identity, unary .logarithm 1 none]).slope 2)) := by
  have hf : (product [identity, unary .logarithm 1 none] : Fn Exact).HasFiniteNumbers := by
    simp [HasFiniteNumbers, identity, Kernel.parameters, Exact.one_eq]
  have h : (product [identity, unary .logarithm 1 none] : Fn Exact).SmoothAt 2 := by
    simp [identity, smoothAt_unary, innerValue, Kernel.SmoothAt]
  exact ⟨hf, h, derivative_evaluates_to_slope hf h⟩

end Fn

end

end FunctionAlgebra
