import FunctionAlgebra.Proofs.Canonical

/-!
# Simplifying twice

A simplified form that is in order is its own simplified form. It need not be in order: the
coefficient of a product is put into the first factor after the factors are sorted, and a first
factor that is a sum takes another place with other coefficients.

## Main statements

* `Fn.simplify_idempotent_of_ordered` — a simplified form in order does not change any more.
* `Fn.simplify_not_idempotent` — a simplified form that does.
-/

namespace FunctionAlgebra.Fn

open Exact (real)

variable {f g : Fn Exact}

/-! ## Products of sums -/

/-- Two functions in order are sorted already, in whichever order they are given. -/
theorem Shuffled.sort_pair {us : List (Fn Exact)} (h : Shuffled us [f, g])
    (hus : ∀ u ∈ us, u.HasNoNaN) (hfg : f.compare g = .lt) :
    (Fn.sort us).map forget = [f, g].map forget := by
  have hpair : ∀ u ∈ [f, g], u.HasNoNaN := h.forall_mem (fun u v huv hu => by
    rwa [← hasNoNaN_forget, ← huv, hasNoNaN_forget]) hus
  have hless : g.less f = false := by
    rw [less_eq_false_iff, hfg]
    rfl
  exact (h.sort hus).trans (map_forget_sort ⟨hpair, by simpa using hless⟩ rfl)

noncomputable def linear (a b : ℝ) : Fn Exact :=
  sum [const (real a), unary (.power 1) (real b) none]

variable {a b c d r : ℝ}

theorem linear_isPart (ha : a ≠ 0) (hb : b ≠ 0) : (linear a b).IsPart := by
  have hx : (unary (.power 1) (real b) none).Reduced :=
    .plain hb (by simp [Kernel.parameters]) (by simp [Kernel.Varies, Exact.zero_eq, Exact.one_eq])
  refine ⟨.sum (by simp) ?_ ?_ ?_ ?_, .sum ?_ ?_ ?_, rfl, by simp [linear, Fn.value?]⟩
  · simpa using And.intro (.value rfl) hx
  · simp [isUndefined]
  · simpa [Fn.value?] using ha
  · refine .cons_cons (fun h => ?_) (.singleton _)
    cases h with
    | values hv hw => cases hw
  · simpa using And.intro (.value rfl) Ordered.plain
  · simp [kind, Kernel.kind]
  · have : (const (real a)).compare (unary (.power 1) (real b) none) = .lt :=
      compare_of_rank_lt (by simp [kind, Kernel.kind, Kind.rank])
    simpa [less_eq_false_iff] using congrArg Ordering.isLE this

theorem unit_linear : (linear a b).unit = linear a b :=
  unit_of_scale_one (by simp [linear, scale])

/-- These sums have no coefficient of their own. -/
theorem splitCoefficientFrom_linear {x : Exact} {fs : List (Fn Exact)} :
    splitCoefficientFrom x (linear a b :: fs) =
      ((splitCoefficientFrom x fs).1, linear a b :: (splitCoefficientFrom x fs).2) := by
  simp [splitCoefficientFrom, linear, Fn.value?, scale, Exact.one_eq]

theorem splitCoefficient_pair (x : Exact) :
    splitCoefficientFrom x [linear a b, linear c d] = (x, [linear a b, linear c d]) := by
  rw [splitCoefficientFrom_linear, splitCoefficientFrom_linear, splitCoefficientFrom]

/-- Such sums are ordered by the number. -/
theorem linear_compare (h : a < c) : (linear a b).compare (linear c d) = .lt := by
  rw [linear, linear, Fn.compare, compareWith_sum, compareEach, compareWith_value rfl rfl]
  simp [Scalar.cmp, scaleKey, h, h.not_gt]

theorem scaleBy_linear (hb : b ≠ 0) (hr : r ≠ 0) :
    ((linear a b).scaleBy (real r)).EqForget (linear (a * r) (b * r)) := by
  have ha : (scaleBy (real r) (const (real a))).EqForget (const (real (a * r))) := by
    rw [EqForget, forget_scaleBy_value rfl hr]
    simp
  rw [linear, linear, scaleBy_sum _ hr, EqForget, forget_sum, forget_sum]
  simp [show (scaleBy (real r) (const (real a))).forget = _ from ha, scaleBy_unary hb hr]

/-- A product of two such sums is sorted before it gets its coefficient back. -/
theorem simplifyFinite_mul_linear (fs : List (Fn Exact)) (hf : ∀ f ∈ fs, f.IsPart)
    (hflat : ∀ f ∈ fs, f.kind ≠ .product) (hr : r ≠ 0) (hc : (splitCoefficient fs).1 = real r)
    (hu : Shuffled (splitCoefficient fs).2 [linear a b, linear c d]) (hb : b ≠ 0) (hac : a < c) :
    ∃ n g, (simplifyFinite n (product fs)).outcome = .ok g ∧
      g.EqForget (product [linear (a * r) (b * r), linear c d]) := by
  have hunits := isUnitFactor_splitCoefficient fun f hmem => (hf f hmem).reduced
  have hsorted := hu.sort_pair (fun u hu => (hunits u hu).reduced.hasNoNaN) (linear_compare hac)
  have hchain : (sort (splitCoefficient fs).2).IsChain fun f g => mergeMultiply? f g = none := by
    have hrescaled := (map_forget_eq_iff.1 hsorted.symm).imp fun _ _ => rescaled_of_forget
    exact isChain_mergeMultiply?_congr hrescaled (.cons_cons rfl (.singleton _))
  obtain ⟨g, hg, hgf⟩ :=
    (simplifyProduct_of_apart (simplifyFinite_fixes _) (Nat.le_refl _) hf hflat hchain).exists_ok
  have hfactors : (ofFactors (product fs) (real r) (sort (splitCoefficient fs).2)).EqForget
      (ofFactors (product fs) (real r) [linear a b, linear c d]) := ofFactors_congr hsorted
  have hresult : g.EqForget (product [linear (a * r) (b * r), linear c d]) := by
    rw [hc, EqForget, hfactors, ofFactors_of_two_le hr (by simp) (by simp [linear, isUndefined]),
      forget_ite_product] at hgf
    rw [EqForget, hgf, forget_product, forget_product, List.map_cons, scaleBy_linear hb hr]
    rfl
  have hfs : (product fs).HasFiniteNumbers :=
    (numbers_product _).2 fun f hmem => (hf f hmem).reduced.hasFiniteNumbers
  have hgs : (product [linear (a * r) (b * r), linear c d]).HasFiniteNumbers := by
    simp [HasFiniteNumbers, linear, Kernel.parameters, Exact.one_eq]
  exact ⟨_, g, simplifyFinite_succ_eq_ok_iff.2
    ⟨hg, hfs, hasFiniteNumbers_of_eqForget hresult.symm hgs⟩, hresult⟩

theorem splitCoefficient_mul_linear :
    splitCoefficient [const (real r), linear a b, linear c d] =
      (real r, [linear a b, linear c d]) := by
  rw [splitCoefficient, splitCoefficientFrom]
  simp [Fn.value?, splitCoefficient_pair, Exact.one_eq]

/-- In the simplified form of a number times two such sums, the first one is multiplied. -/
theorem simplifyFinite_const_mul_linear (hr : r ≠ 0) (ha : a ≠ 0) (hb : b ≠ 0) (hc : c ≠ 0)
    (hd : d ≠ 0) (hac : a < c) :
    ∃ n g, (simplifyFinite n (product [const (real r), linear a b, linear c d])).outcome = .ok g ∧
      g.EqForget (product [linear (a * r) (b * r), linear c d]) := by
  have hconst : (const (real r)).IsPart :=
    ⟨.value rfl, .value rfl, rfl, by simpa [Fn.value?] using hr⟩
  refine simplifyFinite_mul_linear _ ?_ ?_ hr ?_ ?_ hb hac
  · simpa using ⟨hconst, linear_isPart ha hb, linear_isPart hc hd⟩
  · simp [linear, kind]
  · rw [splitCoefficient_mul_linear]
  · rw [splitCoefficient_mul_linear]
    exact .refl _

/-! ## Simplified forms in order -/

/-- A simplified form that is in order is equal to its own simplified form. -/
theorem simplify_idempotent_of_ordered (hf : f.StaysFinite) (hg : f.simplify.outcome = .ok g)
    (ho : g.Ordered) : ∃ h, g.simplify.outcome = .ok h ∧ (h == g) = true := by
  obtain ⟨n, g', hn⟩ := hf
  obtain rfl : g' = g := by
    have := (simplify_of_simplifyFinite hn).symm.trans hg
    exact Except.ok.inj this
  have hnormal := (simplifyFinite_normalizes n f).of_ok hn
  obtain ⟨m, h, hm, hh⟩ := hnormal.reduced.exists_simplifyFinite ho
  have hnan : h.HasNoNaN := by
    rw [← hasNoNaN_forget, hh, hasNoNaN_forget]
    exact hnormal.reduced.hasNoNaN
  exact ⟨h, simplify_of_simplifyFinite hm, beq_iff.2 ⟨hh, hnan⟩⟩

/-- The simplified form of `2 * (2 + x) * (5 + x)` is `(4 + 2 * x) * (5 + x)`, which is in order. -/
theorem simplify_idempotent_of_ordered_product :
    ∃ g h, (product [const (real 2), linear 2 1, linear 5 1]).simplify.outcome = .ok g ∧
      g.EqForget (product [linear 4 2, linear 5 1]) ∧ g.simplify.outcome = .ok h ∧
      (h == g) = true := by
  obtain ⟨n, g, hg, hgf⟩ := simplifyFinite_const_mul_linear (r := 2) (a := 2) (b := 1) (c := 5)
    (d := 1) two_ne_zero two_ne_zero one_ne_zero (by norm_num) one_ne_zero (by norm_num)
  norm_num at hgf
  have hordered : (product [linear 4 2, linear 5 1]).Ordered := by
    refine .product ?_ (by simp [linear, kind]) ?_
    · simpa using ⟨(linear_isPart (by norm_num) two_ne_zero).ordered,
        (linear_isPart (by norm_num) one_ne_zero).ordered⟩
    · have hless : (linear 4 2).compare (linear 5 1) = .lt := linear_compare (by norm_num)
      simpa [unit_linear, less_eq_false_iff] using congrArg Ordering.isLE hless
  have hnan : (product [linear 4 2, linear 5 1]).HasNoNaN := by
    simp [HasNoNaN, linear, Kernel.parameters, Exact.one_eq]
  obtain ⟨h, hh, heq⟩ := simplify_idempotent_of_ordered ⟨n, g, hg⟩ (simplify_of_simplifyFinite hg)
    (hordered.congr hnan hgf.symm)
  exact ⟨g, h, simplify_of_simplifyFinite hg, hgf, hh, heq⟩

/-! ## A simplified form that is not in order -/

/-- The simplified form of `3 * (2 + x) * (3 + x)` begins with `6 + 3 * x`. In the simplified form
of that, this factor comes last. -/
theorem simplify_not_idempotent :
    (product [const (real 3), linear 2 1, linear 3 1]).StaysFinite ∧
    ∃ g h, (product [const (real 3), linear 2 1, linear 3 1]).simplify.outcome = .ok g ∧
      g.EqForget (product [linear 6 3, linear 3 1]) ∧ g.simplify.outcome = .ok h ∧
      h.EqForget (product [linear 3 1, linear 6 3]) ∧ (h == g) = false := by
  have hsum {a b : ℝ} (ha : a ≠ 0) (hb : b ≠ 0) : (linear a b).IsPart := linear_isPart ha hb
  have hsecond : splitCoefficient [linear 6 3, linear 3 1] = (real 1, [linear 6 3, linear 3 1]) :=
    splitCoefficient_pair _
  obtain ⟨m, g, hg, hgf⟩ := simplifyFinite_const_mul_linear (r := 3) (a := 2) (b := 1) (c := 3)
    (d := 1) three_ne_zero two_ne_zero one_ne_zero three_ne_zero one_ne_zero (by norm_num)
  obtain ⟨n, h', hh', hhf'⟩ := simplifyFinite_mul_linear (r := 1) (a := 3) (b := 1) (c := 6)
    (d := 3) [linear 6 3, linear 3 1]
    (by simpa using ⟨hsum (by norm_num) three_ne_zero, hsum three_ne_zero one_ne_zero⟩)
    (by simp [linear, kind]) one_ne_zero (by rw [hsecond])
    (by rw [hsecond]; exact (List.Perm.swap ..).map forget) one_ne_zero (by norm_num)
  norm_num at hgf hhf'
  -- The simplified form is equal to the sorted product of these sums, but need not be identical.
  obtain ⟨h, hh, hhf⟩ := simplifyFinite_respects n _ g hgf.symm _ hh'
  refine ⟨⟨m, g, hg⟩, g, h, simplify_of_simplifyFinite hg, hgf, simplify_of_simplifyFinite hh,
    hhf.symm.trans hhf', ?_⟩
  have hne : ¬ h.EqForget g := fun heq => by
    have := (hhf.symm.trans hhf').symm.trans (heq.trans hgf)
    simp [linear] at this
  exact Bool.eq_false_iff.2 fun heq => hne (beq_iff.1 heq).1

end FunctionAlgebra.Fn
