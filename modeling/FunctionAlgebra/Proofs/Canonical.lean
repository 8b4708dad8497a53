import FunctionAlgebra.Proofs.Ordered

/-!
# Simplified forms do not depend on the order of children

Simplification among finite numbers is followed step by step for two functions that differ in
canonical constants only. Such functions have such simplified forms, and it makes no difference in
which order the terms of a sum or the factors of a product are given.

## Main statements

* `Fn.simplifyFinite_respects` — equal functions have equal simplified forms.
* `Fn.simplify_eq_of_perm` — so have sums and products of the same functions in another order.
-/

namespace FunctionAlgebra.Fn

open Exact (real)

variable {f g : Fn Exact} {simplify : Fn Exact → Attempt Exact (Fn Exact)}

/-! ## Standard functions -/

theorem simplifyKernel_matchedBy (hs : Respects simplify) (k : Kernel Exact) (s : Exact)
    {inner inner' : Option (Fn Exact)} (hi : inner.map forget = inner'.map forget) :
    Attempt.MatchedBy EqForget (simplifyKernel simplify k s inner)
      (simplifyKernel simplify k s inner') := by
  have hscaled : (scaled k s inner).EqForget (scaled k s inner') := by
    rw [EqForget, forget_scaled, forget_scaled, hi]
  cases k with
  | power p =>
    simp only [simplifyKernel]
    split
    · exact .pure rfl
    cases inner with
    | none =>
      obtain rfl : inner' = none := by simpa using hi.symm
      exact .pure rfl
    | some f =>
      obtain ⟨f', rfl, hf⟩ := Option.map_eq_some_iff.1 hi.symm
      dsimp only
      split
      · exact hs _ _ (forget_scaleBy_congr s hf.symm)
      · exact .pure hscaled
  | sine omega shift =>
    simp only [simplifyKernel]
    split
    · split
      · exact .throw _ _
      · exact .pure rfl
    · exact .pure hscaled
  | arcSine | arcTangent | exponential | logarithm => exact .pure hscaled

theorem simplifyStandard_matchedBy (hs : Respects simplify) (k : Kernel Exact) (s : Exact)
    {inner inner' : Option (Fn Exact)} (hi : inner.map forget = inner'.map forget) :
    Attempt.MatchedBy EqForget (simplifyStandard simplify k s inner)
      (simplifyStandard simplify k s inner') := by
  unfold simplifyStandard
  split
  · exact .pure rfl
  cases inner with
  | none =>
    obtain rfl : inner' = none := by simpa using hi.symm
    exact simplifyKernel_matchedBy hs k s rfl
  | some f =>
    obtain ⟨f', rfl, hf⟩ := Option.map_eq_some_iff.1 hi.symm
    refine (hs f f' hf.symm).bind fun g g' hg => ?_
    rw [isUndefined_congr hg, value?_congr hg, isIdentity_congr hg]
    split
    · exact .pure rfl
    split
    · exact hs _ _ rfl
    · refine simplifyKernel_matchedBy hs k s ?_
      split
      · rfl
      · rw [Option.map_some, Option.map_some, hg]

/-! ## Simplification -/

theorem simplifyQuotient_matchedBy (hs : Respects simplify) (hn : Normalizes simplify)
    {n d n' d' : Fn Exact} (hnum : n.EqForget n') (hden : d.EqForget d') :
    Attempt.MatchedBy EqForget (simplifyQuotient simplify n d)
      (simplifyQuotient simplify n' d') := by
  refine ((hs n n' hnum).and_meets (hn n) (hn n')).bind fun m m' ⟨hm, hmn, hmn'⟩ => ?_
  refine (hs d d' hden).bind fun e e' he => ?_
  have hmerge := mergeDivide?_rel hm he
  have hzero : m.isZero = m'.isZero := Twins.isZero_eq ⟨hm, hmn, hmn'⟩
  rw [isUndefined_congr hm, isUndefined_congr he]
  split
  · exact .pure rfl
  generalize mergeDivide? m e = merged, mergeDivide? m' e' = merged' at hmerge
  cases hmerge with
  | some h => exact hs _ _ h
  | none =>
    refine .pure ?_
    rw [hzero]
    split
    · rfl
    · rw [EqForget, forget_quotient, forget_quotient, hm, he]

/-- A step of simplification respects equality if the way to simplify parts does. -/
theorem simplifyStep_respects (hs : Respects simplify) (hn : Normalizes simplify)
    (h : f.EqForget g) (hg : g.HasFiniteNumbers) :
    Attempt.MatchedBy EqForget (simplifyStep simplify f) (simplifyStep simplify g) := by
  have hvalue {v : Exact} (hv : f.value? = some v) (hw : g.value? = some v) :
      Attempt.MatchedBy EqForget (simplifyStep simplify f) (simplifyStep simplify g) := by
    rw [simplifyStep_of_value hv, simplifyStep_of_value hw]
    exact .pure rfl
  cases f with
  | zero | one | const v => exact hvalue rfl (value?_congr h).symm
  | undefined =>
    obtain rfl := eq_undefined_of_forget h
    exact .pure rfl
  | unary k s inner =>
    obtain ⟨inner', rfl, hi⟩ := exists_unary_of_forget h
    exact simplifyStandard_matchedBy hs k s hi
  | sum ts =>
    obtain ⟨us, rfl, hsame⟩ := exists_sum_of_forget h
    exact simplifySum_of_shuffled hs hn (.of_map_eq hsame)
  | product fs =>
    obtain ⟨gs, rfl, hsame⟩ := exists_product_of_forget h
    exact simplifyProduct_of_shuffled hs hn (.of_map_eq hsame) hg
  | quotient n d =>
    obtain ⟨n', d', rfl, hn', hd'⟩ := exists_quotient_of_forget h
    exact simplifyQuotient_matchedBy hs hn hn' hd'
  | piecewise segments =>
    obtain ⟨ts, rfl, hts⟩ := exists_piecewise_of_forget h
    have hparts : Attempt.MatchedBy
        (List.Forall₂ fun s t => s.range = t.range ∧ s.payload.forget = t.payload.forget)
        (segments.mapM (simplifySegment simplify)) (ts.mapM (simplifySegment simplify)) := by
      refine .mapM (hts.imp fun s t hst => ?_)
      exact (hs _ _ hst.2).bind fun x y hxy => .pure ⟨hst.1, hxy⟩
    refine hparts.bind fun ss ts h => .pure ?_
    rw [EqForget, forget_piecewise, forget_piecewise]
    refine congrArg piecewise ?_
    rw [← List.forall₂_eq_eq_eq, List.forall₂_map_left_iff, List.forall₂_map_right_iff]
    refine h.imp fun s t hst => ?_
    rw [Segment.map, Segment.map, hst.1, hst.2]

/-- Equal functions have equal simplified forms. -/
theorem simplifyFinite_respects (n : Nat) : Respects (simplifyFinite n) := by
  induction n with
  | zero => exact fun f g _ => .throw _ _
  | succ n ih =>
    intro f g hfg x hx
    obtain ⟨hstep, hf, hxfin⟩ := simplifyFinite_succ_eq_ok_iff.1 hx
    have hg := hasFiniteNumbers_of_eqForget hfg hf
    obtain ⟨y, hy, hxy⟩ := simplifyStep_respects ih (simplifyFinite_normalizes n) hfg hg x hstep
    have hyfin := hasFiniteNumbers_of_eqForget hxy hxfin
    exact ⟨y, simplifyFinite_succ_eq_ok_iff.2 ⟨hy, hg, hyfin⟩, hxy⟩

/-- If a step gives matching results for two functions, their simplified forms are equal. -/
theorem StaysFinite.simplify_beq (hf : f.StaysFinite)
    (hfg : f.HasFiniteNumbers → g.HasFiniteNumbers)
    (h : ∀ n, g.HasFiniteNumbers → Attempt.MatchedBy EqForget
      (simplifyStep (simplifyFinite n) f) (simplifyStep (simplifyFinite n) g)) :
    ∃ x y, f.simplify.outcome = .ok x ∧ g.simplify.outcome = .ok y ∧ (y == x) = true := by
  obtain ⟨n, x, hx⟩ := hf
  cases n with
  | zero => cases hx
  | succ n =>
    obtain ⟨hstep, hffin, hxfin⟩ := simplifyFinite_succ_eq_ok_iff.1 hx
    obtain ⟨y, hy, hxy⟩ := h n (hfg hffin) x hstep
    have hyfin := hasFiniteNumbers_of_eqForget hxy hxfin
    have hy := simplifyFinite_succ_eq_ok_iff.2 ⟨hy, hfg hffin, hyfin⟩
    exact ⟨x, y, simplify_of_simplifyFinite hx, simplify_of_simplifyFinite hy,
      beq_iff.2 ⟨hxy.symm, hyfin.hasNoNaN⟩⟩

/-- The order of the terms of a sum and of the factors of a product does not matter: if only finite
numbers turn up when it is simplified, the simplified form is the same for all orders. -/
theorem simplify_eq_of_perm {ts ps : List (Fn Exact)} (hp : ps.Perm ts) :
    ((sum ts).StaysFinite → ∃ f g, (sum ts).simplify.outcome = .ok f ∧
      (sum ps).simplify.outcome = .ok g ∧ (g == f) = true) ∧
    ((product ts).StaysFinite → ∃ f g, (product ts).simplify.outcome = .ok f ∧
      (product ps).simplify.outcome = .ok g ∧ (g == f) = true) := by
  have hshuffled : Shuffled ts ps := hp.symm.map forget
  constructor
  · intro hs
    refine hs.simplify_beq (fun h => ?_) fun n _ => ?_
    · unfold HasFiniteNumbers at h ⊢
      rw [numbers_sum] at h ⊢
      exact fun p hmem => h p (hp.mem_iff.1 hmem)
    · exact simplifySum_of_shuffled (simplifyFinite_respects n) (simplifyFinite_normalizes n)
        hshuffled
  · intro hs
    refine hs.simplify_beq (fun h => ?_) fun n hps => ?_
    · unfold HasFiniteNumbers at h ⊢
      rw [numbers_product] at h ⊢
      exact fun p hmem => h p (hp.mem_iff.1 hmem)
    · exact simplifyProduct_of_shuffled (simplifyFinite_respects n) (simplifyFinite_normalizes n)
        hshuffled hps

/-- Two orders of `exp x` and `x`. -/
theorem simplify_eq_of_perm_exponential_identity :
    ∃ f g f' g' : Fn Exact,
      (sum [unary .exponential (real 1) none, identity]).simplify.outcome = .ok f ∧
      (sum [identity, unary .exponential (real 1) none]).simplify.outcome = .ok g ∧
      (g == f) = true ∧
      (product [unary .exponential (real 1) none, identity]).simplify.outcome = .ok f' ∧
      (product [identity, unary .exponential (real 1) none]).simplify.outcome = .ok g' ∧
      (g' == f') = true := by
  have hexp : (unary .exponential (real 1) none).Reduced :=
    .plain one_ne_zero (by simp [Kernel.parameters]) trivial
  have hx : (identity : Fn Exact).Reduced :=
    .plain one_ne_zero (by simp [Kernel.parameters])
      (by simp [Kernel.Varies, Exact.one_eq, Exact.zero_eq])
  have hless : (identity : Fn Exact).less (unary .exponential (real 1) none) = false := by
    have : (unary .exponential (real 1) none).compare (identity : Fn Exact) = .lt :=
      compare_of_rank_lt (by simp [kind, Kernel.kind, identity, Kind.rank])
    rw [less_eq_false_iff, this]
    rfl
  have hsum : (sum [unary .exponential (real 1) none, identity]).StaysFinite := by
    refine Reduced.staysFinite (.sum (by simp) ?_ ?_ ?_ ?_) (.sum ?_ ?_ ?_)
    · simpa using And.intro hexp hx
    · simp [isUndefined, identity]
    · simp [Fn.value?, identity]
    · refine .cons_cons (fun h => ?_) (.singleton _)
      cases h with
      | scales hk => cases hk
      | values hv hw => cases hv
    · simpa [identity] using And.intro Ordered.plain Ordered.plain
    · simp [kind, Kernel.kind, identity]
    · simpa using hless
  have hproduct : (product [unary .exponential (real 1) none, identity]).StaysFinite := by
    refine Reduced.staysFinite (.product (by simp) ?_ ?_ ?_ ?_ ?_) (.product ?_ ?_ ?_)
    · simpa using And.intro hexp hx
    · simp [isUndefined, identity]
    · simp [Fn.value?, identity]
    · simp [scale, identity]
    · exact .cons_cons (by rfl) (.singleton _)
    · simpa [identity] using And.intro Ordered.plain Ordered.plain
    · simp [kind, Kernel.kind, identity]
    · simpa [unit, scale, identity, Exact.one_eq] using hless
  obtain ⟨hsums, hproducts⟩ := simplify_eq_of_perm
    (List.Perm.swap (unary .exponential (real 1) none) (identity : Fn Exact) [])
  obtain ⟨f, g, hf, hg, hgf⟩ := hsums hsum
  obtain ⟨f', g', hf', hg', hgf'⟩ := hproducts hproduct
  exact ⟨f, g, f', g', hf, hg, hgf, hf', hg', hgf'⟩

end FunctionAlgebra.Fn
