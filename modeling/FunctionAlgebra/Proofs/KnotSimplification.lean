import FunctionAlgebra.Proofs.KnotBound
import FunctionAlgebra.Proofs.ReducedForm
import FunctionAlgebra.Proofs.Recursion

/-!
# Simplification invents no knots

What a simplified function reports about its knots is not above what the function reported, and if
these could be listed, only knots of the function are listed. Every rule of simplification keeps
functions within a bound: exponents are added that had no roots or poles, standard functions are put
together under which no knots are hidden, and constants that are not real only come from quotients
over zero, which are undefined.

## Main definitions

* `Fn.KeepsWithin` — a way to simplify keeps functions within a bound.

## Main statements

* `Fn.Multiplied.within`, `Fn.Divided.within`, `Fn.Added.within` — merged functions stay within the
  bound of the two that are merged.
* `Fn.simplifyWithin_within` — simplification keeps functions within any bound.
* `Fn.simplify_invents_no_knots` — reports do not get worse, and lists do not get longer.
-/

namespace FunctionAlgebra.Fn

variable {b : KnotBound} {i : Interval Exact} {f g h : Fn Exact}

/-- Results of simplification stay within a bound, and do not contain parts that vanish. Constants
become canonical. -/
structure KeepsWithin (b : KnotBound) (simplify : Fn Exact → Attempt Exact (Fn Exact)) : Prop where
  within : ∀ f, (simplify f).Meets (fun _ => True) fun g =>
    ∀ i : Interval Exact, i.isValid = true → f.Within b True i → g.Within b False i
  value : ∀ f v, f.value? = some v → (simplify f).Meets (fun _ => True) (· = ofValue v)

variable {simplify : Fn Exact → Attempt Exact (Fn Exact)}

theorem KeepsWithin.meets (hs : KeepsWithin b simplify) (hi : i.isValid = true)
    (hf : f.Within b True i) : (simplify f).Meets (fun _ => True) (·.Within b False i) :=
  (hs.within f).mono fun _ hg => hg i hi hf

theorem Within.lenient (h : f.Within b False i) : f.Within b True i := h.mono False.elim

/-! ## Merges -/

/-- Powers of one base are a power of it. -/
theorem within_power_add {p q s t : Exact} {inner inner' : Option (Fn Exact)}
    (hi : i.isValid = true) (hf : (unary (.power p) s inner).Within b False i)
    (hg : (unary (.power q) t inner').Within b False i) (h : equalInner inner inner' = true) :
    (unary (.power (p + q)) s inner).Within b False i := by
  obtain ⟨hs, hn, hk, hinner⟩ := within_unary_iff.1 hf
  obtain ⟨-, hn', hk', hinner'⟩ := within_unary_iff.1 hg
  have hnumbers : AllowsNumbers b i (.power (p + q)) s := by
    rcases hn with ⟨hs, hp⟩ | hn
    · refine hn'.imp_left fun ⟨_, hq⟩ => ⟨hs, ?_⟩
      simp only [Kernel.parameters, List.forall_mem_singleton] at hp hq ⊢
      exact hp.add hq
    · exact .inr hn
  refine within_unary_iff.2 ⟨hs, hnumbers, Kernel.allows_power_add hi hk hk', fun f hmem => ?_⟩
  obtain ⟨rfl, rfl⟩ | ⟨f', g, rfl, rfl, -⟩ := equalInner_iff.1 h
  · cases hmem
  · obtain rfl := Option.some.inj hmem
    obtain ⟨hp, hf⟩ := hinner f' rfl
    exact ⟨Kernel.inheritsKnots_power_add hp (hinner' g rfl).1, hf⟩

theorem within_identity : (identity : Fn Exact).Within b False i := by
  have hmono : (Kernel.power 1 : Kernel Exact).inheritsKnots = true :=
    Kernel.isMonomial_iff.2 ⟨1, by simp [Exact.one_eq]⟩
  refine within_unary_iff.2 ⟨by simp [Exact.one_eq], .inl ⟨Exact.isReal_one, ?_⟩,
    Kernel.allows_of_inheritsKnots hmono, nofun⟩
  simp [Kernel.parameters]

theorem Multiplied.within (hm : Multiplied f g h) (hi : i.isValid = true)
    (hf : f.Within b False i) (hg : g.Within b False i) : h.Within b True i := by
  cases hm with
  | absorbed => exact hf.lenient
  | exponents he =>
    have hscale := (within_unary_iff.1 hf).2.1.number.mul (within_unary_iff.1 hg).2.1.number
    exact ((within_power_add hi hf hg he).scaled hscale).mono fun _ => trivial
  | @bases p s inner q t inner' he hp =>
    obtain ⟨hs, hn, hk, hinner⟩ := within_unary_iff.1 hf
    obtain ⟨-, hn', -, hinner'⟩ := within_unary_iff.1 hg
    obtain rfl : p = q := (Exact.beq_iff.1 hp).1
    have hbase {inner : Option (Fn Exact)}
        (h : ∀ f ∈ inner, (Kernel.power p).inheritsKnots = true ∧ f.Within b False i) :
        (inner.getD identity).Within b False i := by
      cases inner with
      | none => exact within_identity
      | some f => exact (h f rfl).2
    -- two powers of `x` would have equal bases
    have hmono : (Kernel.power p).inheritsKnots = true := by
      cases inner with
      | some f => exact (hinner f rfl).1
      | none =>
        cases inner' with
        | some g => exact (hinner' g rfl).1
        | none => cases he
    have hproduct :
        (product (sort [inner.getD identity, inner'.getD identity])).Within b False i := by
      refine within_product_iff.2 fun g hg => ?_
      rcases List.mem_pair.1 ((sortStable_perm less _).mem_iff.1 hg) with rfl | rfl
      exacts [hbase hinner, hbase hinner']
    have hpower : (unary (.power p) s
        (some (product (sort [inner.getD identity, inner'.getD identity])))).Within b False i := by
      refine within_unary_iff.2 ⟨hs, hn, hk, ?_⟩
      simpa using ⟨hmono, hproduct⟩
    exact (hpower.scaled (hn.number.mul hn'.number)).mono fun _ => trivial
  | values hv hw => exact .value rfl ((hf.value_allowed hv).mul (hg.value_allowed hw))

/-- What divides is a number, since else nothing would be known about knots. -/
theorem Divided.within (hm : Divided f g h) (hq : (quotient f g).Within b False i) :
    h.Within b True i := by
  cases hm with
  | absorbed =>
    cases hq with
    | value hv => cases hv
    | pole hd h => exact .undefined h
    | quotient hd h0 hv hn => exact hn.lenient
  | exponents =>
    cases hq with
    | value hv => cases hv
    | pole hd => cases hd
    | quotient hd => cases hd
  | values hv hw =>
    cases hq with
    | value hv => cases hv
    | pole hd h => exact .value rfl (.inr h)
    | quotient hd h0 hd' hn =>
      obtain rfl := Option.some.inj (hd.symm.trans hw)
      exact .value rfl ((hn.value_allowed hv).div hd' h0)

theorem Added.within (hm : Added simplify f g h) (hs : KeepsWithin b simplify)
    (hi : i.isValid = true) (hf : f.Within b False i) (hg : g.Within b False i) :
    h.Within b True i := by
  cases hm with
  | absorbed => exact hf.lenient
  | scales =>
    have hscale := (within_unary_iff.1 hf).2.1.number.add (within_unary_iff.1 hg).2.1.number
    exact (hf.scaled hscale).mono fun _ => trivial
  | heads =>
    rw [within_product_iff, List.forall_mem_cons] at hf hg
    obtain ⟨ha, has⟩ := hf
    refine within_product_iff.2 (List.forall_mem_cons.2 ⟨?_, fun f hf => (has f hf).lenient⟩)
    exact (ha.withScale hi (ha.scale.add hg.1.scale)).mono fun _ => trivial
  | @numerators n d n' d' top hd ht =>
    have hden : d'.value? = d.value? := (value?_congr (beq_iff.1 hd).1).symm
    cases hf with
    | value hv => cases hv
    | pole hv h => exact .pole hv h
    | quotient hv h0 hd hn =>
      cases hg with
      | value hv => cases hv
      | pole hv' =>
        rw [hden, hv] at hv'
        exact (h0 (Option.some.inj hv')).elim
      | quotient _ _ _ hn' =>
        have hsum : (sum [n, n']).Within b True i := by
          simpa [within_sum_iff] using ⟨hn.lenient, hn'.lenient⟩
        exact .quotient hv h0 hd ((hs.meets hi hsum).of_ok ht).lenient
  | values hv hw => exact .value rfl ((hf.value_allowed hv).add (hg.value_allowed hw))

/-- Neighbours are merged within the bound. -/
theorem mergeMultiply_within (hs : KeepsWithin b simplify) (hi : i.isValid = true)
    (hf : f.Within b False i) (hg : g.Within b False i) :
    (mergeSimplified simplify (fun f g => pure (mergeMultiply? f g)) f g).Meets (fun _ => True)
      fun merged => ∀ h ∈ merged, h.Within b False i := by
  have hmerge : (pure (mergeMultiply? f g) : Attempt Exact (Option (Fn Exact))).Meets
      (fun _ => True) fun merged => ∀ m ∈ merged, m.Within b True i :=
    .pure fun m hm => (multiplied_of_mergeMultiply? hm).within hi hf hg
  exact mergeSimplified_meets hmerge fun m hm => hs.meets hi hm

theorem mergeAdd_within (hs : KeepsWithin b simplify) (hi : i.isValid = true)
    (hf : f.Within b False i) (hg : g.Within b False i) :
    (mergeSimplified simplify (mergeAddWith simplify) f g).Meets (fun _ => True)
      fun merged => ∀ h ∈ merged, h.Within b False i := by
  have hmerge : (mergeAddWith simplify f g).Meets (fun _ => True) fun merged =>
      ∀ m ∈ merged, m.Within b True i := by
    refine (mergeAddWith_meets fun n d n' d' _ _ => Attempt.Meets.trivial _).mono
      fun merged h m hm => (h m hm).within hs hi hf hg
  exact mergeSimplified_meets hmerge fun m hm => hs.meets hi hm

/-! ## Sums -/

theorem Within.toTerms (h : f.Within b False i) : ∀ t ∈ f.toTerms, t.Within b False i := by
  cases f with
  | sum ts => exact within_sum_iff.1 h
  | _ => simpa [Fn.toTerms] using h

/-- An undefined part makes the whole undefined, and that is allowed. -/
theorem within_undefined_of_any {fs : List (Fn Exact)} (h : ∀ f ∈ fs, f.Within b False i)
    (hu : fs.any isUndefined = true) : (undefined : Fn Exact).Within b False i := by
  obtain ⟨f, hf, hu⟩ := List.any_eq_true.1 hu
  cases f with
  | undefined => exact h _ hf
  | _ => cases hu

/-- The parts of a list of simplified functions, put in one list. -/
theorem mapM_within (hs : KeepsWithin b simplify) (hi : i.isValid = true)
    {parts : Fn Exact → List (Fn Exact)}
    (hparts : ∀ {f : Fn Exact}, f.Within b False i → ∀ g ∈ parts f, g.Within b False i)
    {fs : List (Fn Exact)} (h : ∀ f ∈ fs, f.Within b True i) :
    (fs.mapM simplify).Meets (fun _ => True)
      fun gs => ∀ g ∈ gs.flatMap parts, g.Within b False i := by
  have hmapM : (fs.mapM simplify).Meets (fun _ => True)
      (List.Forall₂ (fun _ g => g.Within b False i) fs) :=
    Attempt.Meets.mapM fun f hf => hs.meets hi (h f hf)
  refine hmapM.mono fun gs hgs g hg => ?_
  obtain ⟨f, hf, hg⟩ := List.mem_flatMap.1 hg
  obtain ⟨-, -, hf⟩ := exists_mem_of_forall₂ hgs hf
  exact hparts hf g hg

theorem ofTerms_within {ts us : List (Fn Exact)} (hi : i.isValid = true)
    (h : ∀ u ∈ us, u.Within b False i) : (ofTerms (sum ts) us).Within b False i := by
  have hfilter : ∀ u ∈ us.filter (!·.isZero), u.Within b False i :=
    fun u hu => h u (List.mem_of_mem_filter hu)
  generalize hg : ofTerms (sum ts) us = g
  cases fromTerms_of_ofTerms hg with
  | absorbed hu => exact within_undefined_of_any h hu
  | empty => exact .value rfl .zero
  | assembled _ hg =>
    have hsum := within_sum_iff.2 hfilter
    refine hg.holds hfilter (fun hsame => hsum.congr hi ?_) hsum
    rw [forget_sum, forget_sum, map_forget_of_sameChildren hsame, Fn.toTerms]

theorem simplifySum_within (hs : KeepsWithin b simplify) (hi : i.isValid = true)
    {ts : List (Fn Exact)} (h : ∀ t ∈ ts, t.Within b True i) :
    (simplifySum simplify ts).Meets (fun _ => True) (·.Within b False i) := by
  refine (mapM_within hs hi Within.toTerms h).bind fun parts hflat => ?_
  dsimp only
  split
  · rename_i hu
    exact .pure (within_undefined_of_any hflat hu)
  have hlaw := MergeLaw.forall_mem (sortStable_perm less) fun f g => mergeAdd_within hs hi
  refine (hlaw.mergeNeighbours fun t ht => ?_).bind fun merged hm => .pure (ofTerms_within hi ?_)
  · exact hflat t (List.mem_of_mem_filter ht)
  · exact hm fun t ht => hflat t (List.mem_of_mem_filter ht)

/-! ## Products -/

theorem Within.toFactors (h : f.Within b False i) : ∀ g ∈ f.toFactors, g.Within b False i := by
  cases f with
  | product fs => exact within_product_iff.1 h
  | _ => simpa [Fn.toFactors] using h

/-- Coefficients are numbers that are allowed, and what is left without them is within the bound. -/
theorem splitCoefficient_within (hi : i.isValid = true) {fs : List (Fn Exact)}
    (h : ∀ f ∈ fs, f.Within b False i) : b.AllowsNumber i (splitCoefficient fs).1 ∧
      ∀ f ∈ (splitCoefficient fs).2, f.Within b False i := by
  rw [splitCoefficient, splitCoefficientFrom_fst, splitCoefficientFrom_snd, List.forall_mem_map]
  constructor
  · have hstep {c : Exact} {f : Fn Exact} (hc : b.AllowsNumber i c) (hf : f.Within b False i) :
        b.AllowsNumber i (coefficientStep c f) := by
      unfold coefficientStep
      split
      · exact hc.mul (hf.value_allowed ‹_›)
      · split_ifs
        exacts [hc, hc.mul hf.scale]
    have hfold (c : Exact) (hc : b.AllowsNumber i c) :
        b.AllowsNumber i (fs.foldl coefficientStep c) := by
      induction fs generalizing c with
      | nil => exact hc
      | cons f fs ih =>
        rw [List.forall_mem_cons] at h
        exact ih h.2 _ (hstep hc h.1)
    exact hfold 1 .one
  · exact fun f hf => (h f (List.mem_of_mem_filter hf)).unit hi

theorem ofFactors_within {fs gs : List (Fn Exact)} {c : Exact} (hi : i.isValid = true)
    (hc : b.AllowsNumber i c) (h : ∀ g ∈ gs, g.Within b False i) :
    (ofFactors (product fs) c gs).Within b False i := by
  generalize hg : ofFactors (product fs) c gs = g
  cases fromFactors_of_ofFactors hg with
  | zero => exact .value rfl .zero
  | absorbed hu =>
    rw [Bool.or_eq_true] at hu
    rcases hu with hnan | hu
    · refine .undefined (hc.resolve_left fun hreal => ?_)
      rw [Exact.isNaN_iff.1 hnan] at hreal
      exact hreal
    · exact within_undefined_of_any h hu
  | constant => exact within_ofValue hc
  | assembled _ _ _ hgs hg =>
    have hscaled := hgs.forall_mem h fun g hg => hg.scaleBy hi hc
    have hproduct := within_product_iff.2 hscaled
    refine hg.holds hscaled (fun hsame => hproduct.congr hi ?_) hproduct
    rw [forget_product, forget_product, map_forget_of_sameChildren hsame, Fn.toFactors]

theorem simplifyProduct_within (hs : KeepsWithin b simplify) (hi : i.isValid = true)
    {fs : List (Fn Exact)} (h : ∀ f ∈ fs, f.Within b True i) :
    (simplifyProduct simplify fs).Meets (fun _ => True) (·.Within b False i) := by
  refine (mapM_within hs hi Within.toFactors h).bind fun parts hflat => ?_
  dsimp only
  split
  · exact (absorb_meets _ _).mono fun g hg => hg ▸ .value rfl .zero
  split
  · rename_i hu
    exact .pure (within_undefined_of_any hflat hu)
  obtain ⟨hc, hunits⟩ := splitCoefficient_within hi hflat
  have hlaw := MergeLaw.forall_mem (sortStable_perm less) fun f g => mergeMultiply_within hs hi
  refine (hlaw.mergeNeighbours hunits).bind fun merged hm => .pure ?_
  obtain ⟨hc', hmerged⟩ := splitCoefficient_within hi (hm hunits)
  exact ofFactors_within hi (hc.mul hc') hmerged

/-! ## Quotients -/

theorem ne_nan_of_isUndefined {v : Exact} (h : (ofValue v).isUndefined = false) : v ≠ .nan := by
  rintro rfl
  cases h

/-- Simplified parts of a quotient, whose denominator is a number. -/
theorem simplifyParts_within (hs : KeepsWithin b simplify) {n d : Fn Exact} (hi : i.isValid = true)
    (h : (quotient n d).Within b True i) {n' d' : Fn Exact} (hn : (simplify n).outcome = .ok n')
    (hd : (simplify d).outcome = .ok d') :
    ((n'.isUndefined || d'.isUndefined) = true → b.AllowsUndefined i) ∧
      (d'.isUndefined = false → (quotient n' d').Within b False i) := by
  cases h with
  | value hv => cases hv
  | pole hv h =>
    refine ⟨fun _ => h, fun hu => ?_⟩
    obtain rfl := (hs.value d 0 hv).of_ok hd
    exact .pole (value?_ofValue (ne_nan_of_isUndefined hu)) h
  | @quotient _ _ _ v hv h0 hallowed hn0 =>
    have hnum := (hs.meets hi hn0).of_ok hn
    obtain rfl := (hs.value d v hv).of_ok hd
    refine ⟨fun hu => ?_, fun hu =>
      .quotient (value?_ofValue (ne_nan_of_isUndefined hu)) h0 hallowed hnum⟩
    rw [Bool.or_eq_true] at hu
    have hundefined : (undefined : Fn Exact).Within b False i := by
      rcases hu with hu | hu
      · exact eq_undefined_of_isUndefined hu ▸ hnum
      · exact eq_undefined_of_isUndefined hu ▸ within_ofValue hallowed
    cases hundefined with
    | value hv => cases hv
    | undefined h => exact h

theorem simplifyQuotient_within (hs : KeepsWithin b simplify) (hi : i.isValid = true)
    {n d : Fn Exact} (h : (quotient n d).Within b True i) :
    (simplifyQuotient simplify n d).Meets (fun _ => True) (·.Within b False i) := by
  refine (Attempt.Meets.trivial (simplify n)).outcome.bind fun n' ⟨_, hn⟩ =>
    (Attempt.Meets.trivial (simplify d)).outcome.bind fun d' ⟨_, hd⟩ => ?_
  obtain ⟨hundefined, hquotient⟩ := simplifyParts_within hs hi h hn hd
  split
  · rename_i hu
    exact .pure (.undefined (hundefined hu))
  rename_i hu
  rw [Bool.or_eq_true, not_or, Bool.not_eq_true, Bool.not_eq_true] at hu
  have hq := hquotient hu.2
  split
  · rename_i m hm
    exact hs.meets hi ((divided_of_mergeDivide? hm).within hq)
  · refine .pure ?_
    split_ifs
    · exact .value rfl .zero
    · exact hq

/-! ## Standard functions -/

/-- Standard functions without knots of their own have real values at real numbers. -/
theorem allowsNumber_apply {k : Kernel Exact} {s v : Exact} (hk : k.inheritsKnots = true)
    (hn : AllowsNumbers b i k s) (hv : b.AllowsNumber i v) : b.AllowsNumber i (k.apply s v) := by
  rcases hn with ⟨hs, hp⟩ | h
  · refine hv.imp_left fun hv => ?_
    rw [hv.eq_real, Kernel.apply_eq_value (Kernel.smoothAt_of_inheritsKnots hp hk _).definedAt hs]
    exact Exact.isReal_real _
  · exact .inr h

theorem simplifyKernel_within (hs : KeepsWithin b simplify) (hi : i.isValid = true)
    {k : Kernel Exact} {s : Exact} {inner : Option (Fn Exact)}
    (h : (unary k s inner).Within b False i) :
    (simplifyKernel simplify k s inner).Meets (fun _ => True) (·.Within b False i) := by
  obtain ⟨hs0, hn, -, hinner⟩ := within_unary_iff.1 h
  have hscaled : (scaled k s inner).Within b False i := by
    rw [scaled, Kernel.atScale_of_ne_zero hs0]
    exact h
  generalize hx : simplifyKernel simplify k s inner = x
  cases kernelStep_of_simplifyKernel hx with
  | exponentZero => exact .pure (within_ofValue hn.number)
  | @exponentOne p f =>
    exact hs.meets hi ((hinner f rfl).2.scaleBy hi hn.number).lenient
  | infiniteShift => exact .throw trivial
  | @frequencyZero omega shift =>
    refine .pure (within_ofValue (hn.imp_left fun hreal => hreal.1.mul ?_))
    rw [(hreal.2 shift (by simp [Kernel.parameters])).eq_real]
    trivial
  | power | sine | other => exact .pure hscaled

theorem simplifyStandard_within (hs : KeepsWithin b simplify) (hi : i.isValid = true)
    {k : Kernel Exact} {s : Exact} {inner : Option (Fn Exact)}
    (h : (unary k s inner).Within b True i) :
    (simplifyStandard simplify k s inner).Meets (fun _ => True) (·.Within b False i) := by
  unfold simplifyStandard
  split_ifs with h0
  · exact .pure (.value rfl .zero)
  rw [Exact.beq_zero_iff] at h0
  cases h with
  | value hv => cases hv
  | vanishing => exact (h0 rfl).elim
  | standard hs0 hn hk hc hf =>
    cases inner with
    | none => exact simplifyKernel_within hs hi (within_unary_iff.2 ⟨hs0, hn, hk, nofun⟩)
    | some f =>
      have hinherits := hc f rfl
      refine (hs.meets hi (hf f rfl)).bind fun g hg => ?_
      split
      · rename_i hu
        exact .pure (eq_undefined_of_isUndefined hu ▸ hg)
      split
      · rename_i v hv
        exact hs.meets hi (.value rfl (allowsNumber_apply hinherits hn (hg.value_allowed hv)))
      · refine simplifyKernel_within hs hi (within_unary_iff.2 ⟨hs0, hn, hk, ?_⟩)
        split_ifs
        · exact nofun
        · simpa using ⟨hinherits, hg⟩

/-! ## Simplification -/

theorem simplifyStep_within (hs : KeepsWithin b simplify) (hi : i.isValid = true)
    (h : f.Within b True i) :
    (simplifyStep simplify f).Meets (fun _ => True) (·.Within b False i) := by
  cases f with
  | zero => exact .pure (.value rfl .zero)
  | one => exact .pure (.value rfl .one)
  | const v => exact .pure (within_ofValue (h.value_allowed rfl))
  | undefined =>
    cases h with
    | value hv => cases hv
    | undefined h => exact .pure (.undefined h)
  | unary k s inner => exact simplifyStandard_within hs hi h
  | sum ts => exact simplifySum_within hs hi (within_sum_iff.1 h)
  | product fs => exact simplifyProduct_within hs hi (within_product_iff.1 h)
  | quotient n d => exact simplifyQuotient_within hs hi h
  | piecewise segments =>
    have hparts : (segments.mapM (simplifySegment simplify)).Meets (fun _ => True)
        (List.Forall₂ (fun s t => s.range = t.range ∧ ∀ part : Interval Exact,
          part.isValid = true → part.points ⊆ i.points → s.payload.Within b True part →
            t.payload.Within b False part) segments) :=
      Attempt.Meets.mapM fun s _ => (hs.within s.payload).bind fun g hg =>
        .pure ⟨rfl, fun part hpv _ hpart => hg part hpv hpart⟩
    exact hparts.bind fun parts hall => .pure (h.of_payloads hi hall)

theorem keepsWithin_simplifyStep (hs : KeepsWithin b simplify) :
    KeepsWithin b (simplifyStep simplify) where
  within f := .of_forall_ok fun g hg i hi hf => (simplifyStep_within hs hi hf).of_ok hg
  value f v hv := by
    cases f with
    | zero =>
      cases hv
      exact .pure (if_pos LawfulScalar.zero_beq_zero).symm
    | one =>
      cases hv
      exact .pure ofValue_one.symm
    | const => exact .pure (Option.some.inj hv ▸ rfl)
    | _ => cases hv

/-- Simplification keeps functions within any bound for their knots. -/
theorem simplifyWithin_within (b : KnotBound) (n : Nat) : KeepsWithin b (simplifyWithin n) := by
  induction n with
  | zero => exact ⟨fun f => .throw trivial, fun f v _ => .throw trivial⟩
  | succ n ih => exact keepsWithin_simplifyStep ih

/-- What is known about the knots of a function is known when it is simplified. -/
theorem simplify_allows (hw : f.WellFormed) (hf : f.HasFiniteNumbers) (hi : i.isValid = true)
    {s : Fn Exact} (hs : f.simplify.outcome = .ok s) :
    (⟨f.knotReport i, f.listedKnots i⟩ : KnotBound).Allows (s.knotReport i) (s.listedKnots i) := by
  by_cases hunknown : f.knotReport i = .unknown
  · rw [hunknown]
    exact ⟨KnotReport.rank_le_unknown _, by simp [KnotReport.isFinite]⟩
  · have hf : f.Within ⟨f.knotReport i, f.listedKnots i⟩ True i :=
      within_of_allows hw hf hi hunknown ⟨le_rfl, fun _ _ => id⟩
    exact (((simplifyWithin_within _ _).meets hi hf).of_ok hs).allows

/-- A simplified function has no worse report on its knots, and if these can be listed, no other
knots than the function. -/
theorem simplify_invents_no_knots (hw : f.WellFormed) (hf : f.HasFiniteNumbers)
    (hi : i.isValid = true) :
    ∃ s, f.simplify.outcome = .ok s ∧ (s.knotReport i).rank ≤ (f.knotReport i).rank ∧
      (f.knotReport i = .noKnots ∨ f.knotReport i = .finite →
        ∃ ks ls, f.knots i = .ok ks ∧ s.knots i = .ok ls ∧ ∀ x ∈ ls, x ∈ ks) := by
  obtain ⟨s, hs, -⟩ := exists_simplify hf.kernels
  obtain ⟨hrank, hknots⟩ := simplify_allows hw hf hi hs
  refine ⟨s, hs, hrank, fun h => ?_⟩
  rw [← isFinite_knotReport] at h
  have hsub := hknots h
  have hfinite := KnotReport.isFinite_of_rank_le hrank h
  have hnumbers := (restrictsTo hw hi hi subset_rfl h).numbers
  refine ⟨_, _, knots_eq_sortDistinct h, knots_eq_sortDistinct hfinite, fun x hx => ?_⟩
  rw [Exact.mem_sortDistinct_iff fun y hy => hnumbers y (hsub y hy)] at hx
  exact (Exact.mem_sortDistinct_iff hnumbers).2 (hsub x hx)

/-- On the interval from 0 to 1, `x * log x` has no other knot than zero, simplified or not. -/
theorem simplify_invents_no_knots_logarithm :
    let i : Interval Exact := .closed 0 1
    let f : Fn Exact := product [identity, unary .logarithm 1 none]
    f.WellFormed ∧ f.HasFiniteNumbers ∧ i.isValid = true ∧ f.knotReport i = .finite ∧
      f.knots i = .ok [0] ∧ ∃ s ls, f.simplify.outcome = .ok s ∧
        (s.knotReport i).rank ≤ KnotReport.finite.rank ∧ s.knots i = .ok ls ∧ ∀ x ∈ ls, x = 0 := by
  intro i f
  have hw : f.WellFormed := .product (by simp) (by simpa using ⟨.plain, .plain⟩)
  have hf : f.HasFiniteNumbers := by
    simp [f, identity, HasFiniteNumbers, Kernel.parameters, Exact.one_eq]
  have hi : i.isValid = true := by
    simp [i, Interval.isValid, Interval.closed, Exact.one_eq, Exact.zero_eq]
  have hlogarithm : (Kernel.logarithm : Kernel Exact).knotReport i = .finite ∧
      (Kernel.logarithm : Kernel Exact).knots i = [0] := by
    simp [Kernel.knotReport, Kernel.knots, i, Interval.contains, Interval.closed, Exact.one_eq,
      Exact.zero_eq]
  have hx : (identity : Fn Exact).knotReport i = .noKnots := by
    have hmono : (Kernel.power 1 : Kernel Exact).isMonomial = true :=
      Kernel.isMonomial_iff.2 ⟨1, by simp [Exact.one_eq]⟩
    simp [identity, Kernel.knotReport, hmono]
  have hone : ((1 : Exact) == 0) = false := by simp [Exact.one_eq, Exact.zero_eq]
  have hreport : f.knotReport i = .finite := by
    simp [f, KnotReport.combine, hx, hone, hlogarithm.1]
  have hknots : f.knots i = .ok [0] := by
    have hlisted : f.listedKnots i = [0] := by
      simp [f, listedKnots_product, listedKnots_of_noKnots hx, listedKnots_plain hone, hlogarithm.2]
    rw [knots_eq_sortDistinct (by simp [hreport, KnotReport.isFinite]), hlisted]
    exact congrArg Except.ok (List.perm_singleton.1 (sortStable_perm _ _))
  obtain ⟨s, hs, hrank, hlist⟩ := simplify_invents_no_knots hw hf hi
  obtain ⟨ks, ls, hks, hls, hsub⟩ := hlist (.inr hreport)
  obtain rfl : [0] = ks := Except.ok.inj (hknots.symm.trans hks)
  exact ⟨hw, hf, hi, hreport, hknots, s, ls, hs, hreport ▸ hrank, hls, by simpa using hsub⟩

end FunctionAlgebra.Fn
