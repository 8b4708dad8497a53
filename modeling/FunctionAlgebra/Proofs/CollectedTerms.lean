import FunctionAlgebra.Double
import FunctionAlgebra.Proofs.Composed
import FunctionAlgebra.Proofs.LikeTerms
import FunctionAlgebra.Proofs.Recursion

/-!
# Simplified sums collect like terms

Terms are sorted and merged until no two neighbours can be added. Like terms are neighbours in a
sorted list, so after that no two terms can be added. This is what a simplified sum consists of,
unless its terms have merged into one that is a sum itself: a simplified product may be a sum that
was multiplied by a coefficient after it had been sorted. There are two or more terms then, too, and
an undefined one among them only if a product of numbers was NaN.

## Main definitions

* `Fn.Multiples` — terms that have been multiplied by coefficients.
* `Fn.MeetsNaN` — a product of numbers was NaN when terms were multiplied.
* `Fn.remainingTerms` — the simplified and merged terms of a sum.
* `Fn.Collected` — terms in order, none of them zero or undefined, of which no two can be added.

## Main statements

* `Fn.remainingTerms_collected` — the terms that are left are collected.
* `Fn.simplify_composes` — what sums and products consist of when they have been simplified.
* `Fn.simplify_collects_terms` — the terms of a simplified sum are collected, if it has not become a
  single term.
* `Fn.simplify_reverses_terms` — a sum that has, and whose terms are not in order.
-/

namespace FunctionAlgebra.Fn

variable {α : Type} [Scalar α]

/-! ## Scales of factors -/

/-- A list of factors of which only the first has a coefficient. -/
def IsUnitTail (fs : List (Fn α)) : Prop := (product fs).HasUnitTail

theorem Composed.hasUnitTail {S : List (Fn α) → Prop} {f : Fn α} (h : f.Composed S IsUnitTail) :
    f.HasUnitTail := by
  cases f with
  | product fs => exact h.factors.2
  | _ => trivial

variable [LawfulScalar α]

theorem scale_unit_beq (f : Fn α) : (f.unit.scale == 0 || f.unit.scale == 1) = true := by
  have hscale (s : α) : (unitScale s == 0 || unitScale s == 1) = true := by
    unfold unitScale
    split_ifs with h
    · exact h
    · rw [LawfulScalar.one_beq_one, Bool.or_true]
  induction f with
  | zero | one | const v =>
    rw [scale_of_value? (value?_unit rfl)]
    exact hscale _
  | undefined | sum | product | piecewise =>
    rw [unit_of_scale_one rfl]
    exact Bool.or_eq_true _ _ ▸ .inr LawfulScalar.one_beq_one
  | plain k s | chain k s f =>
    rw [unit_unary]
    exact hscale s
  | quotient n d ihn =>
    rw [unit_quotient]
    exact ihn

theorem factorLaw_isUnitTail : FactorLaw (IsUnitTail : List (Fn α) → Prop) where
  scaleBy _ h := h
  congr {fs gs} hall h g hg := by
    have htail : List.Forall₂ CountsAs fs.tail gs.tail := by
      cases hall with
      | nil => exact .nil
      | cons _ hrest => exact hrest
    obtain ⟨f, hf, rfl | hfg⟩ := exists_mem_of_forall₂ htail hg
    · exact h f hf
    · have hscale := scale_beq_of_beq hfg
      rw [← BEq.congr_left hscale, ← BEq.congr_left hscale]
      exact h f hf

theorem splitsInto_isUnitTail (simplify : Fn α → Attempt α (Fn α)) :
    SplitsInto IsUnitTail (fun _ => True) simplify where
  factors _ := (Attempt.Meets.trivial _).mono fun _ _ _ _ => trivial
  units _ := (Attempt.Meets.trivial _).mono fun merged _ g hg => by
    rw [splitCoefficient, splitCoefficientFrom_snd] at hg
    obtain ⟨f, -, rfl⟩ := List.mem_map.1 (List.mem_of_mem_tail hg)
    exact scale_unit_beq f

/-! ## Multiplied terms -/

omit [LawfulScalar α] in
theorem isUndefined_of_beq {f g : Fn α} (h : (f == g) = true) (hf : f.isUndefined = false) :
    g.isUndefined = false := by
  cases g with
  | undefined =>
    obtain rfl := eq_undefined_of_kind (kind_of_beq h).symm
    exact hf
  | _ => rfl

/-- Terms that come from others by multiplying all of them by numbers other than zero, and by
exchanging them for equal ones. -/
inductive Multiples (ts : List (Fn α)) : List (Fn α) → Prop where
  | refl : Multiples ts ts
  | scaleBy {us c} (h0 : (c == 0) = false) (hnan : Scalar.isNaN c = false) (h : Multiples ts us) :
    Multiples ts (us.map (scaleBy c))
  | congr {us vs} (h : Multiples ts us) (hcounts : List.Forall₂ CountsAs us vs) : Multiples ts vs

/-- On the way to these terms a product of two numbers was NaN and neither of them was, that of a
constant term and a coefficient by which all terms were multiplied. -/
def MeetsNaN (us : List (Fn α)) : Prop :=
  ∃ (ts : List (Fn α)) (c : α), (c == 0) = false ∧ Scalar.isNaN c = false ∧
    (∃ t ∈ ts, ∃ v, t.value? = some v ∧ Scalar.isNaN v = false ∧ Scalar.isNaN (v * c) = true) ∧
    Multiples (ts.map (scaleBy c)) us

structure ManyTerms (us : List (Fn α)) : Prop where
  two_le : 2 ≤ us.length
  defined : (∀ u ∈ us, u.isUndefined = false) ∨ MeetsNaN us

omit [LawfulScalar α] in
/-- Multiples of a defined function are undefined only if a product of numbers is NaN. -/
theorem exists_value_of_isUndefined_scaleBy {f : Fn α} {c : α} (hf : f.isUndefined = false)
    (h : (f.scaleBy c).isUndefined = true) :
    ∃ v, f.value? = some v ∧ Scalar.isNaN (v * c) = true := by
  have hvalue {v : α} (hv : (ofValue (v * c)).isUndefined = true) :
      Scalar.isNaN (v * c) = true := by
    unfold ofValue at hv
    split_ifs at hv with h0 h1 hnan
    · cases hv
    · cases hv
    · exact hnan
    · cases hv
  cases f with
  | zero | one | const v =>
    rw [scaleBy] at h
    split_ifs at h
    · cases h
    · cases h
    · exact ⟨_, rfl, hvalue h⟩
  | undefined => cases hf
  | unary | sum | product | quotient | piecewise =>
    rw [scaleBy] at h
    split_ifs at h <;> cases h

omit [LawfulScalar α] in
theorem termLaw_manyTerms : TermLaw (ManyTerms : List (Fn α) → Prop) where
  defined hlen hdef := ⟨hlen, .inl hdef⟩
  scaleBy {c ts} h0 hnan hvalues h := by
    refine ⟨by simpa using h.two_le, ?_⟩
    rcases h.defined with hdef | ⟨us, d, hd0, hdnan, hmet, hus⟩
    · by_cases hscaled : ∀ u ∈ ts.map (scaleBy c), u.isUndefined = false
      · exact .inl hscaled
      · simp only [List.forall_mem_map, not_forall, Bool.not_eq_false] at hscaled
        obtain ⟨t, ht, hu⟩ := hscaled
        obtain ⟨v, hv, hproduct⟩ := exists_value_of_isUndefined_scaleBy (hdef t ht) hu
        exact .inr ⟨ts, c, h0, hnan, ⟨t, ht, v, hv, hvalues t ht v hv, hproduct⟩, .refl⟩
    · exact .inr ⟨us, d, hd0, hdnan, hmet, hus.scaleBy h0 hnan⟩
  congr {ts us} hcounts h := by
    refine ⟨hcounts.length_eq ▸ h.two_le, ?_⟩
    rcases h.defined with hdef | ⟨vs, d, hd0, hdnan, hmet, hvs⟩
    · refine .inl fun u hu => ?_
      obtain ⟨t, ht, rfl | htu⟩ := exists_mem_of_forall₂ hcounts hu
      · exact hdef t ht
      · exact isUndefined_of_beq htu (hdef t ht)
    · exact .inr ⟨vs, d, hd0, hdnan, hmet, hvs.congr hcounts⟩

/-- The sums that simplification gives have two or more terms, and in the products only the first
factor has a coefficient. -/
theorem simplify_composes [FaithfulScalar α] :
    Composes ManyTerms IsUnitTail (simplify : Fn α → Attempt α (Fn α)) := by
  have hwithin (n : Nat) :
      Composes ManyTerms IsUnitTail (simplifyWithin n : Fn α → Attempt α (Fn α)) := by
    induction n with
    | zero => exact fun f => .throw trivial
    | succ n ih =>
      exact simplifyStep_composed termLaw_manyTerms factorLaw_isUnitTail ih
        (splitsInto_isUnitTail _)
  exact fun f => hwithin _ f

/-- A term that came to zero is undefined when it is multiplied by infinity. -/
example :
    (product [const Scalar.infinity, product [const 1e-200,
      sum [const 1e-200, unary .exponential 1 none]]] : Fn Float).simplify.outcome =
        .ok (sum [undefined, unary .exponential Scalar.infinity none]) :=
  eq_ok_of_same (by decide +kernel)

/-! ## Equal functions -/

omit [LawfulScalar α] in
theorem totalWeight_congr {w : Weights} {fs gs : List (Fn α)}
    (h : List.Forall₂ (fun f g => f.weight w = g.weight w) fs gs) :
    totalWeight w fs = totalWeight w gs := by
  induction h with
  | nil => rfl
  | cons h _ ih => rw [totalWeight_cons, totalWeight_cons, h, ih]

/-- Equal functions weigh the same. -/
theorem weight_of_beq {w : Weights} {f g : Fn α} (h : (f == g) = true) :
    f.weight w = g.weight w := by
  have hvalue {f : Fn α} {v : α} (hv : f.value? = some v) : f.weight w = 1 := by
    cases f <;> cases hv <;> rfl
  refine beq_induct (motive := fun f g => f.weight w = g.weight w)
    (fun f g v u hv hu _ => (hvalue hv).trans (hvalue hu).symm) rfl
    (fun k k' s s' inner inner' hk _ hi => ?_) (fun ts us h => ?_) (fun fs gs h => ?_)
    (fun n d n' d' _ _ hn hd => ?_) (fun ss ts h => ?_) h
  · cases hi with
    | some h => rw [weight_chain, weight_chain, h.2]
    | none =>
      rw [kernel_beq_iff] at hk
      obtain ⟨hkind, hp⟩ := hk
      cases k <;> cases k' <;> cases hkind <;> try rfl
      rename_i p q
      have hpq : (p == q) = true := by simpa [Kernel.parameters] using hp
      rw [weight_plain_power, weight_plain_power, BEq.congr_left hpq]
  · rw [weight_sum, weight_sum, totalWeight_congr (h.imp fun _ _ h => h.2)]
  · rw [weight_product, weight_product, totalWeight_congr (h.imp fun _ _ h => h.2)]
  · rw [weight_quotient, weight_quotient, hn, hd]
  · rw [weight_piecewise, weight_piecewise, totalWeight_congr]
    rw [List.forall₂_map_left_iff, List.forall₂_map_right_iff]
    exact h.imp fun _ _ h => h.2.2

/-! ## The terms that are left -/

omit [LawfulScalar α] in
def remainingTerms (ts : List (Fn α)) : Attempt α (List (Fn α)) := do
  let parts ← ts.mapM simplify
  mergeNeighbours sort (mergeSimplified simplify (mergeAddWith simplify))
    ((parts.flatMap toTerms).filter (!·.isZero))

/-- Terms in order, none of them zero or undefined, of which no two can be added. -/
structure Collected (ts : List (Fn α)) : Prop where
  isZero : ∀ t ∈ ts, t.isZero = false
  isUndefined : ∀ t ∈ ts, t.isUndefined = false
  ordered : ts.Pairwise fun t u => (t.compare u).isLE = true
  apart : ts.Pairwise fun t u => (mergeAdd t u).outcome = .ok none

variable [FaithfulScalar α] {ts us merged : List (Fn α)}

/-- The terms that are left are composed of products in which only the first factor has a
coefficient. -/
theorem remainingTerms_composed (h : (remainingTerms ts).outcome = .ok merged) :
    ∀ t ∈ merged, t.Composed ManyTerms IsUnitTail := by
  obtain ⟨parts, hparts, h⟩ := Attempt.bind_eq_ok_iff.1 h
  have hmapped : (ts.mapM simplify).Meets (fun _ => True)
      fun parts => ∀ t ∈ parts.flatMap toTerms, t.Composed ManyTerms IsUnitTail :=
    Attempt.Meets.mapM_flatMap fun t _ => (simplify_composes t).mono fun _ => Composed.toTerms
  exact (mergeSimplified_forall simplify_composes _ fun t ht =>
    hmapped.of_ok hparts t (List.mem_of_mem_filter ht)).of_ok h

omit [LawfulScalar α] [FaithfulScalar α] in
theorem remainingTerms_isChain (h : (remainingTerms ts).outcome = .ok merged) :
    (∃ l, merged = sort l) ∧ merged.IsChain fun t u => ¬ Addable t u := by
  obtain ⟨parts, -, h⟩ := Attempt.bind_eq_ok_iff.1 h
  exact mergeNeighbours_not_addable h

/-- Like terms lie side by side, so they are all merged. -/
theorem remainingTerms_collected (h : (remainingTerms ts).outcome = .ok merged)
    (hnan : ∀ t ∈ merged, t.HasNoNaN) (hu : ∀ t ∈ merged, t.isUndefined = false) :
    Collected (merged.filter (!·.isZero)) := by
  obtain ⟨⟨l, rfl⟩, hchain⟩ := remainingTerms_isChain h
  have hcomposed := remainingTerms_composed h
  have hl : ∀ t ∈ l, t.HasNoNaN := fun t ht => hnan t ((sortStable_perm less l).mem_iff.2 ht)
  have hordered : (sort l).Pairwise fun t u => (t.compare u).isLE = true :=
    (sortStable_ascending orders_hasNoNaN hl).pairwise.imp less_eq_false_iff.1
  have hapart : (sort l).Pairwise fun t u => ¬ Addable t u :=
    pairwise_of_isChain (fun t ht u hu' v hv htu huv hadd =>
      hadd.of_between (hu t ht) (hnan t ht) (hnan u hu') (hnan v hv)
        (hcomposed t ht).hasUnitTail (hcomposed u hu').hasUnitTail htu huv) hordered hchain
  exact {
    isZero := fun t ht => by simpa using (List.mem_filter.1 ht).2
    isUndefined := fun t ht => hu t (List.mem_of_mem_filter ht)
    ordered := hordered.filter _
    apart := (hapart.imp mergeAddWith_eq_none_iff.2).filter _ }

omit [LawfulScalar α] [FaithfulScalar α] in
/-- Items that come to nothing make a list lighter. -/
theorem totalWeight_flatMap_lt {w : Weights} {φ : Fn α → List (Fn α)} {fs gs : List (Fn α)}
    {P : Fn α → Prop} (h : List.Forall₂ (fun f g => totalWeight w (φ g) ≤ f.weight w ∧
      (P f → φ g = [])) fs gs) :
    totalWeight w (gs.flatMap φ) ≤ totalWeight w fs ∧
      ((∃ f ∈ fs, P f) → totalWeight w (gs.flatMap φ) < totalWeight w fs) := by
  induction h with
  | nil => simp
  | @cons f g fs gs hfg _ ih =>
    have hpos := weight_pos (w := w) f
    simp only [List.flatMap_cons, totalWeight_append, totalWeight_cons]
    refine ⟨by omega, ?_⟩
    rintro ⟨x, hx, hP⟩
    rcases List.mem_cons.1 hx with rfl | hx
    · rw [hfg.2 hP, totalWeight_nil]
      omega
    · have := ih.2 ⟨x, hx, hP⟩
      omega

omit [FaithfulScalar α] in
/-- A zero among the terms is dropped, and those that are left weigh less. -/
theorem remainingTerms_lighter {w : Weights} (h : (remainingTerms ts).outcome = .ok merged)
    (hz : ∃ t ∈ ts, t.isZero = true) : totalWeight w merged < totalWeight w ts := by
  have hs := simplify_lightens (α := α) w
  obtain ⟨parts, hparts, h⟩ := Attempt.bind_eq_ok_iff.1 h
  have hmapped : (ts.mapM simplify).Meets (fun _ => True)
      (List.Forall₂ (fun t p => totalWeight w (p.toTerms.filter (!·.isZero)) ≤ t.weight w ∧
        (t.isZero = true → p.toTerms.filter (!·.isZero) = [])) ts) := by
    refine Attempt.Meets.mapM fun t _ => (hs.weight_le t).outcome.mono fun p ⟨hle, hp⟩ => ⟨?_, ?_⟩
    · exact (totalWeight_sublist List.filter_sublist).trans ((totalWeight_toTerms_le p).trans hle)
    · intro htz
      obtain rfl := eq_zero_of_isZero htz
      obtain rfl : zero = p := Except.ok.inj hp
      rfl
  have hflat := (totalWeight_flatMap_lt (hmapped.of_ok hparts)).2 hz
  rw [← List.filter_flatMap] at hflat
  exact (((mergeLaw (mergeAdd_lightens hs)).mergeNeighbours trivial).of_ok h).trans_lt hflat

/-! ## Simplified sums -/

omit [FaithfulScalar α] in
/-- Equal terms are in the same order, and can be added if they can be added. -/
theorem Collected.congr (h : Collected ts)
    (hall : List.Forall₂ (fun t u => (t == u) = true) ts us)
    (h0 : ∀ u ∈ us, u.isZero = false) : Collected us := by
  have hordered {t u t' u' : Fn α} (ht : (t == t') = true) (hu : (u == u') = true)
      (htu : (t.compare u).isLE = true) : (t'.compare u').isLE = true := by
    obtain ⟨hnt, hnt', -⟩ := beq_iff_compare.1 ht
    obtain ⟨hnu, hnu', huu'⟩ := beq_iff_compare.1 hu
    obtain ⟨-, -, ht't⟩ := beq_iff_compare.1 (PartialEquivBEq.symm ht)
    have ht'u := (compareWith_consistent false hnt' hnt hnu).isLE (by rw [← compare, ht't]; rfl) htu
    exact (compareWith_consistent false hnt' hnu hnu').isLE ht'u (by rw [← compare, huu']; rfl)
  have hapart {t u t' u' : Fn α} (ht : (t == t') = true) (hu : (u == u') = true)
      (htu : (mergeAdd t u).outcome = .ok none) : (mergeAdd t' u').outcome = .ok none := by
    rw [mergeAdd, mergeAddWith_eq_none_iff] at htu ⊢
    exact fun hadd => htu (hadd.congr_beq (PartialEquivBEq.symm ht) (PartialEquivBEq.symm hu))
  refine ⟨h0, fun u hu => ?_, ?_, ?_⟩
  · obtain ⟨t, ht, htu⟩ := exists_mem_of_forall₂ hall hu
    exact isUndefined_of_beq htu (h.isUndefined t ht)
  · exact pairwise_of_forall₂ hall h.ordered fun _ _ _ _ => hordered
  · exact pairwise_of_forall₂ hall h.apart fun _ _ _ _ => hapart

omit [LawfulScalar α] in
/-- A sum that is made of merged terms consists of those other than zero, unless there is only
one. -/
theorem ofTerms_eq_sum (h : ofTerms (sum ts) merged = sum us) :
    (∀ t ∈ merged, t.isUndefined = false) ∧
      (merged.filter (!·.isZero) = [sum us] ∨
        2 ≤ us.length ∧ List.Forall₂ CountsAs (merged.filter (!·.isZero)) us ∧
          (us = merged.filter (!·.isZero) ∨ us = ts)) := by
  generalize hg : sum us = g at h
  cases fromTerms_of_ofTerms h with
  | absorbed | empty => cases hg
  | assembled hdef ha =>
    refine ⟨by simpa using hdef, ?_⟩
    cases ha with
    | single hts => exact .inl (hg ▸ hts)
    | unchanged htwo hsame =>
      obtain rfl : us = ts := sum.inj hg
      have hcounts := countsAs_of_sameChildren hsame
      exact .inr ⟨hcounts.length_eq ▸ htwo, hcounts, .inr rfl⟩
    | wrapped htwo =>
      obtain rfl : us = merged.filter (!·.isZero) := sum.inj hg
      exact .inr ⟨htwo, List.forall₂_same.2 fun _ _ => .inl rfl, .inl rfl⟩

omit [FaithfulScalar α] in
theorem exists_remainingTerms (h : (sum ts).simplify.outcome = .ok (sum us)) :
    ∃ merged, (remainingTerms ts).outcome = .ok merged ∧ ofTerms (sum ts) merged = sum us := by
  rw [simplify_eq_simplifyStep] at h
  obtain ⟨parts, hparts, h⟩ := Attempt.bind_eq_ok_iff.1 h
  dsimp only at h
  split at h
  · cases h
  · obtain ⟨merged, hmerged, h⟩ := Attempt.bind_eq_ok_iff.1 h
    exact ⟨merged, Attempt.bind_eq_ok_iff.2 ⟨parts, hparts, hmerged⟩, Attempt.pure_eq_ok_iff.1 h⟩

/-- If a simplified sum is a sum without NaN, it has two or more terms, and they are collected: they
are in order, none of them is zero or undefined, and no two of them can be added, neighbours or not.
The one other way for it to be a sum is that all terms have merged into one, which is this sum. Then
its terms may have been multiplied since they were collected, but still there are two or more, and
all of them are defined unless a product of two numbers was NaN, as zero times infinity is. -/
theorem simplify_collects_terms (h : (sum ts).simplify.outcome = .ok (sum us))
    (hnan : (sum us).HasNoNaN) :
    2 ≤ us.length ∧ ((∀ u ∈ us, u.isUndefined = false) ∨ MeetsNaN us) ∧
      (Collected us ∨ ∃ merged, (remainingTerms ts).outcome = .ok merged ∧
        merged.filter (!·.isZero) = [sum us]) := by
  have hholds : ManyTerms us := ((simplify_composes (sum ts)).of_ok h).terms.2
  refine ⟨hholds.two_le, hholds.defined, ?_⟩
  obtain ⟨merged, hmerged, hterms⟩ := exists_remainingTerms h
  obtain ⟨hu, hsingle | ⟨-, hcounts, hus⟩⟩ := ofTerms_eq_sum hterms
  · exact .inr ⟨merged, hmerged, hsingle⟩
  have hequal : List.Forall₂ (fun t u => (t == u) = true) (merged.filter (!·.isZero)) us :=
    (forall₂_and_of_forall_mem hcounts (fun _ _ => trivial) hnan.terms).imp
      fun t u ⟨htu, _, hu⟩ => htu.beq hu
  have hmnan : ∀ t ∈ merged, t.HasNoNaN := by
    intro t ht
    cases hz : t.isZero with
    | true =>
      cases t with
      | zero => exact numbers_zero
      | _ => cases hz
    | false =>
      obtain ⟨u, -, htu⟩ := exists_mem_of_forall₂ hequal.flip
        (List.mem_filter.2 ⟨ht, by rw [hz, Bool.not_false]⟩)
      exact (hasNoNaN_of_beq htu).1
  refine .inl ((remainingTerms_collected hmerged hmnan hu).congr hequal fun u hmem => ?_)
  rcases hus with rfl | rfl
  · simpa using (List.mem_filter.1 hmem).2
  · -- A zero would be dropped, and equal terms do not weigh less.
    by_contra hz
    have hlighter := remainingTerms_lighter (w := .cost) hmerged ⟨u, hmem, by simpa using hz⟩
    have hkept := totalWeight_sublist (w := .cost)
      (List.filter_sublist (p := (!·.isZero)) (l := merged))
    rw [totalWeight_congr (hequal.imp fun _ _ => weight_of_beq)] at hkept
    omega

/-- The sum of `x`, one and `x` collects the two terms `x`. -/
theorem simplify_collects_terms_identity_twice :
    (sum [identity, one, identity] : Fn Float).simplify.outcome =
        .ok (sum [one, unary (.power 1) 2 none]) ∧
      (sum [one, unary (.power 1) 2 none] : Fn Float).HasNoNaN ∧
      2 ≤ [(one : Fn Float), unary (.power 1) 2 none].length ∧
      Collected [(one : Fn Float), unary (.power 1) 2 none] := by
  have hsum : (sum [identity, one, identity] : Fn Float).simplify.outcome =
      .ok (sum [one, unary (.power 1) 2 none]) :=
    eq_ok_of_same (by decide +kernel)
  have hnan : (sum [one, unary (.power 1) 2 none] : Fn Float).HasNoNaN := by
    refine (numbers_sum _).2 (List.forall_mem_cons.2 ⟨numbers_one, ?_⟩)
    refine List.forall_mem_singleton.2 ((numbers_unary ..).2 ⟨rfl, ?_, by simp⟩)
    exact List.forall_mem_singleton.2 LawfulScalar.isNaN_one
  obtain ⟨hlen, -, hcollected | ⟨merged, hmerged, hsingle⟩⟩ := simplify_collects_terms hsum hnan
  · exact ⟨hsum, hnan, hlen, hcollected⟩
  · have htwo : (remainingTerms [(identity : Fn Float), one, identity]).outcome.toOption.any
        (fun merged => (merged.filter (!·.isZero)).length == 2) = true := by
      decide +kernel
    rw [hmerged, Except.toOption, Option.any_some, hsingle] at htwo
    cases htwo

def bounded (v : Float) : Fn Float := piecewise [⟨.closed 0 1, const v⟩]

/-- Let `s` be the sum of the constants 2 and 3 on an interval, which is in order. Its product with
`(-s) ^ 2 / -(-s) ^ 2` is added to itself, where the first `-s` is simplified from a product, so
that its terms descend, and the other one is not equal to it. As soon as the two products have
merged, both are in order, the quotient is the constant -1, and what is left is the multiple
`-2 * s`: a single term that is a sum, and whose terms descend, because a coefficient is put into
the sum `s` after it has been sorted. -/
theorem simplify_reverses_terms :
    let s := sum [bounded 2, bounded 3]
    let f := product [s, quotient (power (some (product [const (-1), s])) 1 2)
      (power (some (sum [bounded (-3), bounded (-2)])) (-1) 2)]
    (sum [f, f]).simplify.outcome = .ok (sum [bounded (-4), bounded (-6)]) ∧
      (sum [bounded (-4), bounded (-6)]).HasNoNaN ∧
      (bounded (-4)).compare (bounded (-6)) = .gt := by
  intro s f
  subst f s
  refine ⟨eq_ok_of_same (by decide +kernel), ?_, by decide +kernel⟩
  have hnan (v : Float) (hv : Scalar.isNaN v = false) : (bounded v).HasNoNaN := by
    have hinterval : Scalar.isNaN (0 : Float) = false ∧ Scalar.isNaN (1 : Float) = false :=
      ⟨LawfulScalar.isNaN_zero, LawfulScalar.isNaN_one⟩
    exact (numbers_piecewise _).2 (by simpa using ⟨hinterval, hv⟩)
  exact (numbers_sum _).2 (List.forall_mem_cons.2 ⟨hnan (-4) rfl,
    List.forall_mem_singleton.2 (hnan (-6) rfl)⟩)

end FunctionAlgebra.Fn
