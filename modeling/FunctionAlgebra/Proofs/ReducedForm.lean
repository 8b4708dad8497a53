import FunctionAlgebra.Proofs.Coefficients
import FunctionAlgebra.Proofs.FiniteRun
import FunctionAlgebra.Proofs.Lightening
import FunctionAlgebra.Proofs.Rescaling

/-!
# Simplified functions are reduced

Among finite numbers, a simplified function has nothing left to merge. Terms and factors are merged
until no two neighbours merge, and at most the first of them is a constant, because constants come
first and any two of them merge.

## Main definitions

* `Fn.Normal` — a reduced function whose only constant of value zero is the canonical one.

## Main statements

* `Fn.value?_tail_eq_none` — at most the first item is a constant.
* `Fn.simplifyFinite_normalizes` — simplified functions are normal.
-/

namespace FunctionAlgebra.Fn

open Exact (real)

variable {f g : Fn Exact}

/-- A reduced function that is the canonical zero if its value is zero. -/
structure Normal (f : Fn Exact) : Prop where
  reduced : f.Reduced
  zero : f.value? = some 0 → f = zero

theorem normal_zero : (zero : Fn Exact).Normal := ⟨.value (v := 0) rfl, fun _ => rfl⟩

theorem normal_one : (one : Fn Exact).Normal :=
  ⟨.value (v := 1) rfl, fun h => by simp [value?, Exact.zero_eq, Exact.one_eq] at h⟩

theorem normal_undefined : (undefined : Fn Exact).Normal := ⟨.undefined, fun h => by cases h⟩

theorem Reduced.normal (h : f.Reduced) (h0 : f.value? ≠ some 0) : f.Normal :=
  ⟨h, fun hv => (h0 hv).elim⟩

theorem Normal.value?_ne_zero (h : f.Normal) (h0 : f.isZero = false) : f.value? ≠ some 0 := by
  intro hv
  rw [h.zero hv] at h0
  cases h0

theorem normal_ofValue {v : Exact} (h : (ofValue v).HasFiniteNumbers) : (ofValue v).Normal := by
  unfold ofValue at h ⊢
  split_ifs at h ⊢ with h0 h1 hnan
  · exact normal_zero
  · exact normal_one
  · exact normal_undefined
  · have hv : v.IsReal := Exact.isFinite_iff.1 ((numbers_const v).1 h)
    refine ⟨.value (v := v.toReal) (congrArg some hv.eq_real), fun h => ?_⟩
    obtain rfl : v = 0 := by simpa [value?] using h
    simp at h0

theorem normal_ofValue_real (r : ℝ) : (ofValue (real r)).Normal := by
  apply normal_ofValue
  unfold ofValue HasFiniteNumbers
  split_ifs <;> simp

def Normalizes (simplify : Fn Exact → Attempt Exact (Fn Exact)) : Prop :=
  ∀ f, (simplify f).Meets (fun _ => True) Normal

variable {simplify : Fn Exact → Attempt Exact (Fn Exact)}

/-! ## Standard functions -/

/-- What a simplified inner function is, if it is no constant and not `x`. -/
structure IsInner (f : Fn Exact) : Prop where
  normal : f.Normal
  isUndefined : f.isUndefined = false
  value? : f.value? = none
  isIdentity : f.isIdentity = false

theorem simplifyKernel_normal (hs : Normalizes simplify) {k : Kernel Exact} {s : Exact}
    {inner : Option (Fn Exact)} (hs0 : s ≠ 0) (hfin : (unary k s none).HasFiniteNumbers)
    (hi : ∀ f ∈ inner, f.IsInner) :
    (simplifyKernel simplify k s inner).Meets (fun _ => True) fun g =>
      g.HasFiniteNumbers → g.Normal := by
  obtain ⟨hsr, hpar, -⟩ := (numbers_unary ..).1 hfin
  rw [Exact.isFinite_iff] at hsr
  obtain ⟨s, rfl⟩ := Exact.isReal_iff.1 hsr
  have hs0 : s ≠ 0 := by simpa using hs0
  have hp : ∀ p ∈ k.parameters, p.IsReal := fun p hp => Exact.isFinite_iff.1 (hpar p hp)
  have hkept (hk : k.Varies) (h1 : inner ≠ none → k ≠ .power 1) :
      (scaled k (real s) inner).Normal := by
    rw [scaled, Kernel.atScale_of_ne_zero (by simpa using hs0)]
    cases inner with
    | none => exact Reduced.normal (.plain hs0 hp hk) (by simp [Fn.value?])
    | some f =>
      obtain ⟨hf, hu, hv, hid⟩ := hi f rfl
      exact Reduced.normal (.chain hs0 hp hk (h1 (by simp)) hf.reduced hu hv hid)
        (by simp [Fn.value?])
  generalize hx : simplifyKernel simplify k (real s) inner = x
  cases kernelStep_of_simplifyKernel hx with
  | exponentZero | frequencyZero => exact .pure normal_ofValue
  | exponentOne => exact (hs _).mono fun g hg _ => hg
  | infiniteShift => exact .throw trivial
  | power h0 h1 =>
    refine .pure fun _ => hkept (Exact.beq_zero_eq_false_iff.1 h0) fun hinner => ?_
    obtain ⟨f, rfl⟩ := Option.ne_none_iff_exists'.1 hinner
    simpa using h1 f rfl
  | sine h0 => exact .pure fun _ => hkept (Exact.beq_zero_eq_false_iff.1 h0) (by simp)
  | other hpower hsine =>
    refine .pure fun _ => hkept ?_ fun _ => ?_
    · cases k with
      | power => exact (hpower rfl).elim
      | sine => exact (hsine rfl).elim
      | _ => trivial
    · rintro rfl
      exact hpower rfl

theorem simplifyStandard_normal (hs : Normalizes simplify) {k : Kernel Exact} {s : Exact}
    {inner : Option (Fn Exact)} (hfin : (unary k s inner).HasFiniteNumbers) :
    (simplifyStandard simplify k s inner).Meets (fun _ => True) fun g =>
      g.HasFiniteNumbers → g.Normal := by
  have hplain : (unary k s none).HasFiniteNumbers := by
    unfold HasFiniteNumbers at hfin ⊢
    rw [numbers_unary] at hfin ⊢
    exact ⟨hfin.1, hfin.2.1, by simp⟩
  unfold simplifyStandard
  split_ifs with h0
  · exact .pure fun _ => normal_zero
  rw [Exact.beq_zero_iff] at h0
  cases inner with
  | none => exact simplifyKernel_normal hs h0 hplain (by simp)
  | some f =>
    refine (hs f).bind fun g hg => ?_
    split
    · exact .pure fun _ => normal_undefined
    rename_i hu
    split
    · exact (hs _).mono fun h hh _ => hh
    · rename_i hv
      refine simplifyKernel_normal hs h0 hplain ?_
      split_ifs with hid
      · simp
      · simpa using ⟨hg, by simpa using hu, hv, by simpa using hid⟩

/-! ## Merged lists -/

theorem mergeSimplified_normal (hs : Normalizes simplify)
    (merge : Fn Exact → Fn Exact → Attempt Exact (Option (Fn Exact))) (f g : Fn Exact) :
    (mergeSimplified simplify merge f g).Meets (fun _ => True) fun merged =>
      ∀ h ∈ merged, h.Normal := by
  have hmerge : (merge f g).Meets (fun _ => True) fun merged => ∀ m ∈ merged, True :=
    (Attempt.Meets.trivial _).mono fun _ _ _ _ => trivial
  exact mergeSimplified_meets hmerge fun m _ => hs m

structure Settled (R : Fn Exact → Fn Exact → Prop) (fs : List (Fn Exact)) : Prop where
  normal : ∀ f ∈ fs, f.Normal
  ordered : fs.Pairwise fun f g => g.less f = false
  apart : fs.IsChain R

theorem mergeNeighbours_settled (hs : Normalizes simplify)
    (merge : Fn Exact → Fn Exact → Attempt Exact (Option (Fn Exact))) {fs : List (Fn Exact)}
    (hfs : ∀ f ∈ fs, f.Normal) :
    (mergeNeighbours sort (mergeSimplified simplify merge) fs).Meets (fun _ => True)
      (Settled fun f g => (merge f g).outcome = .ok none) := by
  have hlaw := MergeLaw.forall_mem (sortStable_perm less) fun f g (_ : f.Normal) _ =>
    mergeSimplified_normal hs merge f g
  refine (hlaw.mergeNeighbours hfs).outcome.mono fun gs ⟨hnormal, hgs⟩ => ?_
  obtain ⟨⟨l, rfl⟩, hchain⟩ :=
    mergeNeighbours_isChain (fun l => (sortStable_perm less l).length_eq) hgs
  have hl : ∀ f ∈ l, f.HasNoNaN := fun f hf =>
    (hnormal hfs f ((sortStable_perm less l).mem_iff.2 hf)).reduced.hasNoNaN
  exact ⟨hnormal hfs, (sortStable_ascending orders_hasNoNaN hl).pairwise,
    hchain.imp fun f g => merge_eq_none_of_mergeSimplified⟩

/-- Only constants come before a constant. -/
theorem exists_value_of_less {w : Exact} (h : g.less f = false) (hg : g.value? = some w) :
    ∃ v, f.value? = some v := by
  have hg0 : g.kind.rank = 0 := congrArg Kind.rank (kind_of_value? hg)
  rw [less_eq_false_iff, compare, compareWith_kind, hg0] at h
  have hf0 : f.kind.rank = 0 := by
    by_contra hne
    rw [Nat.compare_eq_gt.2 (Nat.pos_of_ne_zero hne)] at h
    cases h
  exact exists_value_of_kind hg (Kind.rank_injective (hg0.trans hf0.symm))

/-- At most the first of some items is a constant, if two constants have not the property that
neighbours have. -/
theorem value?_tail_eq_none {R : Fn Exact → Fn Exact → Prop}
    (hR : ∀ {f g v w}, f.value? = some v → g.value? = some w → ¬ R f g) {fs : List (Fn Exact)}
    (h : Settled R (f :: fs)) : ∀ g ∈ fs, g.value? = none := by
  obtain ⟨-, hordered, hapart⟩ := h
  induction fs generalizing f with
  | nil => simp
  | cons g gs ih =>
    rw [List.isChain_cons_cons] at hapart
    refine List.forall_mem_cons.2 ⟨?_, ih (List.pairwise_cons.1 hordered).2 hapart.2⟩
    cases hw : g.value? with
    | none => rfl
    | some w =>
      obtain ⟨v, hv⟩ := exists_value_of_less (List.rel_of_pairwise_cons hordered (by simp)) hw
      exact (hR hv hw hapart.1).elim

/-! ## Sums -/

theorem toTerms_normal (h : f.Normal) : ∀ t ∈ f.toTerms, t.Normal := by
  cases f with
  | sum ts =>
    cases h.reduced with
    | value hv => cases hv
    | sum hlen ht hu h0 => exact fun t hmem => (ht t hmem).normal (h0 t hmem)
  | _ => simpa [toTerms] using h

theorem isZero_eq_false (h : f.value? ≠ some 0) : f.isZero = false := by
  cases f with
  | zero => exact (h rfl).elim
  | _ => rfl

theorem filter_isZero {ts : List (Fn Exact)} (h : ∀ t ∈ ts, t.value? ≠ some 0) :
    ts.filter (!·.isZero) = ts := by
  refine List.filter_eq_self.2 fun t ht => ?_
  rw [isZero_eq_false (h t ht), Bool.not_false]

/-- Terms that are no zeros are still apart without the zeros. -/
theorem isChain_filter_isZero {ts : List (Fn Exact)}
    (h : Settled (fun f g => ¬ Addable f g) ts) :
    (ts.filter (!·.isZero)).IsChain fun f g => ¬ Addable f g := by
  cases ts with
  | nil => exact .nil
  | cons t rest =>
    have hv := value?_tail_eq_none (fun hv hw hadd => hadd (.values hv hw)) h
    have hrest : rest.filter (!·.isZero) = rest := filter_isZero fun u hu => by simp [hv u hu]
    rw [List.filter_cons, hrest]
    split_ifs
    · exact h.apart
    · exact h.apart.tail

theorem ofTerms_normal {ts us : List (Fn Exact)}
    (h : Settled (fun f g => ¬ Addable f g) us) : (ofTerms (sum ts) us).Normal := by
  have hapart := isChain_filter_isZero h
  have hnormal : ∀ t ∈ us.filter (!·.isZero), t.Normal :=
    fun t ht => h.normal t (List.mem_of_mem_filter ht)
  have h0 : ∀ t ∈ us.filter (!·.isZero), t.value? ≠ some 0 := by
    intro t ht
    refine (hnormal t ht).value?_ne_zero ?_
    simpa using (List.mem_filter.1 ht).2
  generalize hg : ofTerms (sum ts) us = g
  cases fromTerms_of_ofTerms hg with
  | absorbed => exact normal_undefined
  | empty => exact normal_zero
  | assembled hdef hg =>
    have hu : ∀ t ∈ us.filter (!·.isZero), t.isUndefined = false :=
      fun t ht => by simpa using List.any_eq_false.1 hdef t (List.mem_of_mem_filter ht)
    have hsum (hlen : 2 ≤ (us.filter (!·.isZero)).length) :
        (sum (us.filter (!·.isZero))).Reduced :=
      .sum hlen (fun t ht => (hnormal t ht).reduced) hu h0 hapart
    cases hg with
    | single hts => exact hnormal g (by simp [hts])
    | unchanged hlen hsame =>
      refine ((hsum hlen).congr ?_).normal (by simp [value?])
      rw [forget_sum, forget_sum, map_forget_of_sameChildren hsame, toTerms]
    | wrapped hlen => exact (hsum hlen).normal (by simp [value?])

theorem simplifySum_normal (hs : Normalizes simplify) (ts : List (Fn Exact)) :
    (simplifySum simplify ts).Meets (fun _ => True) Normal := by
  have hparts : (ts.mapM simplify).Meets (fun _ => True)
      fun parts => ∀ t ∈ parts.flatMap toTerms, t.Normal :=
    Attempt.Meets.mapM_flatMap fun f _ => (hs f).mono fun _ => toTerms_normal
  refine hparts.bind fun parts hflat => ?_
  dsimp only
  split
  · exact .pure normal_undefined
  have hfilter : ∀ t ∈ (parts.flatMap toTerms).filter (!·.isZero), t.Normal :=
    fun t ht => hflat t (List.mem_of_mem_filter ht)
  refine (mergeNeighbours_settled hs _ hfilter).bind fun merged hm => .pure (ofTerms_normal ?_)
  exact ⟨hm.normal, hm.ordered, hm.apart.imp fun f g => mergeAddWith_eq_none_iff.1⟩

/-! ## Products -/

theorem toFactors_normal (h : f.Normal) : ∀ g ∈ f.toFactors, g.Normal := by
  cases f with
  | product fs =>
    cases h.reduced with
    | value hv => cases hv
    | product hne hf hu hv => exact fun g hmem => (hf g hmem).normal (by simp [hv g hmem])
  | _ => simpa [toFactors] using h

noncomputable def coefficient (f : Fn Exact) : ℝ := (f.value?.getD f.scale).toReal

theorem Reduced.coefficientStep_eq (h : f.Reduced) (c : ℝ) :
    coefficientStep (real c) f = real (c * f.coefficient) := by
  unfold coefficientStep coefficient
  split
  · rename_i v hv
    cases h with
    | value hw =>
      obtain rfl := Option.some.inj (hv.symm.trans hw)
      simp [hv]
    | _ => cases hv
  · rename_i hv
    obtain ⟨s, hs, -⟩ := h.exists_scale (by simp [hv])
    rw [hv, hs]
    split_ifs with h1
    · simp [Exact.real_eq_one_iff.1 (Exact.beq_one_iff.1 h1)]
    · simp

/-- The coefficients of factors are multiplied. -/
theorem splitCoefficient_fst {fs : List (Fn Exact)} (h : ∀ f ∈ fs, f.Reduced) :
    (splitCoefficient fs).1 = real (fs.map coefficient).prod := by
  have hfold (c : ℝ) :
      fs.foldl coefficientStep (real c) = real (c * (fs.map coefficient).prod) := by
    induction fs generalizing c with
    | nil => simp
    | cons f fs ih =>
      rw [List.forall_mem_cons] at h
      rw [List.foldl_cons, h.1.coefficientStep_eq, ih h.2, List.map_cons, List.prod_cons, mul_assoc]
  rw [splitCoefficient, splitCoefficientFrom_fst, Exact.one_eq, hfold, one_mul]

theorem isReal_splitCoefficient {fs : List (Fn Exact)} (h : ∀ f ∈ fs, f.Reduced) :
    (splitCoefficient fs).1.IsReal := by
  rw [splitCoefficient_fst h]
  exact Exact.isReal_real _

structure IsUnitFactor (f : Fn Exact) : Prop where
  reduced : f.Reduced
  value? : f.value? = none
  scale : f.scale = 1

theorem Reduced.isUnitFactor_unit (h : f.Reduced) (hv : f.value? = none) :
    f.unit.IsUnitFactor := by
  obtain ⟨s, hs, hs0⟩ := h.exists_scale (by simp [hv])
  exact ⟨h.unit (by simp [hv]), (rescaled_unit f).value?_eq_none hv, scale_unit hs hs0⟩

theorem isUnitFactor_splitCoefficient {fs : List (Fn Exact)} (h : ∀ f ∈ fs, f.Reduced) :
    ∀ f ∈ (splitCoefficient fs).2, f.IsUnitFactor := by
  rw [splitCoefficient, splitCoefficientFrom_snd, List.forall_mem_map]
  intro f hf
  rw [List.mem_filter, Option.isNone_iff_eq_none] at hf
  exact (h f hf.1).isUnitFactor_unit hf.2

/-- Merged factors are still apart without constants and scales. -/
theorem isChain_splitCoefficient {fs : List (Fn Exact)}
    (h : Settled (fun f g => mergeMultiply? f g = none) fs) :
    (splitCoefficient fs).2.IsChain fun f g => mergeMultiply? f g = none := by
  have hunits {gs : List (Fn Exact)} (hgs : gs.IsChain fun f g => mergeMultiply? f g = none) :
      (gs.map unit).IsChain fun f g => mergeMultiply? f g = none := by
    have hall : List.Forall₂ Rescaled gs (gs.map unit) :=
      List.forall₂_map_right_iff.2 (List.forall₂_same.2 fun g _ => rescaled_unit g)
    exact isChain_mergeMultiply?_congr hall hgs
  rw [splitCoefficient, splitCoefficientFrom_snd]
  apply hunits
  cases fs with
  | nil => exact .nil
  | cons f rest =>
    have hv := value?_tail_eq_none (fun {f g v w} hv hw hm => by
      rw [(Multiplied.values hv hw).mergeMultiply?] at hm
      cases hm) h
    have hrest : rest.filter (·.value?.isNone) = rest :=
      List.filter_eq_self.2 fun g hg => by simp [hv g hg]
    rw [List.filter_cons, hrest]
    split_ifs
    · exact h.apart
    · exact h.apart.tail

theorem ite_scaleFirst (c : Exact) (fs : List (Fn Exact)) :
    (if (c == 1) = true then fs else scaleFirst c fs) = scaleFirst c fs := by
  split_ifs with h1
  · rw [Exact.beq_one_iff.1 h1]
    cases fs <;> simp [scaleFirst]
  · rfl

theorem ScaledFirst.exists_eq {c : Exact} {us gs : List (Fn Exact)} (h : ScaledFirst c us gs) :
    ∃ u rest, us = u :: rest ∧ gs = u.scaleBy c :: rest := by
  cases h with
  | @one u rest h1 => exact ⟨u, rest, rfl, by rw [Exact.beq_one_iff.1 h1, scaleBy_one]⟩
  | @head u rest => exact ⟨u, rest, rfl, rfl⟩

/-- Unit factors that are apart make a reduced product with any coefficient other than zero. -/
theorem reduced_product_scaleBy {r : ℝ} {rest : List (Fn Exact)} (hr : r ≠ 0) (hne : rest ≠ [])
    (h : ∀ g ∈ f :: rest, g.IsUnitFactor) (hdef : ∀ g ∈ f :: rest, g.isUndefined = false)
    (hapart : (f :: rest).IsChain fun f g => mergeMultiply? f g = none) :
    (product (f.scaleBy (real r) :: rest)).Reduced := by
  rw [List.forall_mem_cons] at h hdef
  obtain ⟨hf, hrest⟩ := h
  have hrescaled := hf.reduced.rescaled_scaleBy hr
  refine .product hne ?_ ?_ ?_ (fun g hg => (hrest g hg).scale) ?_
  · exact List.forall_mem_cons.2 ⟨hf.reduced.scaleBy hr, fun g hg => (hrest g hg).reduced⟩
  · exact List.forall_mem_cons.2 ⟨hrescaled.isUndefined ▸ hdef.1, hdef.2⟩
  · exact List.forall_mem_cons.2
      ⟨hrescaled.value?_eq_none hf.value?, fun g hg => (hrest g hg).value?⟩
  · have hall : List.Forall₂ Rescaled (f :: rest) (f.scaleBy (real r) :: rest) :=
      .cons hrescaled (List.forall₂_same.2 fun g _ => rescaled_of_forget rfl)
    exact isChain_mergeMultiply?_congr hall hapart

theorem ofFactors_normal {fs gs : List (Fn Exact)} {c : Exact} (hc : c.IsReal)
    (hgs : ∀ g ∈ gs, g.IsUnitFactor)
    (hapart : gs.IsChain fun f g => mergeMultiply? f g = none) :
    (ofFactors (product fs) c gs).Normal := by
  obtain ⟨r, rfl⟩ := Exact.isReal_iff.1 hc
  generalize hg : ofFactors (product fs) (real r) gs = g
  cases fromFactors_of_ofFactors hg with
  | zero => exact normal_zero
  | absorbed => exact normal_undefined
  | constant => exact normal_ofValue_real r
  | assembled h0 _ hdef hscaled hg =>
    have hr : r ≠ 0 := by simpa using h0
    obtain ⟨f, rest, rfl, rfl⟩ := hscaled.exists_eq
    have hu : ∀ g ∈ f :: rest, g.isUndefined = false :=
      fun g hg => by simpa using List.any_eq_false.1 hdef g hg
    have hproduct (hlen : 2 ≤ (f.scaleBy (real r) :: rest).length) :
        (product (f.scaleBy (real r) :: rest)).Reduced :=
      reduced_product_scaleBy hr (by rintro rfl; simp at hlen) hgs hu hapart
    cases hg with
    | single hts =>
      obtain ⟨rfl, rfl⟩ := List.cons.inj hts
      have hf := hgs f (by simp)
      have hv := (hf.reduced.rescaled_scaleBy hr).value?_eq_none hf.value?
      exact (hf.reduced.scaleBy hr).normal (by simp [hv])
    | unchanged hlen hsame =>
      refine ((hproduct hlen).congr ?_).normal (by simp [Fn.value?])
      rw [forget_product, forget_product, map_forget_of_sameChildren hsame, toFactors]
    | wrapped hlen => exact (hproduct hlen).normal (by simp [Fn.value?])

theorem simplifyProduct_normal (hs : Normalizes simplify) (fs : List (Fn Exact)) :
    (simplifyProduct simplify fs).Meets (fun _ => True) Normal := by
  have hparts : (fs.mapM simplify).Meets (fun _ => True)
      fun parts => ∀ g ∈ parts.flatMap toFactors, g.Normal :=
    Attempt.Meets.mapM_flatMap fun f _ => (hs f).mono fun _ => toFactors_normal
  refine hparts.bind fun parts hflat => ?_
  dsimp only
  split
  · exact (absorb_meets _ _).mono fun g hg => hg ▸ normal_zero
  split
  · exact .pure normal_undefined
  have hreduced : ∀ g ∈ parts.flatMap toFactors, g.Reduced := fun g hg => (hflat g hg).reduced
  have hunits : ∀ g ∈ (splitCoefficient (parts.flatMap toFactors)).2, g.Normal := by
    intro g hg
    have hunit := isUnitFactor_splitCoefficient hreduced g hg
    exact hunit.reduced.normal (by simp [hunit.value?])
  refine (mergeNeighbours_settled hs _ hunits).bind fun merged hm => .pure ?_
  have hmerged : ∀ g ∈ merged, g.Reduced := fun g hg => (hm.normal g hg).reduced
  refine ofFactors_normal ?_ (isUnitFactor_splitCoefficient hmerged) (isChain_splitCoefficient ?_)
  · exact (isReal_splitCoefficient hreduced).mul (isReal_splitCoefficient hmerged)
  · exact ⟨hm.normal, hm.ordered, hm.apart.imp fun f g => Attempt.pure_eq_ok_iff.1⟩

/-! ## Simplification -/

theorem simplifyQuotient_normal (hs : Normalizes simplify) (n d : Fn Exact) :
    (simplifyQuotient simplify n d).Meets (fun _ => True) Normal := by
  refine (hs n).bind fun n' hn => (hs d).bind fun d' hd => ?_
  split
  · exact .pure normal_undefined
  rename_i hu
  rw [Bool.or_eq_true, not_or, Bool.not_eq_true, Bool.not_eq_true] at hu
  split
  · exact hs _
  · rename_i hapart
    refine .pure ?_
    split_ifs with h0
    · exact normal_zero
    · refine Reduced.normal (.quotient hn.reduced hd.reduced hu.1 hu.2 ?_ hapart) (by simp [value?])
      exact hn.value?_ne_zero (by simpa using h0)

theorem simplifyStep_normal (hs : Normalizes simplify) (hf : f.HasFiniteNumbers) :
    (simplifyStep simplify f).Meets (fun _ => True) fun g => g.HasFiniteNumbers → g.Normal := by
  cases f with
  | zero => exact .pure fun _ => normal_zero
  | one => exact .pure fun _ => normal_one
  | const v => exact .pure normal_ofValue
  | undefined => exact .pure fun _ => normal_undefined
  | unary k s inner => exact simplifyStandard_normal hs hf
  | sum ts => exact (simplifySum_normal hs ts).mono fun g hg _ => hg
  | product fs => exact (simplifyProduct_normal hs fs).mono fun g hg _ => hg
  | quotient n d => exact (simplifyQuotient_normal hs n d).mono fun g hg _ => hg
  | piecewise segments =>
    have hparts : (segments.mapM (simplifySegment simplify)).Meets (fun _ => True)
        (List.Forall₂ (fun s t => t.range = s.range ∧ t.payload.Normal) segments) :=
      Attempt.Meets.mapM fun s _ => (hs s.payload).bind fun g hg => .pure ⟨rfl, hg⟩
    refine hparts.bind fun parts hparts => .pure fun _ => ?_
    refine Reduced.normal (.piecewise (fun t ht => ?_) fun t ht => ?_) (by simp [value?])
    · obtain ⟨s, hmem, hrange, -⟩ := exists_mem_of_forall₂ hparts ht
      exact hrange ▸ ((numbers_piecewise segments).1 hf s hmem).1
    · obtain ⟨s, hmem, -, hpayload⟩ := exists_mem_of_forall₂ hparts ht
      exact hpayload.reduced

/-- A constant is simplified to the canonical one with its value. -/
theorem simplifyStep_of_value {v : Exact} (h : f.value? = some v) :
    simplifyStep simplify f = pure (ofValue v) := by
  cases f with
  | zero =>
    obtain rfl := Option.some.inj h
    simp [simplifyStep, ofValue]
  | one =>
    obtain rfl := Option.some.inj h
    rw [simplifyStep, ofValue_one]
  | const w =>
    obtain rfl := Option.some.inj h
    rfl
  | _ => cases h

/-- What simplification among finite numbers gives is normal. -/
theorem simplifyFinite_normalizes (n : Nat) : Normalizes (simplifyFinite n) := by
  induction n with
  | zero => exact fun f => .throw trivial
  | succ n ih =>
    refine fun f => .of_forall_ok fun g hg => ?_
    obtain ⟨hstep, hf, hgfin⟩ := simplifyFinite_succ_eq_ok_iff.1 hg
    exact (simplifyStep_normal ih hf).of_ok hstep hgfin

end FunctionAlgebra.Fn
