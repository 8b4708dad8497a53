import FunctionAlgebra.Proofs.LikeTerms
import FunctionAlgebra.Proofs.Shuffled

/-!
# Ordered functions are simplified

The terms of a sum are sorted before they are merged, and factors before their coefficient is put
back into the first one. So a simplified function need not be in order, and this is all that
simplification may still change about it: a reduced function that is in order stays as it is.

## Main definitions

* `Fn.Ordered` — sums and products are flat and in order.
* `Fn.Fixes` — a way to simplify leaves reduced functions in order as they are.

## Main statements

* `Fn.simplifySum_of_apart`, `Fn.simplifyProduct_of_apart` — terms and factors that do not merge
  are only sorted.
* `Fn.simplifyFinite_fixes` — reduced functions in order are left as they are.
* `Fn.Reduced.staysFinite` — they can be simplified among finite numbers.
-/

namespace FunctionAlgebra.Fn

open Exact (real)

/-- No term of a sum is a sum and no factor of a product a product, the terms of every sum ascend,
and so do the factors of every product if their scales are left aside. -/
inductive Ordered {α : Type} [Scalar α] : Fn α → Prop where
  | value {f v} (hv : f.value? = some v) : Ordered f
  | undefined : Ordered undefined
  | plain {k s} : Ordered (unary k s none)
  | chain {k s f} (hf : Ordered f) : Ordered (unary k s (some f))
  | sum {ts : List (Fn α)} (ht : ∀ t ∈ ts, Ordered t) (hflat : ∀ t ∈ ts, t.kind ≠ .sum)
    (hsort : ts.Pairwise fun f g => g.less f = false) : Ordered (sum ts)
  | product {fs : List (Fn α)} (hf : ∀ f ∈ fs, Ordered f) (hflat : ∀ f ∈ fs, f.kind ≠ .product)
    (hsort : (fs.map unit).Pairwise fun f g => g.less f = false) : Ordered (product fs)
  | quotient {n d} (hn : Ordered n) (hd : Ordered d) : Ordered (quotient n d)
  | piecewise {segments : List (Segment α (Fn α))} (hs : ∀ s ∈ segments, Ordered s.payload) :
    Ordered (piecewise segments)

theorem ordered_sum_iff {α : Type} [Scalar α] {ts : List (Fn α)} : (sum ts).Ordered ↔
    (∀ t ∈ ts, t.Ordered) ∧ (∀ t ∈ ts, t.kind ≠ .sum) ∧
      ts.Pairwise fun f g => g.less f = false := by
  constructor
  · intro h
    cases h with
    | value hv => cases hv
    | sum ht hflat hsort => exact ⟨ht, hflat, hsort⟩
  · rintro ⟨ht, hflat, hsort⟩
    exact .sum ht hflat hsort

theorem ordered_product_iff {α : Type} [Scalar α] {fs : List (Fn α)} : (product fs).Ordered ↔
    (∀ f ∈ fs, f.Ordered) ∧ (∀ f ∈ fs, f.kind ≠ .product) ∧
      (fs.map unit).Pairwise fun f g => g.less f = false := by
  constructor
  · intro h
    cases h with
    | value hv => cases hv
    | product hf hflat hsort => exact ⟨hf, hflat, hsort⟩
  · rintro ⟨hf, hflat, hsort⟩
    exact .product hf hflat hsort

variable {f g : Fn Exact} {n : Nat} {simplify : Fn Exact → Attempt Exact (Fn Exact)}

/-- It does not matter which constants are canonical. -/
theorem Ordered.congr (h : f.Ordered) (hnan : f.HasNoNaN) (hfg : f.forget = g.forget) :
    g.Ordered := by
  have hsorted {fs gs : List (Fn Exact)} (hfs : ∀ f ∈ fs, f.HasNoNaN)
      (hsort : fs.Pairwise fun f g => g.less f = false) (hfg : fs.map forget = gs.map forget) :
      gs.Pairwise fun f g => g.less f = false :=
    (ascending_of_forget ⟨hfs, hsort⟩ hfg).pairwise
  induction h generalizing g with
  | value hv => exact .value (value?_congr hfg ▸ hv)
  | undefined => exact eq_undefined_of_forget hfg ▸ .undefined
  | plain =>
    obtain ⟨inner, rfl, hi⟩ := exists_unary_of_forget hfg
    obtain rfl : inner = none := by simpa using hi.symm
    exact .plain
  | chain hf ih =>
    obtain ⟨inner, rfl, hi⟩ := exists_unary_of_forget hfg
    obtain ⟨f', rfl, hf'⟩ := Option.map_eq_some_iff.1 hi.symm
    exact .chain (ih (((numbers_unary ..).1 hnan).2.2 _ rfl) hf'.symm)
  | sum ht hflat hsort ih =>
    obtain ⟨us, rfl, hus⟩ := exists_sum_of_forget hfg
    have hmem {u : Fn Exact} (hu : u ∈ us) := exists_mem_of_forall₂ (map_forget_eq_iff.1 hus) hu
    refine .sum (fun u hu => ?_) (fun u hu => ?_) (hsorted hnan.terms hsort hus)
    · obtain ⟨t, ht, htu⟩ := hmem hu
      exact ih t ht (hnan.terms t ht) htu
    · obtain ⟨t, ht, htu⟩ := hmem hu
      exact kind_congr htu ▸ hflat t ht
  | product hf hflat hsort ih =>
    obtain ⟨gs, rfl, hgs⟩ := exists_product_of_forget hfg
    have hmem {g : Fn Exact} (hg : g ∈ gs) := exists_mem_of_forall₂ (map_forget_eq_iff.1 hgs) hg
    refine .product (fun g hg => ?_) (fun g hg => ?_) (hsorted ?_ hsort ?_)
    · obtain ⟨f, hf, hfg⟩ := hmem hg
      exact ih f hf (hnan.factors f hf) hfg
    · obtain ⟨f, hf, hfg⟩ := hmem hg
      exact kind_congr hfg ▸ hflat f hf
    · exact List.forall_mem_map.2 fun f hf => (hnan.factors f hf).unit
    · have hall := (map_forget_eq_iff.1 hgs).imp fun _ _ => forget_unit_congr
      rw [map_forget_eq_iff, List.forall₂_map_left_iff, List.forall₂_map_right_iff]
      exact hall
  | quotient hn hd ihn ihd =>
    obtain ⟨n, d, rfl, hn', hd'⟩ := exists_quotient_of_forget hfg
    exact .quotient (ihn hnan.parts.1 hn') (ihd hnan.parts.2 hd')
  | piecewise hs ih =>
    obtain ⟨ts, rfl, hts⟩ := exists_piecewise_of_forget hfg
    refine .piecewise fun t ht => ?_
    obtain ⟨s, hs, hst⟩ := exists_mem_of_forall₂ hts ht
    exact ih s hs (hnan.segments s hs).2 hst.2

/-- Reduced functions in order are left as they are, if they cost no more than `n`. -/
def Fixes (n : Nat) (simplify : Fn Exact → Attempt Exact (Fn Exact)) : Prop :=
  ∀ f, f.weight .cost ≤ n → f.Reduced → f.Ordered →
    (simplify f).Meets (fun _ => False) fun g => g.EqForget f

/-! ## Standard functions -/

/-- A standard function that varies keeps its kernel. -/
theorem simplifyKernel_of_varies {k : Kernel Exact} {s : Exact} {inner : Option (Fn Exact)}
    (hs : s ≠ 0) (hk : k.Varies) (h1 : inner ≠ none → k ≠ .power 1) :
    simplifyKernel simplify k s inner = pure (unary k s inner) := by
  have hscaled : scaled k s inner = unary k s inner := by
    rw [scaled, Kernel.atScale_of_ne_zero hs]
  generalize hx : simplifyKernel simplify k s inner = x
  cases kernelStep_of_simplifyKernel hx with
  | exponentZero h0 => exact (hk (Exact.beq_zero_iff.1 h0)).elim
  | exponentOne _ hone => exact (h1 (by simp) (by rw [Exact.beq_one_iff.1 hone])).elim
  | infiniteShift h0 => exact (hk (Exact.beq_zero_iff.1 h0)).elim
  | frequencyZero h0 => exact (hk (Exact.beq_zero_iff.1 h0)).elim
  | power | sine | other => rw [hscaled]

/-! ## Sorted lists -/

theorem flatMap_toTerms {fs : List (Fn Exact)} (h : ∀ f ∈ fs, f.kind ≠ .sum) :
    fs.flatMap toTerms = fs := by
  induction fs with
  | nil => rfl
  | cons f fs ih =>
    rw [List.forall_mem_cons] at h
    have hf : f.toTerms = [f] := by
      cases f <;> first | rfl | exact (h.1 rfl).elim
    rw [List.flatMap_cons, hf, ih h.2, List.singleton_append]

theorem flatMap_toFactors {fs : List (Fn Exact)} (h : ∀ f ∈ fs, f.kind ≠ .product) :
    fs.flatMap toFactors = fs := by
  induction fs with
  | nil => rfl
  | cons f fs ih =>
    rw [List.forall_mem_cons] at h
    have hf : f.toFactors = [f] := by
      cases f <;> first | rfl | exact (h.1 rfl).elim
    rw [List.flatMap_cons, hf, ih h.2, List.singleton_append]

/-- A list that is the same as one in order stays the same when it is sorted. -/
theorem map_forget_sort {fs gs : List (Fn Exact)} (hgs : Ascending less HasNoNaN gs)
    (h : fs.map forget = gs.map forget) : (sort fs).map forget = gs.map forget := by
  have hfs := ascending_of_forget hgs h.symm
  rw [← h]
  exact forget_eq_of_ascending (sortStable_ascending orders_hasNoNaN hfs.all) hfs
    (sortStable_perm less fs)

/-- Merging only sorts a list without mergeable neighbours. -/
theorem mergeNeighbours_of_apart
    {merge : Fn Exact → Fn Exact → Attempt Exact (Option (Fn Exact))} {fs : List (Fn Exact)}
    (hapart : (sort fs).IsChain fun f g => (merge f g).outcome = .ok none) :
    (mergeNeighbours sort (mergeSimplified simplify merge) fs).outcome = .ok (sort fs) := by
  refine mergeNeighbours_of_isChain (hapart.imp fun f g hfg => ?_)
  exact Attempt.bind_eq_ok_iff.2 ⟨none, hfg, rfl⟩

/-! ## Sums -/

theorem ofTerms_of_two_le {ts : List (Fn Exact)} (hlen : 2 ≤ ts.length)
    (hu : ∀ t ∈ ts, t.isUndefined = false) (h0 : ∀ t ∈ ts, t.value? ≠ some 0) (f : Fn Exact) :
    ofTerms f ts = if sameChildren ts f.toTerms = true then f else sum ts := by
  have hany : ¬ ts.any isUndefined = true := by simpa using hu
  rw [ofTerms, if_neg hany, filter_isZero h0]
  split
  · simp at hlen
  · simp at hlen
  · rfl

/-- A function that is fixed by simplification, and of which nothing is dropped from a sum or a
product. -/
structure IsPart (f : Fn Exact) : Prop where
  reduced : f.Reduced
  ordered : f.Ordered
  isUndefined : f.isUndefined = false
  value? : f.value? ≠ some 0

theorem mapM_fixes (hs : Fixes n simplify) {fs : List (Fn Exact)} (hn : totalWeight .cost fs ≤ n)
    (hf : ∀ f ∈ fs, f.Reduced ∧ f.Ordered) :
    (fs.mapM simplify).Meets (fun _ => False) fun ps => ps.map forget = fs.map forget := by
  have hparts : (fs.mapM simplify).Meets (fun _ => False)
      (List.Forall₂ (fun f p => f.forget = p.forget) fs) :=
    Attempt.Meets.mapM fun f hmem => (hs f ((weight_le_totalWeight hmem).trans hn) (hf f hmem).1
      (hf f hmem).2).mono fun _ h => h.symm
  exact hparts.mono fun ps h => (map_forget_eq_iff.2 h).symm

/-- Terms that are apart after sorting are only sorted. -/
theorem simplifySum_of_apart (hs : Fixes n simplify) {ts : List (Fn Exact)}
    (hn : totalWeight .cost ts ≤ n) (hlen : 2 ≤ ts.length) (ht : ∀ t ∈ ts, t.IsPart)
    (hflat : ∀ t ∈ ts, t.kind ≠ .sum) (hapart : (sort ts).IsChain fun f g => ¬ Addable f g) :
    (simplifySum simplify ts).Meets (fun _ => False) fun g => g.EqForget (sum (sort ts)) := by
  have hmapped := mapM_fixes hs hn fun t hmem => ⟨(ht t hmem).reduced, (ht t hmem).ordered⟩
  refine hmapped.bind fun parts hsame => ?_
  have hshuffled : Shuffled ts parts := .of_map_eq hsame.symm
  have hu : ∀ p ∈ parts, p.isUndefined = false :=
    hshuffled.forall_mem (fun _ _ h hu => isUndefined_congr h ▸ hu)
      fun t hmem => (ht t hmem).isUndefined
  have h0 : ∀ p ∈ parts, p.value? ≠ some 0 :=
    hshuffled.forall_mem (fun _ _ h h0 => value?_congr h ▸ h0) fun t hmem => (ht t hmem).value?
  have hkind : ∀ p ∈ parts, p.kind ≠ .sum :=
    hshuffled.forall_mem (fun _ _ h hk => kind_congr h ▸ hk) hflat
  have hany : ¬ parts.any isUndefined = true := by simpa using hu
  dsimp only
  rw [flatMap_toTerms hkind, if_neg hany, filter_isZero h0]
  have hsorted := hshuffled.sort fun t hmem => (ht t hmem).reduced.hasNoNaN
  have hchain : (sort parts).IsChain fun f g => (mergeAddWith simplify f g).outcome = .ok none :=
    (isChain_not_addable_congr hsorted hapart).imp fun f g => mergeAddWith_eq_none_iff.2
  refine (Attempt.Meets.of_eq_ok (mergeNeighbours_of_apart hchain)).bind fun merged hm => .pure ?_
  have hmem {p : Fn Exact} (hp : p ∈ sort parts) : p ∈ parts :=
    (sortStable_perm less parts).mem_iff.1 hp
  have hlength : (sort parts).length = ts.length :=
    (sortStable_perm less parts).length_eq.trans hshuffled.length_eq.symm
  rw [hm, ofTerms_of_two_le (hlength ▸ hlen) (fun p hp => hu p (hmem hp))
    fun p hp => h0 p (hmem hp), EqForget, forget_ite_sum, forget_sum, forget_sum, hsorted]

theorem simplifySum_fixes (hs : Fixes n simplify) {ts : List (Fn Exact)}
    (hn : totalWeight .cost ts ≤ n) (h : (sum ts).Reduced) (ho : (sum ts).Ordered) :
    (simplifySum simplify ts).Meets (fun _ => False) fun g => g.EqForget (sum ts) := by
  obtain ⟨hlen, ht, hu, h0, hapart⟩ := reduced_sum_iff.1 h
  obtain ⟨hto, hflat, hsort⟩ := ordered_sum_iff.1 ho
  have hsorted : (sort ts).map forget = ts.map forget :=
    map_forget_sort ⟨fun t hmem => (ht t hmem).hasNoNaN, hsort⟩ rfl
  have hpart : ∀ t ∈ ts, t.IsPart :=
    fun t hmem => ⟨ht t hmem, hto t hmem, hu t hmem, h0 t hmem⟩
  refine (simplifySum_of_apart hs hn hlen hpart hflat
    (isChain_not_addable_congr hsorted.symm hapart)).mono fun g hg => ?_
  rw [EqForget, hg, forget_sum, forget_sum, hsorted]

/-! ## Products -/

theorem foldl_coefficientStep {fs : List (Fn Exact)} (hv : ∀ f ∈ fs, f.value? = none)
    (h1 : ∀ f ∈ fs, f.scale = 1) (c : Exact) : fs.foldl coefficientStep c = c := by
  induction fs with
  | nil => rfl
  | cons f fs ih =>
    rw [List.forall_mem_cons] at hv h1
    have hstep : coefficientStep c f = c := by simp [coefficientStep, hv.1, h1.1]
    rw [List.foldl_cons, hstep, ih hv.2 h1.2]

theorem splitCoefficient_snd {fs : List (Fn Exact)} (hv : ∀ f ∈ fs, f.value? = none) :
    (splitCoefficient fs).2 = fs.map unit := by
  rw [splitCoefficient, splitCoefficientFrom_snd, List.filter_eq_self.2]
  exact fun f hf => by simp [hv f hf]

/-- Only the first of some factors has a coefficient. -/
theorem splitCoefficient_cons {f : Fn Exact} {fs : List (Fn Exact)} {s : ℝ}
    (hv : ∀ g ∈ f :: fs, g.value? = none) (hs : f.scale = real s) (h1 : ∀ g ∈ fs, g.scale = 1) :
    splitCoefficient (f :: fs) = (real s, (f :: fs).map unit) := by
  refine Prod.ext ?_ (splitCoefficient_snd hv)
  rw [List.forall_mem_cons] at hv
  have hstep : coefficientStep 1 f = real s := by
    simp only [coefficientStep, hv.1, hs]
    split_ifs with hone
    · exact (Exact.beq_one_iff.1 hone).symm
    · rw [Exact.one_eq, Exact.real_mul, one_mul]
  rw [splitCoefficient, splitCoefficientFrom_fst, List.foldl_cons, hstep,
    foldl_coefficientStep hv.2 h1]

/-- None of some factors has a coefficient. -/
theorem splitCoefficient_of_units {fs : List (Fn Exact)} (hv : ∀ f ∈ fs, f.value? = none)
    (h1 : ∀ f ∈ fs, f.scale = 1) : splitCoefficient fs = (1, fs) := by
  refine Prod.ext ?_ ?_
  · rw [splitCoefficient, splitCoefficientFrom_fst, foldl_coefficientStep hv h1]
  · rw [splitCoefficient_snd hv]
    conv_rhs => rw [← List.map_id fs]
    exact List.map_congr_left fun f hf => unit_of_scale_one (h1 f hf)

theorem ofFactors_of_two_le {f : Fn Exact} {fs : List (Fn Exact)} {r : ℝ} (hr : r ≠ 0)
    (hne : fs ≠ []) (hu : ∀ g ∈ f :: fs, g.isUndefined = false) (h : Fn Exact) :
    ofFactors h (real r) (f :: fs) =
      if sameChildren (f.scaleBy (real r) :: fs) h.toFactors = true then h
      else product (f.scaleBy (real r) :: fs) := by
  have hany : ¬ (Scalar.isNaN (real r) || (f :: fs).any isUndefined) = true := by
    simpa using hu
  rw [ofFactors, ite_scaleFirst, if_neg (by simpa using hr), if_neg hany, if_neg (by simp),
    scaleFirst]
  split
  · rename_i g heq
    exact (hne (List.cons.inj heq).2).elim
  · rfl

/-- Factors that are apart after sorting are only sorted, and get the coefficient back. -/
theorem simplifyProduct_of_apart (hs : Fixes n simplify) {fs : List (Fn Exact)}
    (hn : totalWeight .cost fs ≤ n) (hf : ∀ f ∈ fs, f.IsPart)
    (hflat : ∀ f ∈ fs, f.kind ≠ .product)
    (hapart : (sort (splitCoefficient fs).2).IsChain fun f g => mergeMultiply? f g = none) :
    (simplifyProduct simplify fs).Meets (fun _ => False) fun g =>
      g.EqForget
        (ofFactors (product fs) (splitCoefficient fs).1 (sort (splitCoefficient fs).2)) := by
  have hmapped := mapM_fixes hs hn fun f hmem => ⟨(hf f hmem).reduced, (hf f hmem).ordered⟩
  refine hmapped.bind fun parts hsame => ?_
  have hshuffled : Shuffled fs parts := .of_map_eq hsame.symm
  have hreduced : ∀ p ∈ parts, p.Reduced :=
    hshuffled.forall_mem (fun _ _ h hr => hr.congr h) fun f hmem => (hf f hmem).reduced
  have hu : ∀ p ∈ parts, p.isUndefined = false :=
    hshuffled.forall_mem (fun _ _ h hu => isUndefined_congr h ▸ hu)
      fun f hmem => (hf f hmem).isUndefined
  have h0 : ∀ p ∈ parts, p.value? ≠ some 0 :=
    hshuffled.forall_mem (fun _ _ h h0 => value?_congr h ▸ h0) fun f hmem => (hf f hmem).value?
  have hkind : ∀ p ∈ parts, p.kind ≠ .product :=
    hshuffled.forall_mem (fun _ _ h hk => kind_congr h ▸ hk) hflat
  have hzero : ¬ parts.any (fun p => p.value?.any (· == 0)) = true := by
    simp only [List.any_eq_true, not_exists, not_and]
    intro p hp hp0
    cases hv : p.value? with
    | none => simp [hv] at hp0
    | some v => exact h0 p hp (by simpa [hv] using hp0)
  have hany : ¬ parts.any isUndefined = true := by simpa using hu
  dsimp only
  rw [flatMap_toFactors hkind, if_neg hzero, if_neg hany]
  obtain ⟨hc, hsplit⟩ := hshuffled.splitCoefficient fun f hmem => (hf f hmem).reduced
  have hunits := isUnitFactor_splitCoefficient hreduced
  have hsorted := Shuffled.sort (List.Perm.symm hsplit) fun u hu => (hunits u hu).reduced.hasNoNaN
  have hchain : (sort (splitCoefficient parts).2).IsChain fun f g => mergeMultiply? f g = none :=
    isChain_mergeMultiply?_congr
      ((map_forget_eq_iff.1 hsorted.symm).imp fun _ _ => rescaled_of_forget) hapart
  refine (Attempt.Meets.of_eq_ok (mergeNeighbours_of_apart (hchain.imp fun f g hfg => by
    rw [hfg, Attempt.outcome_pure]))).bind fun merged hm => .pure ?_
  have hsortedunits : ∀ u ∈ sort (splitCoefficient parts).2, u.IsUnitFactor :=
    fun u hu => hunits u ((sortStable_perm less _).mem_iff.1 hu)
  rw [hm, splitCoefficient_of_units (fun u hu => (hsortedunits u hu).value?)
    fun u hu => (hsortedunits u hu).scale, ← hc,
    splitCoefficient_fst fun f hmem => (hf f hmem).reduced]
  dsimp only
  rw [Exact.one_eq, Exact.real_mul, mul_one]
  exact ofFactors_congr hsorted

theorem simplifyProduct_fixes (hs : Fixes n simplify) {fs : List (Fn Exact)}
    (hn : totalWeight .cost fs ≤ n) (h : (product fs).Reduced) (ho : (product fs).Ordered) :
    (simplifyProduct simplify fs).Meets (fun _ => False) fun g => g.EqForget (product fs) := by
  cases fs with
  | nil => exact (not_reduced_product_nil h).elim
  | cons f rest =>
  obtain ⟨hne, hf, hu, hv, hone, hapart⟩ := reduced_product_iff.1 h
  obtain ⟨hfo, hflat, hsort⟩ := ordered_product_iff.1 ho
  obtain ⟨s, hs', hs0⟩ := (hf f List.mem_cons_self).exists_scale (by simp [hv f])
  have hsplit := splitCoefficient_cons hv hs' hone
  -- the unit copies of the factors are in order already
  have hascending : Ascending less HasNoNaN ((f :: rest).map unit) := by
    refine ⟨?_, hsort⟩
    rw [List.forall_mem_map]
    exact fun g hg => ((hf g hg).unit (by simp [hv g hg])).hasNoNaN
  have hsorted := map_forget_sort hascending rfl
  have hchain : (sort ((f :: rest).map unit)).IsChain fun g h => mergeMultiply? g h = none := by
    have hrescaled : List.Forall₂ Rescaled (f :: rest) ((f :: rest).map unit) :=
      List.forall₂_map_right_iff.2 (List.forall₂_same.2 fun g _ => rescaled_unit g)
    refine isChain_mergeMultiply?_congr ?_ (isChain_mergeMultiply?_congr hrescaled hapart)
    exact (map_forget_eq_iff.1 hsorted.symm).imp fun _ _ => rescaled_of_forget
  have hpart : ∀ g ∈ f :: rest, g.IsPart :=
    fun g hg => ⟨hf g hg, hfo g hg, hu g hg, by simp [hv g hg]⟩
  have hproduct := simplifyProduct_of_apart hs hn hpart hflat (by rwa [hsplit])
  rw [hsplit] at hproduct
  refine hproduct.mono fun g hg => ?_
  have hunits : ∀ g ∈ (f :: rest).map unit, g.isUndefined = false := by
    rw [List.forall_mem_map]
    exact fun g hg => (rescaled_unit g).isUndefined ▸ hu g hg
  have hhead : (f.unit.scaleBy (real s)).EqForget f :=
    (hf f List.mem_cons_self).forget_scaleBy_unit hs' hs0
  have htail : rest.map unit = rest := by
    conv_rhs => rw [← List.map_id rest]
    exact List.map_congr_left fun g hg => unit_of_scale_one (hone g hg)
  have hfactors : (ofFactors (product (f :: rest)) (real s) (sort ((f :: rest).map unit))).EqForget
      (ofFactors (product (f :: rest)) (real s) ((f :: rest).map unit)) := ofFactors_congr hsorted
  rw [EqForget, hg, hfactors, List.map_cons,
    ofFactors_of_two_le hs0 (by simpa using hne) hunits, forget_ite_product, forget_product,
    forget_product, List.map_cons, List.map_cons, hhead, htail]

/-! ## Simplification -/

theorem simplifyStandard_fixes (hs : Fixes n simplify) {k : Kernel Exact} {s : Exact}
    {inner : Option (Fn Exact)} (hn : (unary k s inner).weight .cost ≤ n + 1)
    (h : (unary k s inner).Reduced) (ho : (unary k s inner).Ordered) :
    (simplifyStandard simplify k s inner).Meets (fun _ => False) fun g =>
      g.EqForget (unary k s inner) := by
  cases h with
  | value hv => cases hv
  | @plain _ s hs0 hp hk =>
    have hs0 : ¬ (real s == 0) = true := by simpa using hs0
    rw [simplifyStandard, if_neg hs0]
    rw [simplifyKernel_of_varies (mt Exact.beq_zero_iff.2 hs0) hk (by simp)]
    exact .pure rfl
  | @chain _ s f hs0 hp hk h1 hf hu hv hid =>
    have hfo : f.Ordered := by
      cases ho with
      | value hv => cases hv
      | chain hfo => exact hfo
    have hs0 : ¬ (real s == 0) = true := by simpa using hs0
    rw [weight_chain, Weights.chain_cost] at hn
    rw [simplifyStandard, if_neg hs0]
    refine (hs f (by omega) hf hfo).bind fun g hg => ?_
    rw [if_neg (by rw [isUndefined_congr hg, hu]; simp), value?_congr hg, hv, isIdentity_congr hg,
      hid]
    dsimp only
    rw [if_neg (by simp), simplifyKernel_of_varies (mt Exact.beq_zero_iff.2 hs0) hk fun _ => h1]
    exact .pure (by simp [EqForget, hg])

theorem simplifyStep_fixes (hs : Fixes n simplify) : Fixes (n + 1) (simplifyStep simplify) := by
  intro f hn h ho
  cases f with
  | zero | one | undefined => exact .pure rfl
  | const v =>
    refine .pure (forget_ofValue ?_ |>.trans (forget_const v).symm)
    exact Exact.isNaN_eq_false_iff.1 ((numbers_const v).1 h.hasNoNaN)
  | unary k s inner => exact simplifyStandard_fixes hs hn h ho
  | sum ts => exact simplifySum_fixes hs (by simpa using hn) h ho
  | product fs => exact simplifyProduct_fixes hs (by simpa using hn) h ho
  | quotient n d =>
    obtain ⟨hn', hd', hnu, hdu, h0, hapart⟩ := reduced_quotient_iff.1 h
    obtain ⟨hno, hdo⟩ : n.Ordered ∧ d.Ordered := by
      cases ho with
      | value hv => cases hv
      | quotient hno hdo => exact ⟨hno, hdo⟩
    rw [weight_quotient] at hn
    refine (hs n (by omega) hn' hno).bind fun m hm => (hs d (by omega) hd' hdo).bind fun e he => ?_
    have hapart : mergeDivide? m e = none :=
      (rescaled_of_forget hm.symm).mergeDivide?_eq_none (rescaled_of_forget he.symm) hapart
    have hundefined : (m.isUndefined || e.isUndefined) = false := by
      rw [isUndefined_congr hm, isUndefined_congr he, hnu, hdu, Bool.or_false]
    have hzero : m.isZero = false := isZero_eq_false (value?_congr hm ▸ h0)
    simp only [hundefined, hapart, hzero, Bool.false_eq_true, if_false]
    exact .pure (by rw [EqForget, forget_quotient, forget_quotient, hm, he])
  | piecewise segments =>
    have hpayload : ∀ s ∈ segments, s.payload.Reduced := by
      cases h with
      | value hv => cases hv
      | piecewise hr hp => exact hp
    have hordered : ∀ s ∈ segments, s.payload.Ordered := by
      cases ho with
      | value hv => cases hv
      | piecewise hp => exact hp
    rw [weight_piecewise] at hn
    have hparts : (segments.mapM (simplifySegment simplify)).Meets (fun _ => False)
        (List.Forall₂ (fun s t => s.map forget = t.map forget) segments) := by
      refine Attempt.Meets.mapM fun s hmem => ?_
      have hc := weight_le_totalWeight (w := .cost) (List.mem_map_of_mem (f := (·.payload)) hmem)
      refine (hs s.payload (by omega) (hpayload s hmem) (hordered s hmem)).bind fun g hg => .pure ?_
      rw [Segment.map, Segment.map, hg]
    refine hparts.bind fun parts hparts => .pure ?_
    have hmap : segments.map (·.map forget) = parts.map (·.map forget) := by
      rwa [← List.forall₂_eq_eq_eq, List.forall₂_map_left_iff, List.forall₂_map_right_iff]
    rw [EqForget, forget_piecewise, forget_piecewise, hmap]

/-- Simplification among finite numbers leaves reduced functions in order as they are. -/
theorem simplifyFinite_fixes (n : Nat) : Fixes n (simplifyFinite n) := by
  induction n with
  | zero =>
    intro f hn
    have := weight_pos (w := .cost) f
    omega
  | succ n ih =>
    intro f hn h ho
    obtain ⟨g, hg, hgf⟩ := (simplifyStep_fixes ih f hn h ho).exists_ok
    have hfin := hasFiniteNumbers_of_eqForget hgf.symm h.hasFiniteNumbers
    have hresult := simplifyFinite_succ_eq_ok_iff.2 ⟨hg, h.hasFiniteNumbers, hfin⟩
    exact (Attempt.Meets.of_eq_ok hresult).mono fun x hx => hx ▸ hgf

theorem compare_of_rank_lt (h : f.kind.rank < g.kind.rank) : f.compare g = .lt := by
  rw [Fn.compare, compareWith_kind, Nat.compare_eq_lt.2 h]
  rfl

/-- Reduced functions in order have simplified forms, which are equal to them. -/
theorem Reduced.exists_simplifyFinite (h : f.Reduced) (ho : f.Ordered) :
    ∃ n g, (simplifyFinite n f).outcome = .ok g ∧ g.EqForget f :=
  ⟨_, (simplifyFinite_fixes _ f (Nat.le_refl _) h ho).exists_ok⟩

theorem Reduced.staysFinite (h : f.Reduced) (ho : f.Ordered) : f.StaysFinite := by
  obtain ⟨n, g, hg, -⟩ := h.exists_simplifyFinite ho
  exact ⟨n, g, hg⟩

end FunctionAlgebra.Fn
