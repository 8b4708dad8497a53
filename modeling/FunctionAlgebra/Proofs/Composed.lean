import FunctionAlgebra.Proofs.Indistinguishable
import FunctionAlgebra.Proofs.Lightening

/-!
# Sums and products in simplified functions

A simplified sum or product may become part of another one: it is flattened, scaled, taken apart or
left over as the only child. So what is known of the terms and factors that simplification leaves in
a sum or a product is known of all that lie in a simplified function below nothing but sums and
products.

## Main definitions

* `Fn.Composed` — all lists of terms, and all lists of factors, in the sums and products of a
  function have a property.
* `Fn.TermLaw`, `Fn.FactorLaw` — properties that lists of terms and of factors keep when they are
  scaled, or exchanged for equal ones.
* `Fn.HoldsOfSimple` — a property of the simplified functions other than sums and products.
* `Fn.Composes` — the results of a way to simplify are composed so.
* `Fn.SplitsInto` — factors that are merged and split from their coefficients have a property.

## Main statements

* `Fn.simplifyStep_meets` — a property of simple functions carries over to simplified ones.
* `Fn.simplifyStep_composed` — simplification gives functions composed of terms and factors with the
  properties, if it does so for parts and merged functions, and factors that are merged and split
  have theirs.
-/

namespace FunctionAlgebra.Fn

variable {α : Type} [Scalar α] {S P : List (Fn α) → Prop} {f g : Fn α}

/-- All lists of terms have the property `S` and all lists of factors the property `P`: that of
the function, if it is a sum or a product, and those of the terms and factors of which it is
composed. No constant among them is NaN. -/
inductive Composed (S P : List (Fn α) → Prop) : Fn α → Prop where
  | simple {f : Fn α} (hs : f.kind ≠ .sum) (hp : f.kind ≠ .product)
    (hnan : ∀ v, f.value? = some v → Scalar.isNaN v = false) : Composed S P f
  | sum {ts : List (Fn α)} (h : ∀ t ∈ ts, Composed S P t) (hts : S ts) : Composed S P (sum ts)
  | product {fs : List (Fn α)} (h : ∀ f ∈ fs, Composed S P f) (hfs : P fs) :
    Composed S P (product fs)

/-- A property of two or more defined terms that lists of equal terms share, and that all multiples
of the terms have, unless a constant among them is NaN. -/
structure TermLaw (S : List (Fn α) → Prop) : Prop where
  defined : ∀ {ts}, 2 ≤ ts.length → (∀ t ∈ ts, t.isUndefined = false) → S ts
  scaleBy : ∀ {c ts}, (c == 0) = false → Scalar.isNaN c = false →
    (∀ t ∈ ts, ∀ v, t.value? = some v → Scalar.isNaN v = false) → S ts → S (ts.map (scaleBy c))
  congr : ∀ {ts us}, List.Forall₂ CountsAs ts us → S ts → S us

theorem termLaw_true : TermLaw fun _ : List (Fn α) => True where
  defined _ _ := trivial
  scaleBy _ _ _ _ := trivial
  congr _ _ := trivial

/-- A property of lists of factors that does not depend on the coefficient in the first factor, and
that lists of equal factors share. -/
structure FactorLaw (P : List (Fn α) → Prop) : Prop where
  scaleBy : ∀ {c f fs}, (c == 0) = false → P (f :: fs) → P (f.scaleBy c :: fs)
  congr : ∀ {fs gs}, List.Forall₂ CountsAs fs gs → P fs → P gs

/-- A property that canonical constants have, and all functions that are neither constants nor sums
nor products. -/
structure HoldsOfSimple (Q : Fn α → Prop) : Prop where
  zero : Q zero
  one : Q one
  ofValue : ∀ v, Q (ofValue v)
  other : ∀ {f : Fn α}, f.kind ≠ .constant → f.kind ≠ .sum → f.kind ≠ .product → Q f

theorem HoldsOfSimple.unary {Q : Fn α → Prop} (hQ : HoldsOfSimple Q) (k : Kernel α) (s : α)
    (inner : Option (Fn α)) : Q (unary k s inner) := by
  cases k <;> exact hQ.other nofun nofun nofun

theorem HoldsOfSimple.undefined {Q : Fn α → Prop} (hQ : HoldsOfSimple Q) : Q undefined :=
  hQ.other nofun nofun nofun

theorem composed_of_value {v : α} (h : f.value? = some v) (hnan : Scalar.isNaN v = false) :
    f.Composed S P := by
  have hk := kind_of_value? h
  refine .simple (by simp [hk]) (by simp [hk]) fun w hw => ?_
  obtain rfl : v = w := Option.some.inj (h.symm.trans hw)
  exact hnan

theorem Composed.isNaN_value {v : α} (h : f.Composed S P) (hv : f.value? = some v) :
    Scalar.isNaN v = false := by
  cases h with
  | simple _ _ hnan => exact hnan v hv
  | sum | product => cases hv

theorem Composed.terms {ts : List (Fn α)} (h : (Fn.sum ts).Composed S P) :
    (∀ t ∈ ts, t.Composed S P) ∧ S ts := by
  cases h with
  | simple hs => exact (hs rfl).elim
  | sum h hts => exact ⟨h, hts⟩

theorem Composed.factors {fs : List (Fn α)} (h : (Fn.product fs).Composed S P) :
    (∀ f ∈ fs, f.Composed S P) ∧ P fs := by
  cases h with
  | simple _ hp => exact (hp rfl).elim
  | product h hfs => exact ⟨h, hfs⟩

theorem Composed.toTerms (h : f.Composed S P) : ∀ t ∈ f.toTerms, t.Composed S P := by
  cases f with
  | sum ts => exact h.terms.1
  | _ => simpa [Fn.toTerms] using h

theorem Composed.toFactors (h : f.Composed S P) : ∀ g ∈ f.toFactors, g.Composed S P := by
  cases f with
  | product fs => exact h.factors.1
  | _ => simpa [Fn.toFactors] using h

section Lawful

variable [LawfulScalar α]

theorem holdsOfSimple_composed (S P : List (Fn α) → Prop) : HoldsOfSimple (Composed S P) where
  zero := composed_of_value rfl LawfulScalar.isNaN_zero
  one := composed_of_value rfl LawfulScalar.isNaN_one
  ofValue v := by
    unfold ofValue
    split_ifs with h0 h1 hnan
    · exact composed_of_value rfl LawfulScalar.isNaN_zero
    · exact composed_of_value rfl LawfulScalar.isNaN_one
    · exact .simple nofun nofun nofun
    · exact composed_of_value rfl (Bool.eq_false_iff.2 hnan)
  other hc hs hp := .simple hs hp fun _ hv => (hc (kind_of_value? hv)).elim

/-- Functions that count as one child are composed alike. -/
theorem Composed.congr (hS : TermLaw S) (hP : FactorLaw P) (h : f.Composed S P)
    (hfg : f.CountsAs g) : g.Composed S P := by
  rcases hfg with rfl | hfg
  · exact h
  revert h
  refine beq_induct (motive := fun f g => f.Composed S P → g.Composed S P)
    (fun f g v w _ hw hvw _ => composed_of_value hw (Scalar.isNaN_of_beq hvw).2) id
    (fun k k' s s' inner inner' _ _ _ _ => (holdsOfSimple_composed S P).unary k' s' inner')
    (fun ts us hall h => ?_) (fun fs gs hall h => ?_)
    (fun n d n' d' _ _ _ _ _ => .simple nofun nofun nofun)
    (fun ss ts _ _ => .simple nofun nofun nofun) hfg
  · refine .sum (fun u hu => ?_) (hS.congr (hall.imp fun _ _ h => .inr h.1) h.terms.2)
    obtain ⟨t, ht, -, hcomposed⟩ := exists_mem_of_forall₂ hall hu
    exact hcomposed (h.terms.1 t ht)
  · refine .product (fun g hg => ?_) (hP.congr (hall.imp fun _ _ h => .inr h.1) h.factors.2)
    obtain ⟨f, hf, -, hcomposed⟩ := exists_mem_of_forall₂ hall hg
    exact hcomposed (h.factors.1 f hf)

theorem composed_of_forall₂ (hS : TermLaw S) (hP : FactorLaw P) {fs gs : List (Fn α)}
    (h : List.Forall₂ CountsAs fs gs) (hfs : ∀ f ∈ fs, f.Composed S P) :
    ∀ g ∈ gs, g.Composed S P := by
  intro g hg
  obtain ⟨f, hf, hfg⟩ := exists_mem_of_forall₂ h hg
  exact (hfs f hf).congr hS hP hfg

/-- Multiples of a function are composed like it. -/
theorem Composed.scaleBy (hS : TermLaw S) (hP : FactorLaw P) {c : α} (h0 : (c == 0) = false)
    (hnan : Scalar.isNaN c = false) (h : f.Composed S P) : (f.scaleBy c).Composed S P := by
  revert h
  refine scaleBy_induct (motive := fun f g => f.Composed S P → g.Composed S P) c (fun _ => id)
    (fun _ _ => (holdsOfSimple_composed S P).zero)
    (fun _ v _ _ => (holdsOfSimple_composed S P).ofValue _)
    (fun _ k s inner _ => (holdsOfSimple_composed S P).unary ..) (fun ts ih h => ?_)
    (fun f fs ih h => ?_) (fun n d _ _ => .simple nofun nofun nofun)
    (fun segments _ _ => .simple nofun nofun nofun) f
  · obtain ⟨hts, hterms⟩ := h.terms
    exact .sum (List.forall_mem_map.2 fun t ht => ih t ht (hts t ht))
      (hS.scaleBy h0 hnan (fun t ht v => (hts t ht).isNaN_value) hterms)
  · obtain ⟨hfs, hfactors⟩ := h.factors
    rw [List.forall_mem_cons] at hfs
    exact .product (List.forall_mem_cons.2 ⟨ih hfs.1, hfs.2⟩) (hP.scaleBy h0 hfactors)

theorem Composed.unit (h : f.Composed S P) : f.unit.Composed S P := by
  cases h with
  | simple hs hp hnan =>
    refine .simple (by rwa [kind_unit]) (by rwa [kind_unit]) fun w hw => ?_
    obtain ⟨v, hv⟩ := exists_value_of_kind hw (kind_unit f)
    obtain rfl : unitScale v = w := Option.some.inj ((value?_unit hv).symm.trans hw)
    unfold unitScale
    split_ifs
    · exact hnan v hv
    · exact LawfulScalar.isNaN_one
  | sum h hts =>
    rw [unit_of_scale_one rfl]
    exact .sum h hts
  | product h hfs =>
    rw [unit_of_scale_one rfl]
    exact .product h hfs

end Lawful

/-! ## What holds of all simplified functions -/

section Simple

variable {Q : Fn α → Prop} {simplify : Fn α → Attempt α (Fn α)}

theorem simplifyKernel_meets (hQ : HoldsOfSimple Q)
    (hs : ∀ f, (simplify f).Meets (fun _ => True) Q) (k : Kernel α) (s : α)
    (inner : Option (Fn α)) : (simplifyKernel simplify k s inner).Meets (fun _ => True) Q := by
  generalize hx : simplifyKernel simplify k s inner = x
  cases kernelStep_of_simplifyKernel hx with
  | exponentZero | frequencyZero => exact .pure (hQ.ofValue _)
  | exponentOne => exact hs _
  | infiniteShift => exact .throw trivial
  | power | sine | other => exact .pure (hQ.unary ..)

theorem simplifyStandard_meets (hQ : HoldsOfSimple Q)
    (hs : ∀ f, (simplify f).Meets (fun _ => True) Q) (k : Kernel α) (s : α)
    (inner : Option (Fn α)) : (simplifyStandard simplify k s inner).Meets (fun _ => True) Q := by
  unfold simplifyStandard
  split
  · exact .pure hQ.zero
  cases inner with
  | none => exact simplifyKernel_meets hQ hs k s none
  | some f =>
    refine (hs f).bind fun g _ => ?_
    split
    · exact .pure hQ.undefined
    split
    · exact hs _
    · exact simplifyKernel_meets hQ hs k s _

theorem simplifyQuotient_meets (hQ : HoldsOfSimple Q)
    (hs : ∀ f, (simplify f).Meets (fun _ => True) Q) (n d : Fn α) :
    (simplifyQuotient simplify n d).Meets (fun _ => True) Q := by
  refine (hs n).bind fun n' _ => (hs d).bind fun d' _ => ?_
  split
  · exact .pure hQ.undefined
  split
  · exact hs _
  · refine .pure ?_
    split_ifs
    · exact hQ.zero
    · exact hQ.other nofun nofun nofun

/-- A property of simple functions is one of all simplified functions, if it is one of simplified
sums and products. -/
theorem simplifyStep_meets (hQ : HoldsOfSimple Q) (hs : ∀ f, (simplify f).Meets (fun _ => True) Q)
    (hsum : ∀ ts, (simplifySum simplify ts).Meets (fun _ => True) Q)
    (hproduct : ∀ fs, (simplifyProduct simplify fs).Meets (fun _ => True) Q) (f : Fn α) :
    (simplifyStep simplify f).Meets (fun _ => True) Q := by
  cases f with
  | zero => exact .pure hQ.zero
  | one => exact .pure hQ.one
  | undefined => exact .pure hQ.undefined
  | const v => exact .pure (hQ.ofValue v)
  | unary k s inner => exact simplifyStandard_meets hQ hs k s inner
  | sum ts => exact hsum ts
  | product fs => exact hproduct fs
  | quotient n d => exact simplifyQuotient_meets hQ hs n d
  | piecewise segments =>
    exact (Attempt.Meets.trivial _).bind fun _ _ => .pure (hQ.other nofun nofun nofun)

/-- Merged functions are simplified, so what is left has the properties of simplified functions, if
all items had them. -/
theorem mergeSimplified_forall (hs : ∀ f, (simplify f).Meets (fun _ => True) Q)
    (merge : Fn α → Fn α → Attempt α (Option (Fn α))) {fs : List (Fn α)} (hfs : ∀ f ∈ fs, Q f) :
    (mergeNeighbours sort (mergeSimplified simplify merge) fs).Meets (fun _ => True)
      fun gs => ∀ g ∈ gs, Q g := by
  have hmerge (f g : Fn α) : (merge f g).Meets (fun _ => True) fun merged => ∀ m ∈ merged, True :=
    (Attempt.Meets.trivial _).mono fun _ _ _ _ => trivial
  have hlaw := MergeLaw.forall_mem (P := Q) (sortStable_perm less) fun f g _ _ =>
    mergeSimplified_meets (hmerge f g) fun m _ => hs m
  exact (hlaw.mergeNeighbours hfs).mono fun gs h => h hfs

/-- What is left of terms is in order, and no two neighbours in it have a sum. -/
theorem mergeNeighbours_not_addable {ts merged : List (Fn α)}
    (h : (mergeNeighbours sort (mergeSimplified simplify (mergeAddWith simplify)) ts).outcome =
      .ok merged) :
    (∃ l, merged = sort l) ∧ merged.IsChain fun t u => ¬ Addable t u := by
  obtain ⟨hsorted, hchain⟩ :=
    mergeNeighbours_isChain (fun l => (sortStable_perm less l).length_eq) h
  exact ⟨hsorted, hchain.imp fun t u htu =>
    mergeAddWith_eq_none_iff.1 (merge_eq_none_of_mergeSimplified htu)⟩

end Simple

/-! ## Sums and products -/

variable [LawfulScalar α] [FaithfulScalar α]

theorem composed_ofTerms (hS : TermLaw S) (hP : FactorLaw P) {ts us : List (Fn α)}
    (h : ∀ u ∈ us, u.Composed S P) : (ofTerms (sum ts) us).Composed S P := by
  have hfilter : ∀ u ∈ us.filter (!·.isZero), u.Composed S P :=
    fun u hu => h u (List.mem_of_mem_filter hu)
  generalize hg : ofTerms (sum ts) us = g
  cases fromTerms_of_ofTerms hg with
  | absorbed => exact (holdsOfSimple_composed S P).undefined
  | empty => exact (holdsOfSimple_composed S P).zero
  | assembled hdef hg =>
    have hterms (hlen : 2 ≤ (us.filter (!·.isZero)).length) : S (us.filter (!·.isZero)) :=
      hS.defined hlen fun u hu =>
        by simpa using List.any_eq_false.1 hdef u (List.mem_of_mem_filter hu)
    cases hg with
    | single hus => exact hfilter g (by simp [hus])
    | unchanged hlen hsame =>
      have hcounts := countsAs_of_sameChildren hsame
      exact .sum (composed_of_forall₂ hS hP hcounts hfilter) (hS.congr hcounts (hterms hlen))
    | wrapped hlen => exact .sum hfilter (hterms hlen)

omit [LawfulScalar α] [FaithfulScalar α] in
theorem ScaledFirst.factorLaw (hP : FactorLaw P) {us gs : List (Fn α)} {c : α}
    (h : ScaledFirst c us gs) (h0 : (c == 0) = false) (hus : P us) : P gs := by
  cases h with
  | one => exact hus
  | head => exact hP.scaleBy h0 hus

theorem composed_ofFactors (hS : TermLaw S) (hP : FactorLaw P) {fs gs : List (Fn α)} {c : α}
    (h : ∀ g ∈ gs, g.Composed S P) (hgs : P gs) : (ofFactors (product fs) c gs).Composed S P := by
  generalize hg : ofFactors (product fs) c gs = g
  cases fromFactors_of_ofFactors hg with
  | zero => exact (holdsOfSimple_composed S P).zero
  | absorbed => exact (holdsOfSimple_composed S P).undefined
  | constant => exact (holdsOfSimple_composed S P).ofValue c
  | assembled h0 hnan _ hscaled hg =>
    have hall := hscaled.forall_mem h fun u hu => hu.scaleBy hS hP h0 hnan
    have hlaw := hscaled.factorLaw hP h0 hgs
    refine hg.holds hall (fun hsame => ?_) (.product hall hlaw)
    have hcounts := countsAs_of_sameChildren hsame
    exact .product (composed_of_forall₂ hS hP hcounts hall) (hP.congr hcounts hlaw)

/-! ## Simplification -/

def Composes (S P : List (Fn α) → Prop) (simplify : Fn α → Attempt α (Fn α)) : Prop :=
  ∀ f, (simplify f).Meets (fun _ => True) (Composed S P)

/-- Factors of simplified functions satisfy `Q`, and where those that satisfy it are merged and
split from their coefficients, a list with the property `P` is left. -/
structure SplitsInto (P : List (Fn α) → Prop) (Q : Fn α → Prop)
    (simplify : Fn α → Attempt α (Fn α)) : Prop where
  factors : ∀ f, (simplify f).Meets (fun _ => True) fun g => ∀ h ∈ g.toFactors, Q h
  units : ∀ {fs : List (Fn α)}, (∀ f ∈ fs, Q f) →
    (mergeNeighbours sort (mergeSimplified simplify fun f g => pure (mergeMultiply? f g))
      (splitCoefficient fs).2).Meets (fun _ => True) fun merged => P (splitCoefficient merged).2

variable {simplify : Fn α → Attempt α (Fn α)}

theorem simplifySum_composed (hS : TermLaw S) (hP : FactorLaw P)
    (hs : Composes S P simplify) (ts : List (Fn α)) :
    (simplifySum simplify ts).Meets (fun _ => True) (Composed S P) := by
  have hparts : (ts.mapM simplify).Meets (fun _ => True)
      fun parts => ∀ t ∈ parts.flatMap toTerms, t.Composed S P :=
    Attempt.Meets.mapM_flatMap fun f _ => (hs f).mono fun _ => Composed.toTerms
  refine hparts.bind fun parts hflat => ?_
  dsimp only
  split
  · exact .pure (holdsOfSimple_composed S P).undefined
  refine (mergeSimplified_forall hs _ fun t ht => hflat t (List.mem_of_mem_filter ht)).bind
    fun merged hm => .pure (composed_ofTerms hS hP hm)

/-- What is known of merged factors without their coefficients is known of the product. -/
theorem simplifyProduct_composed {Q : Fn α → Prop} (hS : TermLaw S) (hP : FactorLaw P)
    (hs : Composes S P simplify) (hQ : SplitsInto P Q simplify) (fs : List (Fn α)) :
    (simplifyProduct simplify fs).Meets (fun _ => True) (Composed S P) := by
  have hsplit {fs : List (Fn α)} (hfs : ∀ f ∈ fs, f.Composed S P) :
      ∀ f ∈ (splitCoefficient fs).2, f.Composed S P := by
    rw [splitCoefficient, splitCoefficientFrom_snd, List.forall_mem_map]
    exact fun f hf => (hfs f (List.mem_of_mem_filter hf)).unit
  have hparts : (fs.mapM simplify).Meets (fun _ => True)
      fun parts => ∀ g ∈ parts.flatMap toFactors, g.Composed S P ∧ Q g :=
    Attempt.Meets.mapM_flatMap fun f _ => ((hQ.factors f).and_of_ok (hs f)).mono
      fun _ hp g hg => ⟨hp.1.toFactors g hg, hp.2 g hg⟩
  refine hparts.bind fun parts hflat => ?_
  dsimp only
  split
  · exact (absorb_meets _ _).mono fun g hg => hg ▸ (holdsOfSimple_composed S P).zero
  split
  · exact .pure (holdsOfSimple_composed S P).undefined
  have hunits := mergeSimplified_forall hs (fun g h => pure (mergeMultiply? g h))
    (hsplit fun g hg => (hflat g hg).1)
  refine ((hQ.units fun g hg => (hflat g hg).2).and_of_ok hunits).bind fun merged hm => ?_
  exact .pure (composed_ofFactors hS hP (hsplit hm.1) hm.2)

/-- Simplified functions are composed of products whose factors have a property, if merged factors
without their coefficients have it. -/
theorem simplifyStep_composed {Q : Fn α → Prop} (hS : TermLaw S) (hP : FactorLaw P)
    (hs : Composes S P simplify) (hQ : SplitsInto P Q simplify) (f : Fn α) :
    (simplifyStep simplify f).Meets (fun _ => True) (Composed S P) :=
  simplifyStep_meets (holdsOfSimple_composed S P) hs (simplifySum_composed hS hP hs)
    (simplifyProduct_composed hS hP hs hQ) f

end FunctionAlgebra.Fn
