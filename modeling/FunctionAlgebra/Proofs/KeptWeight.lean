import FunctionAlgebra.Proofs.CollectedTerms

/-!
# Functions that keep their weight

Simplification makes no function heavier, and no part of it makes up for what another one loses. So
a sum or product weighs as much as before only if all its children do. That is the case if it is
returned as it was.

## Main statements

* `Fn.totalWeight_le_of_ofTerms`, `Fn.totalWeight_le_of_ofFactors` — a sum or product that weighs as
  much as before is made of functions that do.
* `Fn.terms_keep_weight`, `Fn.factors_keep_weight` — and no child of it loses weight.
-/

namespace FunctionAlgebra.Fn

variable {α : Type} [Scalar α] [LawfulScalar α] {f g : Fn α} {fs gs ts us : List (Fn α)} {c : α}
  {w : Weights}

/-! ## Nothing is lost -/

omit [LawfulScalar α] in
theorem totalWeight_pos (hne : fs ≠ []) : 1 ≤ totalWeight w fs := by
  obtain ⟨f, hf⟩ := List.exists_mem_of_ne_nil fs hne
  exact (weight_pos f).trans (weight_le_totalWeight hf)

theorem weight_of_countsAs (h : f.CountsAs g) : f.weight w = g.weight w :=
  h.elim (congrArg _) weight_of_beq

omit [LawfulScalar α] in
/-- If nothing is lost in total, nothing is lost from any item. -/
theorem forall₂_of_totalWeight_le {φ : Fn α → List (Fn α)} {R : Fn α → Fn α → Prop}
    (h : List.Forall₂ (fun f g => R f g ∧ totalWeight w (φ g) ≤ f.weight w) fs gs)
    (htotal : totalWeight w fs ≤ totalWeight w (gs.flatMap φ)) :
    List.Forall₂ (fun f g => R f g ∧ f.weight w ≤ totalWeight w (φ g)) fs gs := by
  induction h with
  | nil => exact .nil
  | cons hfg hrest ih =>
    have hle := (totalWeight_flatMap_lt (P := fun _ => False)
      (hrest.imp fun _ _ h => ⟨h.2, False.elim⟩)).1
    simp only [List.flatMap_cons, totalWeight_append, totalWeight_cons] at htotal
    exact .cons ⟨hfg.1, by omega⟩ (ih (by omega))

/-- If parts that are simplified and taken apart lose nothing in total, no part loses anything. -/
theorem exists_parts_of_totalWeight_le {φ : Fn α → List (Fn α)} {parts : List (Fn α)}
    (hφ : ∀ f, totalWeight w (φ f) ≤ f.weight w) (hparts : (fs.mapM simplify).outcome = .ok parts)
    (htotal : totalWeight w fs ≤ totalWeight w (parts.flatMap φ)) :
    ∀ f ∈ fs, ∃ p, f.simplify.outcome = .ok p ∧ f.weight w ≤ totalWeight w (φ p) := by
  have hloses : List.Forall₂ (fun f p => f.simplify.outcome = .ok p ∧
      totalWeight w (φ p) ≤ f.weight w) fs parts :=
    (Attempt.mapM_eq_ok_iff.1 hparts).imp fun f p hp =>
      ⟨hp, (hφ p).trans (((simplify_lightens w).weight_le f).of_ok hp)⟩
  intro f hf
  obtain ⟨p, -, hp⟩ := exists_mem_of_forall₂ (forall₂_of_totalWeight_le hloses htotal).flip hf
  exact ⟨p, hp⟩

/-! ## Sums and products -/

variable [FaithfulScalar α]

/-- What is put together weighs as much as its function did only if the parts do. -/
theorem Assembled.totalWeight_le {wrap : List (Fn α) → Fn α}
    (hg : Assembled wrap (wrap ts) ts us g) (hne : ts ≠ [])
    (hwrap : ∀ ts, (wrap ts).weight w = totalWeight w ts + 1)
    (hle : totalWeight w us ≤ totalWeight w ts) (h : (wrap ts).weight w ≤ g.weight w) :
    totalWeight w ts ≤ totalWeight w us := by
  have hpos := totalWeight_pos (w := w) hne
  rw [hwrap] at h
  cases hg with
  | single hts =>
    rw [hts, totalWeight_cons]
    omega
  | unchanged _ hsame =>
    have hequal := totalWeight_congr (w := w)
      ((countsAs_of_sameChildren hsame).imp fun _ _ => weight_of_countsAs)
    omega
  | wrapped =>
    rw [hwrap] at h
    omega

/-- A sum weighs as much as before only if its terms do. -/
theorem totalWeight_le_of_ofTerms (hne : ts ≠ []) (hle : totalWeight w us ≤ totalWeight w ts)
    (h : (sum ts).weight w ≤ (ofTerms (sum ts) us).weight w) :
    totalWeight w ts ≤ totalWeight w us := by
  have hpos := totalWeight_pos (w := w) hne
  have hfilter := totalWeight_sublist (w := w) (List.filter_sublist (p := (!·.isZero)) (l := us))
  generalize hg : ofTerms (sum ts) us = g at h
  cases fromTerms_of_ofTerms hg with
  | absorbed =>
    rw [weight_sum, weight_undefined] at h
    omega
  | empty =>
    rw [weight_sum, weight_zero] at h
    omega
  | assembled _ hg => exact (hg.totalWeight_le hne weight_sum (hfilter.trans hle) h).trans hfilter

/-- A product weighs as much as before only if its factors do. -/
theorem totalWeight_le_of_ofFactors (hne : fs ≠ []) (hle : totalWeight w us ≤ totalWeight w fs)
    (h : (product fs).weight w ≤ (ofFactors (product fs) c us).weight w) :
    totalWeight w fs ≤ totalWeight w us := by
  have hpos := totalWeight_pos (w := w) hne
  generalize hg : ofFactors (product fs) c us = g at h
  cases fromFactors_of_ofFactors hg with
  | zero =>
    rw [weight_product, weight_zero] at h
    omega
  | absorbed =>
    rw [weight_product, weight_undefined] at h
    omega
  | constant =>
    rw [weight_product, weight_ofValue] at h
    omega
  | assembled _ _ _ hgs hg =>
    have hscale := hgs.totalWeight_le (w := w)
    exact (hg.totalWeight_le hne weight_product (hscale.trans hle) h).trans hscale

/-- Where a sum keeps its weight, no term loses weight when it is simplified and taken apart. -/
theorem terms_keep_weight (h : (sum ts).simplify.outcome = .ok g)
    (hw : (sum ts).weight w ≤ g.weight w) (hne : ts ≠ []) :
    ∀ t ∈ ts, ∃ p, t.simplify.outcome = .ok p ∧
      t.weight w ≤ totalWeight w (p.toTerms.filter (!·.isZero)) := by
  have hs := simplify_lightens (α := α) w
  have hfilter (f : Fn α) : totalWeight w (f.toTerms.filter (!·.isZero)) ≤ f.weight w :=
    (totalWeight_sublist List.filter_sublist).trans (totalWeight_toTerms_le f)
  rw [simplify_eq_simplifyStep] at h
  obtain ⟨parts, hparts, h⟩ := Attempt.bind_eq_ok_iff.1 h
  refine exists_parts_of_totalWeight_le hfilter hparts ?_
  have hflat := totalWeight_le_of_forall₂ ((mapM_lightens hs ts).of_ok hparts)
  rw [← List.filter_flatMap]
  dsimp only at h
  split at h
  · obtain rfl := Attempt.pure_eq_ok_iff.1 h
    have hpos := totalWeight_pos (w := w) hne
    rw [weight_sum, weight_undefined] at hw
    omega
  · obtain ⟨merged, hmerged, h⟩ := Attempt.bind_eq_ok_iff.1 h
    obtain rfl := Attempt.pure_eq_ok_iff.1 h
    have hmerge := ((mergeLaw (mergeAdd_lightens hs)).mergeNeighbours trivial).of_ok hmerged
    have hsub := totalWeight_flatMap_le hfilter parts
    rw [← List.filter_flatMap] at hsub
    exact (totalWeight_le_of_ofTerms hne (by omega) hw).trans hmerge

/-- Where a product keeps its weight, all factors do. -/
theorem factors_keep_weight (h : (product fs).simplify.outcome = .ok g)
    (hw : (product fs).weight w ≤ g.weight w) (hne : fs ≠ []) :
    ∀ f ∈ fs, ∃ p, f.simplify.outcome = .ok p ∧ f.weight w ≤ p.weight w := by
  have hs := simplify_lightens (α := α) w
  have hpos := totalWeight_pos (w := w) hne
  rw [simplify_eq_simplifyStep] at h
  obtain ⟨parts, hparts, h⟩ := Attempt.bind_eq_ok_iff.1 h
  have hflat := totalWeight_le_of_forall₂ ((mapM_lightens hs fs).of_ok hparts)
  have hfactors := totalWeight_flatMap_le (w := w) totalWeight_toFactors_le parts
  rw [weight_product] at hw
  suffices htotal : totalWeight w fs ≤ totalWeight w (parts.flatMap toFactors) from
    fun f hf => (exists_parts_of_totalWeight_le totalWeight_toFactors_le hparts htotal f hf).imp
      fun p hp => ⟨hp.1, hp.2.trans (totalWeight_toFactors_le p)⟩
  dsimp only at h
  split at h
  · obtain rfl := (absorb_meets _ _).of_ok h
    rw [weight_zero] at hw
    omega
  split at h
  · obtain rfl := Attempt.pure_eq_ok_iff.1 h
    rw [weight_undefined] at hw
    omega
  · obtain ⟨merged, hmerged, h⟩ := Attempt.bind_eq_ok_iff.1 h
    obtain rfl := Attempt.pure_eq_ok_iff.1 h
    have hunits := totalWeight_splitCoefficient_le (w := w) (parts.flatMap toFactors)
    have hmerge := ((mergeLaw (mergeMultiply_lightens hs)).mergeNeighbours trivial).of_ok hmerged
    have hsplit := totalWeight_splitCoefficient_le (w := w) merged
    rw [← weight_product] at hw
    have hkept := totalWeight_le_of_ofFactors hne (by omega) hw
    omega

end FunctionAlgebra.Fn
