import FunctionAlgebra.Proofs.Neighbours
import FunctionAlgebra.Proofs.Weight

/-!
# Simplification makes no function heavier

No part of simplification makes functions heavier, whatever a simplified function is taken for: its
parts are no heavier than before, flattening and dropping factors takes weight away, and a merge
gives back at most what it took.

## Main definitions

* `Fn.Lightens` — the results of a way to simplify are no heavier.

## Main statements

* `Fn.mergeLaw` — merges of neighbours make no list heavier.
* `Fn.simplifyWithin_lightens` — simplified functions are no heavier.
-/

namespace FunctionAlgebra.Fn

variable {α : Type} [Scalar α] {w : Weights}

/-- Results of simplification are no heavier. An exponent one is taken away. -/
def Lightens (w : Weights) (simplify : Fn α → Attempt α (Fn α)) : Prop :=
  ∀ f, (simplify f).Meets (fun _ => True) fun g => g.weight w ≤ f.netWeight w

variable {simplify : Fn α → Attempt α (Fn α)}

theorem Lightens.weight_le (hs : Lightens w simplify) (f : Fn α) :
    (simplify f).Meets (fun _ => True) fun g => g.weight w ≤ f.weight w :=
  (hs f).mono fun _ h => h.trans (netWeight_le f)

/-- Merges of two items that add no weight make no list heavier. -/
theorem mergeLaw {merge : Fn α → Fn α → Attempt α (Option (Fn α))}
    (hm : ∀ f g : Fn α, (merge f g).Meets (fun _ => True) fun merged =>
      ∀ h ∈ merged, h.weight w ≤ f.weight w + g.weight w) :
    MergeLaw (fun _ => True) (fun _ => True)
      (fun fs gs => totalWeight w gs ≤ totalWeight w fs) sort merge where
  refl _ := Nat.le_refl _
  trans h h' := h'.trans h
  cons f fs gs h := by
    simp only [totalWeight_cons]
    omega
  sort fs := (totalWeight_perm (sortStable_perm less fs)).le
  keeps _ _ := trivial
  tail _ := trivial
  merge {f g rest} _ := by
    refine (hm f g).mono fun merged h m hmem => ?_
    have := h m hmem
    simp only [totalWeight_cons]
    omega

theorem mapM_lightens (hs : Lightens w simplify) (fs : List (Fn α)) :
    (fs.mapM simplify).Meets (fun _ => True)
      (List.Forall₂ (fun f g => g.weight w ≤ f.weight w) fs) :=
  Attempt.Meets.mapM fun f _ => hs.weight_le f

variable [LawfulScalar α]

/-! ## Standard functions -/

theorem simplifyKernel_lightens (hs : Lightens w simplify) (k : Kernel α) (s : α)
    (inner : Option (Fn α)) :
    (simplifyKernel simplify k s inner).Meets (fun _ => True) fun g =>
      g.weight w ≤ (unary k s inner).netWeight w := by
  generalize hx : simplifyKernel simplify k s inner = x
  cases kernelStep_of_simplifyKernel hx with
  | exponentZero | frequencyZero =>
    refine .pure ?_
    rw [weight_ofValue]
    exact netWeight_pos _
  | @exponentOne p f _ h1 =>
    refine (hs.weight_le _).mono fun g hg => hg.trans ((weight_scaleBy_le s f).trans ?_)
    simp [netWeight, h1]
  | infiniteShift => exact .throw trivial
  | power _ h1 =>
    refine .pure ((weight_scaled_le _ s s inner).trans_eq ?_)
    cases inner with
    | none => rfl
    | some f => simp [netWeight, h1 f rfl]
  | sine => exact .pure (weight_scaled_le ..)
  | other hk =>
    rw [netWeight_of_kind hk]
    exact .pure (weight_scaled_le ..)

theorem simplifyStandard_lightens (hs : Lightens w simplify) (k : Kernel α) (s : α)
    (inner : Option (Fn α)) :
    (simplifyStandard simplify k s inner).Meets (fun _ => True) fun g =>
      g.weight w ≤ (unary k s inner).netWeight w := by
  have hpos := netWeight_pos (w := w) (unary k s inner)
  unfold simplifyStandard
  split_ifs with h0
  · exact .pure (by simpa using hpos)
  cases inner with
  | none => exact simplifyKernel_lightens hs k s none
  | some f =>
    refine (hs.weight_le f).bind fun g hg => ?_
    have hmono := netWeight_chain_mono k s hg
    split
    · exact .pure (by simpa using hpos)
    split
    · exact (hs.weight_le _).mono fun h hh => hh.trans (by simpa using hpos)
    · refine (simplifyKernel_lightens hs k s _).mono fun h hh => hh.trans ?_
      split
      · rename_i hid
        exact (netWeight_plain_le k s (weight_of_isIdentity hid).ge).trans hmono
      · exact hmono

/-! ## Merges -/

/-- A merged product is no heavier, also after it is simplified. -/
theorem mergeMultiply_lightens (hs : Lightens w simplify) (f g : Fn α) :
    (mergeSimplified simplify (fun f g => pure (mergeMultiply? f g)) f g).Meets (fun _ => True)
      fun merged => ∀ h ∈ merged, h.weight w ≤ f.weight w + g.weight w := by
  have hmerge : (pure (mergeMultiply? f g) : Attempt α (Option (Fn α))).Meets (fun _ => True)
      fun merged => ∀ m ∈ merged, Multiplied f g m :=
    .pure fun m hm => multiplied_of_mergeMultiply? hm
  exact mergeSimplified_meets hmerge fun m hm => (hs m).mono fun h hh => hh.trans hm.netWeight_le

/-- A merged sum is no heavier, also after it is simplified. -/
theorem mergeAdd_lightens (hs : Lightens w simplify) (f g : Fn α) :
    (mergeSimplified simplify (mergeAddWith simplify) f g).Meets (fun _ => True)
      fun merged => ∀ h ∈ merged, h.weight w ≤ f.weight w + g.weight w := by
  have hmerge : (mergeAddWith simplify f g).Meets (fun _ => True) fun merged => ∀ m ∈ merged,
      m.weight w < f.weight w + g.weight w := by
    refine (mergeAddWith_meets fun n d n' d' _ _ => Attempt.Meets.trivial _).mono
      fun merged h m hm => (h m hm).weight_lt fun n d n' d' top _ _ ht => ?_
    simpa using (hs.weight_le (sum [n, n'])).of_ok ht
  exact mergeSimplified_meets hmerge fun m hm => (hs.weight_le m).mono fun h hh => by omega

/-! ## Sums, products and quotients -/

omit [LawfulScalar α] in
/-- What is put together is no heavier than a function with room for its parts. -/
theorem Assembled.weight_le {wrap : List (Fn α) → Fn α} {f g : Fn α} {parts ts : List (Fn α)}
    (hg : Assembled wrap f parts ts g) (hwrap : (wrap ts).weight w = totalWeight w ts + 1)
    (h : totalWeight w ts + 1 ≤ f.weight w) : g.weight w ≤ f.weight w := by
  cases hg with
  | single hts =>
    rw [hts, totalWeight_cons] at h
    omega
  | unchanged => exact Nat.le_refl _
  | wrapped => exact hwrap ▸ h

omit [LawfulScalar α] in
theorem ofTerms_weight_le {f : Fn α} {ts : List (Fn α)}
    (h : totalWeight w ts + 1 ≤ f.weight w) : (ofTerms f ts).weight w ≤ f.weight w := by
  have hpos := weight_pos (w := w) f
  have hfilter := totalWeight_sublist (w := w) (List.filter_sublist (p := (!·.isZero)) (l := ts))
  generalize hg : ofTerms f ts = g
  cases fromTerms_of_ofTerms hg with
  | absorbed => simpa using hpos
  | empty => simpa using hpos
  | assembled _ hg => exact hg.weight_le (weight_sum _) (by omega)

theorem simplifySum_lightens (hs : Lightens w simplify) (ts : List (Fn α)) :
    (simplifySum simplify ts).Meets (fun _ => True) fun g => g.weight w ≤ (sum ts).weight w := by
  refine (mapM_lightens hs ts).bind fun parts hparts => ?_
  have hflat := (totalWeight_flatMap_le totalWeight_toTerms_le parts).trans
    (totalWeight_le_of_forall₂ hparts)
  dsimp only
  split
  · exact .pure (by simp)
  have hfilter := totalWeight_sublist (w := w) (List.filter_sublist (p := (!·.isZero))
    (l := parts.flatMap toTerms))
  refine ((mergeLaw (mergeAdd_lightens hs)).mergeNeighbours trivial).bind fun merged hm => .pure ?_
  apply ofTerms_weight_le
  rw [weight_sum]
  omega

theorem ofFactors_weight_le {f : Fn α} {c : α} {fs : List (Fn α)}
    (h : totalWeight w fs + 1 ≤ f.weight w) : (ofFactors f c fs).weight w ≤ f.weight w := by
  have hpos := weight_pos (w := w) f
  generalize hg : ofFactors f c fs = g
  cases fromFactors_of_ofFactors hg with
  | zero => simpa using hpos
  | absorbed => simpa using hpos
  | constant => simpa using hpos
  | assembled _ _ _ hgs hg =>
    have hscale := hgs.totalWeight_le (w := w)
    exact hg.weight_le (weight_product _) (by omega)

omit [LawfulScalar α] in
theorem absorb_meets (f : Fn α) (factors : List (Fn α)) :
    (absorb f factors).Meets (fun _ => True) (· = zero) := by
  unfold absorb
  split
  · exact (Attempt.Meets.trivial _).bind fun _ _ => rfl
  · exact .pure rfl

theorem simplifyProduct_lightens (hs : Lightens w simplify) (fs : List (Fn α)) :
    (simplifyProduct simplify fs).Meets (fun _ => True) fun g =>
      g.weight w ≤ (product fs).weight w := by
  refine (mapM_lightens hs fs).bind fun parts hparts => ?_
  have hflat := (totalWeight_flatMap_le totalWeight_toFactors_le parts).trans
    (totalWeight_le_of_forall₂ hparts)
  dsimp only
  split
  · exact (absorb_meets _ _).mono fun g hg => by simp [hg]
  split
  · exact .pure (by simp)
  have hunits := totalWeight_splitCoefficient_le (w := w) (parts.flatMap toFactors)
  refine ((mergeLaw (mergeMultiply_lightens hs)).mergeNeighbours trivial).bind
    fun merged hm => .pure ?_
  have hmerged := totalWeight_splitCoefficient_le (w := w) merged
  apply ofFactors_weight_le
  rw [weight_product]
  omega

theorem simplifyQuotient_lightens (hs : Lightens w simplify) (n d : Fn α) :
    (simplifyQuotient simplify n d).Meets (fun _ => True) fun g =>
      g.weight w ≤ (quotient n d).weight w := by
  refine (hs.weight_le n).bind fun n' hn => (hs.weight_le d).bind fun d' hd => ?_
  rw [weight_quotient]
  split
  · exact .pure (by simp)
  split
  · rename_i h hm
    have := (divided_of_mergeDivide? hm).weight_le (w := w)
    exact (hs.weight_le h).mono fun g hg => by omega
  · refine .pure ?_
    split
    · simp
    · rw [weight_quotient]
      omega

theorem simplifyStep_lightens (hs : Lightens w simplify) : Lightens w (simplifyStep simplify) := by
  intro f
  cases f with
  | zero | one | undefined => exact .pure (Nat.le_refl _)
  | const v => exact .pure (by simp [netWeight])
  | unary k s inner => exact simplifyStandard_lightens hs k s inner
  | sum ts => exact simplifySum_lightens hs ts
  | product fs => exact simplifyProduct_lightens hs fs
  | quotient n d => exact simplifyQuotient_lightens hs n d
  | piecewise segments =>
    have hparts : (segments.mapM (simplifySegment simplify)).Meets (fun _ => True)
        (List.Forall₂ (fun s t => t.payload.weight w ≤ s.payload.weight w) segments) :=
      Attempt.Meets.mapM fun s _ => (hs.weight_le s.payload).bind fun g hg => .pure hg
    refine hparts.bind fun parts hp => .pure ?_
    simp only [netWeight, weight_piecewise, Nat.add_le_add_iff_right]
    refine totalWeight_le_of_forall₂ ?_
    rwa [List.forall₂_map_left_iff, List.forall₂_map_right_iff]

/-- Simplification makes no function heavier. -/
theorem simplifyWithin_lightens (w : Weights) (n : Nat) :
    Lightens w (simplifyWithin n : Fn α → Attempt α (Fn α)) := by
  induction n with
  | zero => exact fun f => .throw trivial
  | succ n ih => exact simplifyStep_lightens ih

theorem simplify_lightens (w : Weights) : Lightens w (Fn.simplify : Fn α → Attempt α (Fn α)) :=
  fun f => simplifyWithin_lightens w _ f

end FunctionAlgebra.Fn
