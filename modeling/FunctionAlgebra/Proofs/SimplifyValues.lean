import FunctionAlgebra.Proofs.MergeValues
import FunctionAlgebra.Proofs.Neighbours
import FunctionAlgebra.Proofs.SimplifyCases
import FunctionAlgebra.Proofs.SineShifts

/-!
# Values of simplified functions

Where a function is defined, its simplified form is defined too and has the same value.

## Main definitions

* `Fn.Sound` — a way to simplify keeps values at a point.

## Main statements

* `Fn.simplifyStep_sound` — simplification is sound if that of parts and merged functions is.
* `Fn.simplify_gives` — simplification is sound.
* `Fn.merge_preserves_evaluation` — so are merges of any two functions.
-/

namespace FunctionAlgebra

open Exact (real)

noncomputable section

namespace Fn

variable {x : ℝ}

def Sound (x : ℝ) (simplify : Fn Exact → Attempt Exact (Fn Exact)) : Prop :=
  ∀ f, f.DefinedAt x → (simplify f).Meets (fun _ => True) fun g => g.Gives x (f.value x)

variable {simplify : Fn Exact → Attempt Exact (Fn Exact)}

/-! ## Standard functions -/

theorem value_of_isIdentity {f : Fn Exact} (h : f.isIdentity = true) : f.value x = x := by
  unfold isIdentity at h
  split at h
  · rw [Bool.and_eq_true, Exact.beq_one_iff, Exact.beq_one_iff] at h
    obtain ⟨rfl, rfl⟩ := h
    exact identity_gives.value_eq
  · cases h

theorem simplifyKernel_sound (hs : Sound x simplify) {k : Kernel Exact} {s : Exact}
    {inner : Option (Fn Exact)} (h0 : s ≠ 0) (h : (unary k s inner).DefinedAt x) :
    (simplifyKernel simplify k s inner).Meets (fun _ => True) fun g =>
      g.Gives x ((unary k s inner).value x) := by
  have hsr := h.unary_isReal
  obtain ⟨hi, hk⟩ := h.of_scale_ne_zero h0
  have hscaled : (pure (scaled k s inner) : Attempt Exact (Fn Exact)).Meets (fun _ => True)
      fun g => g.Gives x ((unary k s inner).value x) := .pure (scaled_gives h.gives)
  rw [value_unary] at hscaled ⊢
  generalize hy : simplifyKernel simplify k s inner = y
  cases kernelStep_of_simplifyKernel hy with
  | @exponentZero p _ hp =>
    have hp : p = 0 := by simpa using hp
    have := ofValue_gives (x := x) s.toReal
    rw [← hsr.eq_real] at this
    exact .pure (by simpa [hp, Kernel.value] using this)
  | @exponentOne p f _ hp =>
    have hp : p = 1 := by simpa using hp
    have hf := scaleBy_gives s.toReal (hi f rfl)
    rw [← hsr.eq_real] at hf
    have := hs _ hf.defined
    rw [hf.value_eq] at this
    simpa [hp, Kernel.value, innerValue] using this
  | infiniteShift => exact .throw trivial
  | @frequencyZero omega shift _ ho =>
    have ho : omega = 0 := by simpa using ho
    have hsin : s * Scalar.sin shift = real (s.toReal * Real.sin shift.toReal) := by
      rw [hsr.eq_real, hk.2.eq_real]
      rfl
    have := ofValue_gives (x := x) (s.toReal * Real.sin shift.toReal)
    rw [hsin]
    exact .pure (by simpa [ho, Kernel.value] using this)
  | power | sine | other => exact hscaled

theorem simplifyStandard_sound (hs : Sound x simplify) {k : Kernel Exact} {s : Exact}
    {inner : Option (Fn Exact)} (h : (unary k s inner).DefinedAt x) :
    (simplifyStandard simplify k s inner).Meets (fun _ => True) fun g =>
      g.Gives x ((unary k s inner).value x) := by
  unfold simplifyStandard
  split_ifs with h0
  · have : s = 0 := by simpa using h0
    exact .pure ⟨by simp, by simp [this, value_unary]⟩
  have h0 : s ≠ 0 := by simpa using h0
  have hsr := h.unary_isReal
  cases inner with
  | none => exact simplifyKernel_sound hs h0 h
  | some f =>
    obtain ⟨hf, hk⟩ := h.of_scale_ne_zero h0
    refine (hs f (hf f rfl)).bind fun g hg => ?_
    have hval : innerValue x (some f) = g.value x := hg.value_eq.symm
    rw [value_unary, hval]
    rw [hval] at hk
    split
    · rename_i hu
      rw [hg.defined.isUndefined] at hu
      cases hu
    split
    · rename_i v hv
      rw [hg.defined.value_of_value? hv, Kernel.apply_eq_value hk hsr]
      have hc := const_gives (x := x) (s.toReal * k.value (g.value x))
      rw [← hc.value_eq]
      exact hs _ hc.defined
    · have hinner : innerValue x (if g.isIdentity then none else some g) = g.value x ∧
          InnerDefinedAt x (if g.isIdentity then none else some g) := by
        split_ifs with hid
        · exact ⟨(value_of_isIdentity hid).symm, by simp [InnerDefinedAt]⟩
        · exact ⟨rfl, by simpa [InnerDefinedAt] using hg.defined⟩
      rw [← hinner.1, ← value_unary]
      refine simplifyKernel_sound hs h0 ((definedAt_unary ..).2 (.inr ⟨hsr, hinner.2, ?_⟩))
      rwa [hinner.1]

/-! ## Sums and products -/

/-- The total of some values combines them by an operation, in any order. -/
structure Combines (op : ℝ → ℝ → ℝ) (total : List ℝ → ℝ) : Prop where
  nil : ∀ as, op (total []) (total as) = total as
  cons : ∀ a as, total (a :: as) = op a (total as)
  assoc : ∀ a b c, op (op a b) c = op a (op b c)
  perm : ∀ {as bs : List ℝ}, as.Perm bs → total as = total bs

theorem combines_sum : Combines (· + ·) List.sum where
  nil as := zero_add as.sum
  cons _ _ := List.sum_cons
  assoc := add_assoc
  perm h := h.sum_eq

theorem combines_prod : Combines (· * ·) List.prod where
  nil as := one_mul as.prod
  cons _ _ := List.prod_cons
  assoc := mul_assoc
  perm h := h.prod_eq

section Combines

variable {op : ℝ → ℝ → ℝ} {total : List ℝ → ℝ}

theorem Combines.append (hc : Combines op total) (as bs : List ℝ) :
    total (as ++ bs) = op (total as) (total bs) := by
  induction as with
  | nil => exact (hc.nil bs).symm
  | cons a as ih => rw [List.cons_append, hc.cons, hc.cons, ih, hc.assoc]

/-- Merging keeps the total of a list if it combines the values of what it merges. -/
theorem Combines.mergeLaw (hc : Combines op total)
    {merge : Fn Exact → Fn Exact → Attempt Exact (Option (Fn Exact))}
    (hm : ∀ f g : Fn Exact, f.DefinedAt x → g.DefinedAt x →
      (merge f g).Meets (fun _ => True) fun merged =>
        ∀ h ∈ merged, h.Gives x (op (f.value x) (g.value x))) :
    MergeLaw (fun _ => True) (fun fs => ∀ f ∈ fs, f.DefinedAt x)
      (fun fs gs => (∀ f ∈ fs, f.DefinedAt x) →
        (∀ g ∈ gs, g.DefinedAt x) ∧ total (gs.map (value x)) = total (fs.map (value x)))
      sort merge where
  refl fs hd := ⟨hd, rfl⟩
  trans h g hd := ⟨(g (h hd).1).1, (g (h hd).1).2.trans (h hd).2⟩
  cons f fs gs h hd := by
    rw [List.forall_mem_cons] at hd ⊢
    refine ⟨⟨hd.1, (h hd.2).1⟩, ?_⟩
    rw [List.map_cons, List.map_cons, hc.cons, hc.cons, (h hd.2).2]
  sort fs hd :=
    have hp : (sort fs).Perm fs := sortStable_perm less fs
    ⟨fun g hg => hd g (hp.mem_iff.1 hg), hc.perm (hp.map _)⟩
  keeps h hd := (h hd).1
  tail hd := (List.forall_mem_cons.1 hd).2
  merge {f g rest} hd := by
    rw [List.forall_mem_cons, List.forall_mem_cons] at hd
    refine (hm f g hd.1 hd.2.1).mono fun merged h m hmem _ => ?_
    have hgives := h m hmem
    rw [List.forall_mem_cons]
    refine ⟨⟨hgives.defined, hd.2.2⟩, ?_⟩
    simp only [List.map_cons, hc.cons, hgives.value_eq, hc.assoc]

/-- Parts that stand for functions can be replaced by lists with their values as totals. -/
theorem Combines.flatMap (hc : Combines op total) {split : Fn Exact → List (Fn Exact)}
    (hsplit : ∀ {f : Fn Exact}, f.DefinedAt x →
      (∀ g ∈ split f, g.DefinedAt x) ∧ total ((split f).map (value x)) = f.value x)
    {fs parts : List (Fn Exact)} (h : List.Forall₂ (fun f p => p.Gives x (f.value x)) fs parts) :
    (∀ g ∈ parts.flatMap split, g.DefinedAt x) ∧
      total ((parts.flatMap split).map (value x)) = total (fs.map (value x)) := by
  induction h with
  | nil => simp
  | cons hfp _ ih =>
    obtain ⟨hd, hv⟩ := hsplit hfp.defined
    refine ⟨fun g hg => ?_, ?_⟩
    · rw [List.flatMap_cons] at hg
      exact (List.mem_append.1 hg).elim (hd g) (ih.1 g)
    · rw [List.flatMap_cons, List.map_append, hc.append, hv, ih.2, hfp.value_eq, List.map_cons,
        hc.cons]

end Combines

/-! ## Sums -/

def SumRefines (x : ℝ) (fs gs : List (Fn Exact)) : Prop :=
  (∀ f ∈ fs, f.DefinedAt x) →
    (∀ g ∈ gs, g.DefinedAt x) ∧ (gs.map (value x)).sum = (fs.map (value x)).sum

theorem sumLaw {merge : Fn Exact → Fn Exact → Attempt Exact (Option (Fn Exact))}
    (hm : ∀ f g : Fn Exact, f.DefinedAt x → g.DefinedAt x →
      (merge f g).Meets (fun _ => True) fun merged =>
        ∀ h ∈ merged, h.Gives x (f.value x + g.value x)) :
    MergeLaw (fun _ => True) (fun fs => ∀ f ∈ fs, f.DefinedAt x) (SumRefines x) sort merge :=
  combines_sum.mergeLaw hm

theorem toTerms_gives {f : Fn Exact} (h : f.DefinedAt x) :
    (∀ t ∈ f.toTerms, t.DefinedAt x) ∧ (f.toTerms.map (value x)).sum = f.value x := by
  cases f with
  | sum ts => exact ⟨(definedAt_sum ts).1 h, (value_sum ts).symm⟩
  | undefined => exact (not_definedAt_undefined h).elim
  | _ => simp_all [toTerms]

theorem flatMap_toTerms_gives {ts parts : List (Fn Exact)}
    (h : List.Forall₂ (fun t p => p.Gives x (t.value x)) ts parts) :
    (∀ t ∈ parts.flatMap toTerms, t.DefinedAt x) ∧
      ((parts.flatMap toTerms).map (value x)).sum = (ts.map (value x)).sum :=
  combines_sum.flatMap toTerms_gives h

theorem any_isUndefined {fs : List (Fn Exact)} (h : ∀ f ∈ fs, f.DefinedAt x) :
    fs.any isUndefined = false :=
  List.any_eq_false.2 fun f hf => by simp [(h f hf).isUndefined]

theorem sum_filter_isZero (fs : List (Fn Exact)) :
    ((fs.filter (!·.isZero)).map (value x)).sum = (fs.map (value x)).sum := by
  induction fs with
  | nil => rfl
  | cons f fs ih =>
    cases hz : f.isZero with
    | true =>
      have h0 : f.value x = 0 := by rw [eq_zero_of_isZero hz, value_zero]
      simp [hz, ih, h0]
    | false => simp [hz, ih]

theorem ofTerms_gives {f : Fn Exact} {ts : List (Fn Exact)} (hf : f.DefinedAt x)
    (hts : ∀ t ∈ ts, t.DefinedAt x) (h : (ts.map (value x)).sum = f.value x) :
    (ofTerms f ts).Gives x (f.value x) := by
  have hfilter : ∀ t ∈ ts.filter (!·.isZero), t.DefinedAt x :=
    fun t ht => hts t (List.mem_of_mem_filter ht)
  rw [← sum_filter_isZero] at h
  generalize hg : ofTerms f ts = g
  cases fromTerms_of_ofTerms hg with
  | absorbed hu => simp [any_isUndefined hts] at hu
  | empty _ hts' =>
    rw [hts'] at h
    exact ⟨by simp, by simpa using h⟩
  | assembled _ hg =>
    cases hg with
    | single hts' =>
      rw [hts'] at h hfilter
      exact ⟨hfilter g (by simp), by simpa using h⟩
    | unchanged => exact hf.gives
    | wrapped => exact ⟨(definedAt_sum _).2 hfilter, by simpa using h⟩

/-- The sum of two functions as one function has the sum of their values. -/
theorem mergeAddWith_sound (hs : Sound x simplify) {f g : Fn Exact} (hf : f.DefinedAt x)
    (hg : g.DefinedAt x) :
    (mergeAddWith simplify f g).Meets (fun _ => True) fun merged =>
      ∀ h ∈ merged, h.Gives x (f.value x + g.value x) := by
  have hadd : (mergeAddWith simplify f g).Meets (fun _ => True) fun merged =>
      ∀ m ∈ merged, Added simplify f g m :=
    mergeAddWith_meets fun n d n' d' _ _ => Attempt.Meets.trivial _
  refine hadd.mono fun merged hm h hh => ?_
  refine (hm h hh).gives hf hg fun n n' top hn hn' ht => ?_
  have hsum : (sum [n, n']).DefinedAt x := by simpa using ⟨hn, hn'⟩
  simpa using (hs _ hsum).of_ok ht

theorem mergeAdd_sound (hs : Sound x simplify) {f g : Fn Exact} (hf : f.DefinedAt x)
    (hg : g.DefinedAt x) :
    (mergeSimplified simplify (mergeAddWith simplify) f g).Meets (fun _ => True) fun merged =>
      ∀ h ∈ merged, h.Gives x (f.value x + g.value x) := by
  refine mergeSimplified_meets (mergeAddWith_sound hs hf hg) fun m hm => ?_
  rw [← hm.value_eq]
  exact hs m hm.defined

theorem simplifySum_sound (hs : Sound x simplify) {ts : List (Fn Exact)}
    (h : (sum ts).DefinedAt x) :
    (simplifySum simplify ts).Meets (fun _ => True) fun g => g.Gives x ((sum ts).value x) := by
  have hts := (definedAt_sum ts).1 h
  refine (Attempt.Meets.mapM fun t ht => hs t (hts t ht)).bind fun parts hp => ?_
  obtain ⟨hflat, hsum⟩ := flatMap_toTerms_gives hp
  dsimp only
  rw [any_isUndefined hflat]
  simp only [Bool.false_eq_true, if_false]
  have hlaw := sumLaw fun f g hf hg => mergeAdd_sound hs hf hg
  have hfilter : ∀ t ∈ (parts.flatMap toTerms).filter (!·.isZero), t.DefinedAt x :=
    fun t ht => hflat t (List.mem_of_mem_filter ht)
  refine (hlaw.mergeNeighbours hfilter).bind fun merged hm => .pure ?_
  obtain ⟨hd, hv⟩ := hm hfilter
  refine ofTerms_gives h hd ?_
  rw [hv, sum_filter_isZero, hsum, value_sum]

/-! ## Products -/

def ProductRefines (x : ℝ) (fs gs : List (Fn Exact)) : Prop :=
  (∀ f ∈ fs, f.DefinedAt x) →
    (∀ g ∈ gs, g.DefinedAt x) ∧ (gs.map (value x)).prod = (fs.map (value x)).prod

theorem productLaw {merge : Fn Exact → Fn Exact → Attempt Exact (Option (Fn Exact))}
    (hm : ∀ f g : Fn Exact, f.DefinedAt x → g.DefinedAt x →
      (merge f g).Meets (fun _ => True) fun merged =>
        ∀ h ∈ merged, h.Gives x (f.value x * g.value x)) :
    MergeLaw (fun _ => True) (fun fs => ∀ f ∈ fs, f.DefinedAt x) (ProductRefines x) sort merge :=
  combines_prod.mergeLaw hm

theorem toFactors_gives {f : Fn Exact} (h : f.DefinedAt x) :
    (∀ g ∈ f.toFactors, g.DefinedAt x) ∧ (f.toFactors.map (value x)).prod = f.value x := by
  cases f with
  | product fs => exact ⟨((definedAt_product fs).1 h).2, (value_product fs).symm⟩
  | undefined => exact (not_definedAt_undefined h).elim
  | _ => simp_all [toFactors]

theorem flatMap_toFactors_gives {fs parts : List (Fn Exact)}
    (h : List.Forall₂ (fun f p => p.Gives x (f.value x)) fs parts) :
    (∀ f ∈ parts.flatMap toFactors, f.DefinedAt x) ∧
      ((parts.flatMap toFactors).map (value x)).prod = (fs.map (value x)).prod :=
  combines_prod.flatMap toFactors_gives h

/-- What splitting off a coefficient does to a product. -/
theorem splitCoefficientFrom_gives (c : ℝ) {fs : List (Fn Exact)} (h : ∀ f ∈ fs, f.DefinedAt x) :
    ∃ c' : ℝ, (splitCoefficientFrom (real c) fs).1 = real c' ∧
      (∀ f ∈ (splitCoefficientFrom (real c) fs).2, f.DefinedAt x) ∧
      c' * ((splitCoefficientFrom (real c) fs).2.map (value x)).prod =
        c * (fs.map (value x)).prod := by
  induction fs generalizing c with
  | nil => exact ⟨c, rfl, by simp [splitCoefficientFrom], by simp [splitCoefficientFrom]⟩
  | cons f fs ih =>
    rw [List.forall_mem_cons] at h
    obtain ⟨hf, hfs⟩ := h
    simp only [splitCoefficientFrom_fst, splitCoefficientFrom_snd] at ih ⊢
    rw [List.foldl_cons, coefficientStep, List.map_cons, List.prod_cons, ← mul_assoc]
    cases hv : f.value? with
    | some v =>
      rw [List.filter_cons_of_neg (by simp [hv]), hf.value_of_value? hv]
      exact ih _ hfs
    | none =>
      have hstep : (if f.scale == 1 then real c else real c * f.scale) =
          real (c * f.scale.toReal) := by
        split_ifs with h1
        · rw [Exact.beq_one_iff.1 h1]
          simp
        · rw [hf.isReal_scale.eq_real]
          rfl
      obtain ⟨c', hc', hd, hp⟩ := ih (c * f.scale.toReal) hfs
      obtain ⟨hu, hval⟩ := hf.unit
      rw [List.filter_cons_of_pos (by simp [hv]), hstep]
      refine ⟨c', hc', ?_, ?_⟩
      · rw [List.map_cons, List.forall_mem_cons]
        exact ⟨hu, hd⟩
      · rw [List.map_cons, List.map_cons, List.prod_cons, mul_left_comm, hp, hval]
        ring

theorem ScaledFirst.prod_value {c : ℝ} {fs gs : List (Fn Exact)}
    (h : ScaledFirst (real c) fs gs) (hfs : ∀ f ∈ fs, f.DefinedAt x) :
    (∀ g ∈ gs, g.DefinedAt x) ∧ (gs.map (value x)).prod = c * (fs.map (value x)).prod := by
  cases h with
  | one h1 =>
    have h1 : c = 1 := by simpa using h1
    exact ⟨hfs, by simp [h1]⟩
  | head =>
    rw [List.forall_mem_cons] at hfs
    have hscale := scaleBy_gives c hfs.1
    exact ⟨List.forall_mem_cons.2 ⟨hscale.defined, hfs.2⟩, by simp [hscale.value_eq, mul_assoc]⟩

theorem ofFactors_gives {f : Fn Exact} {fs : List (Fn Exact)} {c : ℝ} (hf : f.DefinedAt x)
    (hfs : ∀ g ∈ fs, g.DefinedAt x) (h : c * (fs.map (value x)).prod = f.value x) :
    (ofFactors f (real c) fs).Gives x (f.value x) := by
  generalize hg : ofFactors f (real c) fs = g
  cases fromFactors_of_ofFactors hg with
  | zero h0 =>
    have h0 : c = 0 := by simpa using h0
    exact ⟨by simp, by simp [← h, h0]⟩
  | absorbed hu => simp [any_isUndefined hfs] at hu
  | constant _ hnil =>
    rw [← h, hnil]
    simpa using ofValue_gives (x := x) c
  | assembled _ _ _ hgs hg =>
    obtain ⟨hdef, hprod⟩ := hgs.prod_value hfs
    rw [← hprod] at h
    cases hg with
    | single hts =>
      rw [hts] at h hdef
      exact ⟨hdef g (by simp), by simpa using h⟩
    | unchanged => exact hf.gives
    | wrapped hlen =>
      have hne := List.length_pos_iff.1 (Nat.zero_lt_of_lt hlen)
      exact ⟨(definedAt_product _).2 ⟨hne, hdef⟩, by simpa using h⟩

theorem mergeMultiply_sound (hs : Sound x simplify) {f g : Fn Exact} (hf : f.DefinedAt x)
    (hg : g.DefinedAt x) :
    (mergeSimplified simplify (fun f g => pure (mergeMultiply? f g)) f g).Meets (fun _ => True)
      fun merged => ∀ h ∈ merged, h.Gives x (f.value x * g.value x) := by
  have hmerge : (pure (mergeMultiply? f g) : Attempt Exact (Option (Fn Exact))).Meets
      (fun _ => True) fun merged => ∀ m ∈ merged, Multiplied f g m :=
    .pure fun m hm => multiplied_of_mergeMultiply? hm
  refine mergeSimplified_meets hmerge fun m hm => ?_
  have hgives := hm.gives hf hg
  rw [← hgives.value_eq]
  exact hs m hgives.defined

theorem simplifyProduct_sound (hs : Sound x simplify) {fs : List (Fn Exact)}
    (h : (product fs).DefinedAt x) :
    (simplifyProduct simplify fs).Meets (fun _ => True) fun g =>
      g.Gives x ((product fs).value x) := by
  obtain ⟨-, hfs⟩ := (definedAt_product fs).1 h
  refine (Attempt.Meets.mapM fun f hf => hs f (hfs f hf)).bind fun parts hp => ?_
  obtain ⟨hflat, hprod⟩ := flatMap_toFactors_gives hp
  dsimp only
  split
  · rename_i hzero
    obtain ⟨f, hf, hv⟩ := List.any_eq_true.1 hzero
    obtain ⟨v, hv, h0⟩ := (Option.any_eq_true _ _).1 hv
    have hf0 : f.value x = 0 := by
      have := (hflat f hf).value_of_value? hv
      simpa [this] using h0
    have hval : (product fs).value x = 0 := by
      rw [value_product, ← hprod]
      exact List.prod_eq_zero (List.mem_map.2 ⟨f, hf, hf0⟩)
    have hzero : (zero : Fn Exact).Gives x 0 := ⟨by simp, rfl⟩
    rw [absorb, hval]
    split
    · exact (Attempt.Meets.trivial _).bind fun _ _ => hzero
    · exact .pure hzero
  rw [any_isUndefined hflat]
  simp only [Bool.false_eq_true, if_false]
  obtain ⟨c, hc, hunits, hcp⟩ := splitCoefficientFrom_gives 1 hflat
  have hlaw := productLaw fun f g hf hg => mergeMultiply_sound hs hf hg
  refine (hlaw.mergeNeighbours hunits).bind fun merged hm => .pure ?_
  obtain ⟨hd, hv⟩ := hm hunits
  obtain ⟨c', hc', hunits', hcp'⟩ := splitCoefficientFrom_gives 1 hd
  have hcc : (splitCoefficient (parts.flatMap toFactors)).1 * (splitCoefficient merged).1 =
      real (c * c') := by
    rw [splitCoefficient, splitCoefficient, Exact.one_eq, hc, hc', Exact.real_mul]
  rw [hcc]
  refine ofFactors_gives h hunits' ?_
  rw [mul_assoc, splitCoefficient, Exact.one_eq, hcp', one_mul, hv, hcp, one_mul, hprod,
    value_product]

/-! ## Other functions -/

theorem simplifyQuotient_sound (hs : Sound x simplify) {n d : Fn Exact}
    (h : (quotient n d).DefinedAt x) :
    (simplifyQuotient simplify n d).Meets (fun _ => True) fun g =>
      g.Gives x ((quotient n d).value x) := by
  obtain ⟨hn, hd, h0⟩ := (definedAt_quotient n d).1 h
  rw [value_quotient]
  refine (hs n hn).bind fun n' hn' => (hs d hd).bind fun d' hd' => ?_
  rw [hn'.defined.isUndefined, hd'.defined.isUndefined]
  rw [← hd'.value_eq] at h0
  rw [← hn'.value_eq, ← hd'.value_eq]
  simp only [Bool.or_self, Bool.false_eq_true, if_false]
  split
  · rename_i h hm
    have hgives := (divided_of_mergeDivide? hm).gives hn'.defined hd'.defined h0
    rw [← hgives.value_eq]
    exact hs h hgives.defined
  · refine .pure ?_
    split
    · rename_i hz
      exact ⟨by simp, by simp [eq_zero_of_isZero hz]⟩
    · exact hn'.defined.gives.div hd'.defined.gives h0

/-- A piecewise function whose segments are replaced one by one has the value of the payload that
takes the place of the visited one. -/
theorem piecewise_mapM_gives
    {g : Segment Exact (Fn Exact) → Attempt Exact (Segment Exact (Fn Exact))}
    {segments : List (Segment Exact (Fn Exact))} {i : Nat} {s : Segment Exact (Fn Exact)} {r : ℝ}
    (hi : visited? segments (real x) = some i) (hs : segments[i]? = some s)
    (hrange : ∀ s ∈ segments, (g s).Meets (fun _ => True) fun t => t.range = s.range)
    (hg : (g s).Meets (fun _ => True) fun t => t.payload.Gives x r) :
    (segments.mapM g).Meets (fun _ => True) fun parts => (piecewise parts).Gives x r := by
  refine (Attempt.Meets.mapM fun t ht => (hrange t ht).outcome).mono fun parts hp => ?_
  have hranges : parts.map (·.range) = segments.map (·.range) := by
    rw [← List.forall₂_eq_eq_eq, List.forall₂_map_left_iff, List.forall₂_map_right_iff]
    exact hp.flip.imp fun _ _ h => h.1
  have hlen := hp.length_eq
  obtain ⟨hlt, rfl⟩ := List.getElem?_eq_some_iff.1 hs
  have hget := hp.get (i := i) hlt (by omega)
  exact piecewise_gives ((visited?_congr hranges _).trans hi)
    (List.getElem?_eq_getElem (by omega)) (hg.of_ok hget.2)

theorem simplifyPiecewise_sound (hs : Sound x simplify)
    {segments : List (Segment Exact (Fn Exact))} (h : (piecewise segments).DefinedAt x) :
    (segments.mapM (simplifySegment simplify)).Meets (fun _ => True) fun parts =>
      (piecewise parts).Gives x ((piecewise segments).value x) := by
  obtain ⟨i, s, hi, hseg, hd⟩ := (definedAt_piecewise segments).1 h
  rw [value_piecewise hi hseg]
  refine piecewise_mapM_gives hi hseg (fun t _ => ?_) ?_
  · exact (Attempt.Meets.trivial _).bind fun g _ => .pure rfl
  · exact (hs _ hd).bind fun g hg => .pure hg

theorem simplifyStep_sound (hs : Sound x simplify) : Sound x (simplifyStep simplify) := by
  intro f h
  cases f with
  | zero => exact .pure h.gives
  | one => exact .pure h.gives
  | const v =>
    have hv := (definedAt_const v).1 h
    have := ofValue_gives (x := x) v.toReal
    rw [← hv.eq_real] at this
    exact .pure this
  | undefined => exact (not_definedAt_undefined h).elim
  | unary k s inner => exact simplifyStandard_sound hs h
  | sum ts => exact simplifySum_sound hs h
  | product fs => exact simplifyProduct_sound hs h
  | quotient n d => exact simplifyQuotient_sound hs h
  | piecewise segments => exact (simplifyPiecewise_sound hs h).bind fun parts hp => .pure hp

theorem simplifyWithin_sound (n : Nat) : Sound x (simplifyWithin n) := by
  induction n with
  | zero => exact fun f _ => .throw trivial
  | succ n ih => exact simplifyStep_sound ih

theorem simplify_sound : Sound x Fn.simplify := fun f => simplifyWithin_sound _ f

/-- A simplified function is defined with the same value wherever the function is. -/
theorem simplify_gives {f g : Fn Exact} (h : f.DefinedAt x) (hg : f.simplify.outcome = .ok g) :
    g.Gives x (f.value x) :=
  (simplify_sound f h).of_ok hg

/-- Simplification succeeds and preserves meaning: where a function with finite parameters is
defined, its simplified form is defined too, and both evaluate to one real number. -/
theorem simplify_preserves_evaluation {f : Fn Exact} (hf : f.HasFiniteNumbers) {x : ℝ}
    (h : f.DefinedAt x) :
    ∃ g r, f.simplify.outcome = .ok g ∧ g.DefinedAt x ∧
      f.evaluate (real x) = .ok (real r) ∧ g.evaluate (real x) = .ok (real r) := by
  obtain ⟨g, hg, -⟩ := exists_simplify hf.kernels
  have hgives := simplify_gives h hg
  refine ⟨g, f.value x, hg, hgives.defined, evaluate_eq_value h, ?_⟩
  rw [evaluate_eq_value hgives.defined, hgives.value_eq]

theorem simplify_preserves_evaluation_inverse_add_self :
    (sum [quotient one identity, identity] : Fn Exact).HasFiniteNumbers ∧
      (sum [quotient one identity, identity] : Fn Exact).DefinedAt 2 ∧
      ∃ g r, (sum [quotient one identity, identity] : Fn Exact).simplify.outcome = .ok g ∧
        g.DefinedAt 2 ∧
        (sum [quotient one identity, identity]).evaluate (real 2) = .ok (real r) ∧
        g.evaluate (real 2) = .ok (real r) := by
  have hx : (identity : Fn Exact).Gives 2 2 := identity_gives
  have hf : (sum [quotient one identity, identity] : Fn Exact).HasFiniteNumbers := by
    simp [HasFiniteNumbers, identity, Kernel.parameters, Exact.one_eq]
  have h : (sum [quotient one identity, identity] : Fn Exact).DefinedAt 2 := by
    simp [hx.defined, hx.value_eq]
  exact ⟨hf, h, simplify_preserves_evaluation hf h⟩

/-! ## Merges -/

/-- Merges are sound, whether functions are simplified or not: where two functions are defined, so
is what they are merged into, with the sum, the product or the quotient of their values. -/
theorem merge_preserves_evaluation {f g : Fn Exact} {x : ℝ} (hf : f.DefinedAt x)
    (hg : g.DefinedAt x) :
    ∃ a b, f.evaluate (real x) = .ok (real a) ∧ g.evaluate (real x) = .ok (real b) ∧
      (∀ h, (mergeAdd f g).outcome = .ok (some h) →
        h.DefinedAt x ∧ h.evaluate (real x) = .ok (real (a + b))) ∧
      (∀ h, mergeMultiply? f g = some h →
        h.DefinedAt x ∧ h.evaluate (real x) = .ok (real (a * b))) ∧
      (b ≠ 0 → ∀ h, mergeDivide? f g = some h →
        h.DefinedAt x ∧ h.evaluate (real x) = .ok (real (a / b))) := by
  refine ⟨_, _, hf.gives.evaluate, hg.gives.evaluate, fun h hm => ?_, fun h hm => ?_,
    fun h0 h hm => ?_⟩
  · have hgives : h.Gives x (f.value x + g.value x) :=
      (mergeAddWith_sound simplify_sound hf hg).of_ok hm h rfl
    exact ⟨hgives.defined, hgives.evaluate⟩
  · have hgives := (multiplied_of_mergeMultiply? hm).gives hf hg
    exact ⟨hgives.defined, hgives.evaluate⟩
  · have hgives := (divided_of_mergeDivide? hm).gives hf hg h0
    exact ⟨hgives.defined, hgives.evaluate⟩

/-- Merges of `3 * (x + 1) ^ 2` and `2 * (x + 1) ^ 2`, whose inner function is not simplified. -/
theorem merge_preserves_evaluation_squares :
    let f : Fn Exact := unary (.power (real 2)) (real 3) (some (sum [identity, one]))
    let g : Fn Exact := unary (.power (real 2)) (real 2) (some (sum [identity, one]))
    f.DefinedAt 2 ∧ g.DefinedAt 2 ∧ ∃ h k l,
      (mergeAdd f g).outcome = .ok (some h) ∧ h.evaluate (real 2) = .ok (real 45) ∧
      mergeMultiply? f g = some k ∧ k.evaluate (real 2) = .ok (real 486) ∧
      mergeDivide? f g = some l ∧ l.evaluate (real 2) = .ok (real (3 / 2)) := by
  intro f g
  have hbase : (sum [identity, one] : Fn Exact).Gives 2 3 := by
    have hone : (one : Fn Exact).Gives 2 1 := ⟨by simp, by simp⟩
    have := identity_gives.add hone
    norm_num at this
    exact this
  have hsquare (s : ℝ) :
      (unary (.power (real 2)) (real s) (some (sum [identity, one]))).Gives 2 (s * 9) := by
    have hpower : (Kernel.power (real 2)).DefinedAt 3 := by simp [Kernel.DefinedAt]
    have h9 : (Kernel.power (real 2)).value 3 = 9 := by norm_num [Kernel.value]
    simpa [h9] using hbase.unary (Exact.isReal_real s) hpower
  have hf : f.Gives 2 (3 * 9) := hsquare 3
  have hg : g.Gives 2 (2 * 9) := hsquare 2
  have hinner : equalInner (some (sum [identity, one])) (some (sum [identity, one] : Fn Exact)) =
      true :=
    beq_iff.2 ⟨rfl, by simp [HasNoNaN, identity, Kernel.parameters, Exact.one_eq]⟩
  obtain ⟨h, hadd⟩ : ∃ h : Fn Exact, (mergeAdd f g).outcome = .ok (some h) := by
    simp [f, g, mergeAdd, mergeAddWith, hinner, Kernel.beq_iff, Kernel.parameters]
  obtain ⟨k, hmul⟩ : ∃ k : Fn Exact, mergeMultiply? f g = some k := by
    simp [f, g, mergeMultiply?, hinner]
  obtain ⟨l, hdiv⟩ : ∃ l : Fn Exact, mergeDivide? f g = some l := by
    simp [f, g, mergeDivide?, hinner]
  obtain ⟨a, b, ha, hb, hsum, hprod, hquot⟩ := merge_preserves_evaluation hf.defined hg.defined
  rw [hf.evaluate] at ha
  rw [hg.evaluate] at hb
  obtain rfl := Exact.real.inj (Except.ok.inj ha)
  obtain rfl := Exact.real.inj (Except.ok.inj hb)
  refine ⟨hf.defined, hg.defined, h, k, l, hadd, ?_, hmul, ?_, hdiv, ?_⟩
  · rw [(hsum h hadd).2]
    norm_num
  · rw [(hprod k hmul).2]
    norm_num
  · rw [(hquot (by norm_num) l hdiv).2]
    norm_num

end Fn

end

end FunctionAlgebra
