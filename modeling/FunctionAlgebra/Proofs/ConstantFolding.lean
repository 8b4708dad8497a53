import FunctionAlgebra.Fn.Walk
import FunctionAlgebra.Proofs.Composed
import FunctionAlgebra.Proofs.SimplifyValues
import FunctionAlgebra.Proofs.Recursion

/-!
# Constant folding

A function without a variable is simplified to a constant or to the undefined function. Parts are
folded first; then a sum adds neighbours until one constant is left, a product is all coefficient, a
quotient is divided, and a standard function is applied to its argument.

## Main definitions

* `Fn.IsPartOf` — a function is a part of another one, or that function itself.
* `Fn.VariableFree` — all standard functions in a function have an inner function, and nothing in it
  is piecewise.
* `Fn.IsFolded` — constants and the undefined function.

## Main statements

* `Fn.simplifySum_folds`, `Fn.simplifyProduct_folds`, … — folded parts give folded functions.
* `Fn.simplifySum_value`, `Fn.simplifyProduct_value` — and their values are added and multiplied.
* `Fn.simplify_folds_constants` — functions without a variable are folded.
-/

namespace FunctionAlgebra.Fn

open Exact (real)

/-! ## Parts of functions -/

section Parts

variable {α : Type}

inductive IsPartOf : Fn α → Fn α → Prop where
  | self (f) : IsPartOf f f
  | child {g h f key} (hc : (key, h) ∈ f.children) (hg : IsPartOf g h) : IsPartOf g f

variable {P : Fn α → Prop} {f g : Fn α}

def EveryPart (P : Fn α → Prop) (f : Fn α) : Prop := ∀ g, g.IsPartOf f → P g

theorem everyPart_iff :
    f.EveryPart P ↔ P f ∧ ∀ g ∈ f.children.map Prod.snd, g.EveryPart P := by
  rw [List.forall_mem_map]
  refine ⟨fun h => ⟨h f (.self f), fun c hc g hg => h g (.child hc hg)⟩, fun ⟨hf, hc⟩ g hg => ?_⟩
  cases hg with
  | self => exact hf
  | child hmem hg => exact hc _ hmem _ hg

theorem EveryPart.self (h : f.EveryPart P) : P f := (everyPart_iff.1 h).1

theorem snd_numbered (word : String) (fs : List (Fn α)) :
    (numbered word fs).map Prod.snd = fs := by
  refine List.ext_getElem (by simp [numbered]) fun i hi hj => ?_
  simp [numbered]

@[simp] theorem everyPart_one : (one : Fn α).EveryPart P ↔ P one := by
  simp [everyPart_iff (f := one), children]

@[simp] theorem everyPart_const (v : α) : (const v).EveryPart P ↔ P (const v) := by
  simp [everyPart_iff (f := const v), children]

@[simp] theorem everyPart_chain (k : Kernel α) (s : α) :
    (unary k s (some f)).EveryPart P ↔ P (unary k s (some f)) ∧ f.EveryPart P := by
  simp [everyPart_iff (f := unary k s (some f)), children]

@[simp] theorem everyPart_sum (ts : List (Fn α)) :
    (sum ts).EveryPart P ↔ P (sum ts) ∧ ∀ t ∈ ts, t.EveryPart P := by
  rw [everyPart_iff, children, snd_numbered]

@[simp] theorem everyPart_product (fs : List (Fn α)) :
    (product fs).EveryPart P ↔ P (product fs) ∧ ∀ f ∈ fs, f.EveryPart P := by
  rw [everyPart_iff, children, snd_numbered]

@[simp] theorem everyPart_quotient (n d : Fn α) :
    (quotient n d).EveryPart P ↔ P (quotient n d) ∧ n.EveryPart P ∧ d.EveryPart P := by
  simp [everyPart_iff (f := quotient n d), children]

/-- No part of the function depends on the variable: standard functions have an inner function, and
nothing is piecewise. -/
def VariableFree (f : Fn α) : Prop :=
  f.EveryPart fun g => (∀ k s, g ≠ unary k s none) ∧ ∀ segments, g ≠ piecewise segments

end Parts

/-! ## Folded functions -/

section Folded

variable {α : Type} [Scalar α] {E : Failure α → Prop} {f g : Fn α} {fs ts : List (Fn α)}

def IsFolded (f : Fn α) : Prop := (∃ v, f.value? = some v) ∨ f = undefined

theorem isFolded_ofValue (v : α) : (ofValue v).IsFolded := by
  unfold ofValue
  split_ifs
  exacts [.inl ⟨_, rfl⟩, .inl ⟨_, rfl⟩, .inr rfl, .inl ⟨_, rfl⟩]

theorem IsFolded.exists_value (h : f.IsFolded) (hu : f.isUndefined = false) :
    ∃ v, f.value? = some v := by
  rcases h with h | rfl
  · exact h
  · cases hu

theorem toTerms_of_value {v : α} (h : f.value? = some v) : f.toTerms = [f] := by
  cases f <;> first | rfl | cases h

theorem toFactors_of_value {v : α} (h : f.value? = some v) : f.toFactors = [f] := by
  cases f <;> first | rfl | cases h

theorem IsFolded.toTerms (h : f.IsFolded) : f.toTerms = [f] := by
  rcases h with ⟨v, hv⟩ | rfl
  · exact toTerms_of_value hv
  · rfl

theorem IsFolded.toFactors (h : f.IsFolded) : f.toFactors = [f] := by
  rcases h with ⟨v, hv⟩ | rfl
  · exact toFactors_of_value hv
  · rfl

omit [Scalar α] in
theorem flatMap_of_singleton {φ : Fn α → List (Fn α)} (h : ∀ f ∈ fs, φ f = [f]) :
    fs.flatMap φ = fs := by
  induction fs with
  | nil => rfl
  | cons f fs ih =>
    rw [List.forall_mem_cons] at h
    rw [List.flatMap_cons, h.1, ih h.2, List.singleton_append]

variable [LawfulScalar α]

theorem simplify_const (v : α) : (const v).simplify = pure (ofValue v) := simplify_eq_simplifyStep _

theorem simplify_undefined : (undefined : Fn α).simplify = pure undefined :=
  simplify_eq_simplifyStep _

/-! ### Sums -/

/-- Folded functions that have a sum are folded into one. -/
theorem mergeAdd_folds (hf : f.IsFolded) (hg : g.IsFolded) :
    (mergeSimplified simplify (mergeAddWith simplify) f g).Meets E
      fun merged => ∀ h ∈ merged, h.IsFolded := by
  have hmerge : (mergeAddWith simplify f g).Meets E fun merged => ∀ m ∈ merged,
      m = undefined ∨ ∃ v, m = const v := by
    refine (mergeAddWith_meets fun n d n' d' hn hn' => ?_).mono fun merged hm m hmem => ?_
    · rcases hf with ⟨v, hv⟩ | hf
      · simp [hn, value?] at hv
      · rw [hn] at hf
        cases hf
    · cases hm m hmem with
      | absorbed => exact .inl rfl
      | values => exact .inr ⟨_, rfl⟩
      | scales | heads | numerators =>
        rcases hf with ⟨v, hv⟩ | hf
        · cases hv
        · cases hf
  refine mergeSimplified_meets hmerge ?_
  rintro m (rfl | ⟨v, rfl⟩)
  · rw [simplify_undefined]
    exact .pure (.inr rfl)
  · rw [simplify_const]
    exact .pure (isFolded_ofValue v)

/-- What is left of folded terms is folded, and has no neighbours with a sum. -/
theorem mergeNeighbours_folds (h : ∀ f ∈ fs, f.IsFolded) :
    (mergeNeighbours sort (mergeSimplified simplify (mergeAddWith simplify)) fs).Meets E
      fun merged => (∀ g ∈ merged, g.IsFolded) ∧ merged.IsChain fun g g' => ¬ Addable g g' := by
  have hlaw := MergeLaw.forall_mem (E := E) (sortStable_perm less) fun f g hf hg =>
    mergeAdd_folds (f := f) (g := g) hf hg
  exact (hlaw.mergeNeighbours h).outcome.mono fun merged ⟨hfolded, hmerged⟩ =>
    ⟨hfolded h, (mergeNeighbours_not_addable hmerged).2⟩

omit [LawfulScalar α] in
/-- Two constants have a sum, so only one is left. -/
theorem length_le_one (h : ∀ f ∈ fs, f.IsFolded) (hu : fs.any isUndefined = false)
    (hchain : fs.IsChain fun f g => ¬ Addable f g) : fs.length ≤ 1 := by
  match fs with
  | [] | [_] => simp
  | f :: g :: fs =>
    simp only [List.any_cons, Bool.or_eq_false_iff] at hu
    obtain ⟨v, hv⟩ := (h f (by simp)).exists_value hu.1
    obtain ⟨w, hw⟩ := (h g (by simp)).exists_value hu.2.1
    exact absurd (.values hv hw) (List.isChain_cons_cons.1 hchain).1

omit [LawfulScalar α] in
/-- A sum of at most one term is zero or this term. -/
theorem ofTerms_of_length_le_one (hu : ts.any isUndefined = false) (h : ts.length ≤ 1) :
    ts.filter (!·.isZero) = [] ∧ ofTerms f ts = zero ∨
      ∃ t ∈ ts, ts.filter (!·.isZero) = [t] ∧ ofTerms f ts = t := by
  match ts with
  | [] => exact .inl ⟨rfl, rfl⟩
  | [t] =>
    have ht : t.isUndefined = false := by simpa using hu
    cases hz : t.isZero with
    | true => exact .inl ⟨by simp [hz], by simp [ofTerms, ht, hz]⟩
    | false => exact .inr ⟨t, by simp, by simp [hz], by simp [ofTerms, ht, hz]⟩
  | _ :: _ :: _ => simp at h

theorem simplifySum_folds (h : ∀ t ∈ ts, t.simplify.Meets E IsFolded) :
    (simplifySum simplify ts).Meets E IsFolded := by
  refine (Attempt.Meets.mapM_forall h).bind fun parts hfolded => ?_
  rw [flatMap_of_singleton fun g hg => (hfolded g hg).toTerms]
  dsimp only
  split
  · exact .pure (.inr rfl)
  refine (mergeNeighbours_folds fun g hg => hfolded g (List.mem_of_mem_filter hg)).bind
    fun merged ⟨hmerged, hchain⟩ => .pure ?_
  cases hu : merged.any isUndefined with
  | true => exact .inr (by simp [ofTerms, hu])
  | false =>
    rcases ofTerms_of_length_le_one hu (length_le_one hmerged hu hchain) with
      ⟨-, hzero⟩ | ⟨t, ht, -, hterm⟩
    · exact .inl ⟨0, by rw [hzero]; rfl⟩
    · exact hterm ▸ hmerged t ht

/-! ### Products, quotients and standard functions -/

omit [LawfulScalar α] in
/-- Constants are all coefficient. -/
theorem splitCoefficient_of_values (h : ∀ f ∈ fs, ∃ v, f.value? = some v) :
    splitCoefficient fs = (fs.foldl coefficientStep 1, []) := by
  rw [Prod.ext_iff, splitCoefficient, splitCoefficientFrom_fst, splitCoefficientFrom_snd,
    List.map_eq_nil_iff, List.filter_eq_nil_iff]
  refine ⟨rfl, fun f hf => ?_⟩
  obtain ⟨v, hv⟩ := h f hf
  simp [hv]

omit [LawfulScalar α] in
theorem mergeNeighbours_nil (merge : Fn α → Fn α → Attempt α (Option (Fn α))) :
    mergeNeighbours sort merge [] = pure [] := by
  have hsort : sort ([] : List (Fn α)) = [] := (sortStable_perm less []).eq_nil
  rw [mergeNeighbours, hsort]
  rfl

omit [LawfulScalar α] in
theorem ofFactors_nil (c : α) : (ofFactors f c []).IsFolded := by
  unfold ofFactors
  split_ifs
  · exact .inl ⟨_, rfl⟩
  · exact .inr rfl
  · exact isFolded_ofValue c
  all_goals contradiction

omit [LawfulScalar α] in
theorem simplifyProduct_folds (h : ∀ f ∈ fs, f.simplify.Meets (fun _ => True) IsFolded) :
    (simplifyProduct simplify fs).Meets (fun _ => True) IsFolded := by
  refine (Attempt.Meets.mapM_forall h).bind fun parts hfolded => ?_
  rw [flatMap_of_singleton fun g hg => (hfolded g hg).toFactors]
  dsimp only
  split
  · exact (absorb_meets _ _).mono fun g hg => .inl ⟨0, by rw [hg]; rfl⟩
  split
  · exact .pure (.inr rfl)
  rename_i hu
  rw [Bool.not_eq_true, List.any_eq_false] at hu
  rw [splitCoefficient_of_values fun g hg => (hfolded g hg).exists_value (by simpa using hu g hg)]
  dsimp only
  rw [mergeNeighbours_nil, pure_bind]
  exact .pure (ofFactors_nil _)

theorem simplifyQuotient_folds {n d : Fn α} (hn : n.simplify.Meets E IsFolded)
    (hd : d.simplify.Meets E IsFolded) : (simplifyQuotient simplify n d).Meets E IsFolded := by
  refine hn.bind fun n' hn => hd.bind fun d' hd => ?_
  split
  · exact .pure (.inr rfl)
  rename_i hu
  rw [Bool.or_eq_true, not_or, Bool.not_eq_true, Bool.not_eq_true] at hu
  obtain ⟨v, hv⟩ := hn.exists_value hu.1
  obtain ⟨w, hw⟩ := hd.exists_value hu.2
  rw [(Divided.values hv hw).mergeDivide?]
  dsimp only
  rw [simplify_const]
  exact .pure (isFolded_ofValue _)

theorem simplifyStandard_folds {k : Kernel α} {s : α} (h : f.simplify.Meets E IsFolded) :
    (simplifyStandard simplify k s (some f)).Meets E IsFolded := by
  unfold simplifyStandard
  split
  · exact .pure (.inl ⟨_, rfl⟩)
  refine h.bind fun g hg => ?_
  split
  · exact .pure (.inr rfl)
  rename_i hu
  obtain ⟨v, hv⟩ := hg.exists_value (Bool.eq_false_iff.2 hu)
  rw [hv]
  dsimp only
  rw [simplify_const]
  exact .pure (isFolded_ofValue _)

/-- Functions without a variable are folded. -/
theorem simplify_folds (h : f.VariableFree) : f.simplify.Meets (fun _ => True) IsFolded := by
  rw [simplify_eq_simplifyStep]
  induction f with
  | zero => exact .pure (.inl ⟨_, rfl⟩)
  | one => exact .pure (.inl ⟨_, rfl⟩)
  | const v => exact .pure (isFolded_ofValue v)
  | undefined => exact .pure (.inr rfl)
  | plain k s => exact absurd rfl (h.self.1 k s)
  | chain k s f ih =>
    exact simplifyStandard_folds (simplify_eq_simplifyStep f ▸ ih ((everyPart_chain ..).1 h).2)
  | sum ts ih =>
    have hts := ((everyPart_sum ts).1 h).2
    exact simplifySum_folds fun t ht => simplify_eq_simplifyStep t ▸ ih t ht (hts t ht)
  | product fs ih =>
    have hfs := ((everyPart_product fs).1 h).2
    exact simplifyProduct_folds fun f hf => simplify_eq_simplifyStep f ▸ ih f hf (hfs f hf)
  | quotient n d ihn ihd =>
    obtain ⟨-, hn, hd⟩ := (everyPart_quotient n d).1 h
    exact simplifyQuotient_folds (simplify_eq_simplifyStep n ▸ ihn hn)
      (simplify_eq_simplifyStep d ▸ ihd hd)
  | piecewise segments => exact absurd rfl (h.self.2 segments)

end Folded

/-! ## Values -/

noncomputable section Values

variable {f g : Fn Exact} {fs ts parts : List (Fn Exact)} {rs : List ℝ} {x r : ℝ}

theorem value?_ofValue_real (r : ℝ) : (ofValue (real r)).value? = some (real r) := by
  rw [ofValue]
  split_ifs with h0 h1 hn
  · rw [Exact.beq_zero_iff.1 h0]
    rfl
  · rw [Exact.beq_one_iff.1 h1]
    rfl
  · simp at hn
  · rfl

theorem gives_of_value (h : f.value? = some (real r)) : f.Gives x r := by
  cases f <;> cases h
  · exact ⟨by simp, by simp [value]⟩
  · exact ⟨by simp, by simp [value]⟩
  · exact const_gives r

/-- A folded function with a value is a constant with this value. -/
theorem IsFolded.value?_of_gives (h : f.IsFolded) (hf : f.Gives x r) :
    f.value? = some (real r) := by
  obtain ⟨v, hv⟩ := h.exists_value hf.defined.isUndefined
  rw [hv, hf.defined.value_of_value? hv, hf.value_eq]

def FoldsTo (f : Fn Exact) (r : ℝ) : Prop :=
  ∃ g, f.simplify.outcome = .ok g ∧ g.value? = some (real r)

theorem exists_parts (h : List.Forall₂ FoldsTo fs rs) : ∃ parts,
    (fs.mapM simplify).outcome = .ok parts ∧
      List.Forall₂ (fun p r => p.value? = some (real r)) parts rs := by
  induction h with
  | nil => exact ⟨[], rfl, .nil⟩
  | cons hf _ ih =>
    obtain ⟨g, hg, hv⟩ := hf
    obtain ⟨parts, hparts, hvalues⟩ := ih
    exact ⟨g :: parts, Attempt.mapM_eq_ok_iff.2 (.cons hg (Attempt.mapM_eq_ok_iff.1 hparts)),
      .cons hv hvalues⟩

theorem values_of_forall₂ (h : List.Forall₂ (fun p r => p.value? = some (real r)) parts rs)
    (x : ℝ) : (∀ p ∈ parts, p.DefinedAt x ∧ p.IsFolded) ∧ parts.map (value x) = rs := by
  induction h with
  | nil => simp
  | cons hp _ ih =>
    have hgives := gives_of_value (x := x) hp
    exact ⟨List.forall_mem_cons.2 ⟨⟨hgives.defined, .inl ⟨_, hp⟩⟩, ih.1⟩,
      by rw [List.map_cons, hgives.value_eq, ih.2]⟩

/-- Terms that are folded to constants are added. -/
theorem simplifySum_value (h : List.Forall₂ FoldsTo ts rs) :
    ∃ g, (simplifySum simplify ts).outcome = .ok g ∧ g.value? = some (real rs.sum) := by
  obtain ⟨parts, hparts, hvalues⟩ := exists_parts h
  obtain ⟨hall, hsum⟩ := values_of_forall₂ hvalues 0
  refine Attempt.Meets.exists_ok ((Attempt.Meets.of_eq_ok hparts).bind ?_)
  rintro parts rfl
  rw [flatMap_of_singleton fun p hp => (hall p hp).2.toTerms]
  dsimp only
  rw [any_isUndefined fun p hp => (hall p hp).1, if_neg Bool.false_ne_true]
  have hfilter : ∀ t ∈ parts.filter (!·.isZero), t.DefinedAt 0 ∧ t.IsFolded :=
    fun t ht => hall t (List.mem_of_mem_filter ht)
  have hlaw := sumLaw fun f g hf hg => mergeAdd_sound (simplify_sound (x := 0)) hf hg
  have hrefines := hlaw.mergeNeighbours fun t ht => (hfilter t ht).1
  refine ((mergeNeighbours_folds fun t ht => (hfilter t ht).2).and_of_ok hrefines).bind
    fun merged ⟨hm, hfolded, hchain⟩ => .pure ?_
  obtain ⟨hdefined, hvalue⟩ := hm fun t ht => (hfilter t ht).1
  have hu := any_isUndefined hdefined
  rw [sum_filter_isZero, hsum, ← sum_filter_isZero merged] at hvalue
  rcases ofTerms_of_length_le_one hu (length_le_one hfolded hu hchain) with
    ⟨hnil, hzero⟩ | ⟨t, ht, hone, hterm⟩
  · rw [hzero, ← hvalue, hnil]
    rfl
  · rw [hterm, ← hvalue, hone]
    exact (hfolded t ht).value?_of_gives ⟨hdefined t ht, by simp⟩

theorem ofFactors_nil_value (c : ℝ) : (ofFactors f (real c) []).value? = some (real c) := by
  rw [ofFactors]
  split_ifs with h0 hn
  · rw [Exact.beq_zero_iff.1 h0]
    rfl
  · simp at hn
  · exact value?_ofValue_real c
  all_goals contradiction

/-- Factors that are folded to constants are multiplied. -/
theorem simplifyProduct_value (h : List.Forall₂ FoldsTo fs rs) :
    ∃ g, (simplifyProduct simplify fs).outcome = .ok g ∧ g.value? = some (real rs.prod) := by
  obtain ⟨parts, hparts, hvalues⟩ := exists_parts h
  obtain ⟨hall, hprod⟩ := values_of_forall₂ hvalues 0
  refine Attempt.Meets.exists_ok ((Attempt.Meets.of_eq_ok hparts).bind ?_)
  rintro parts rfl
  rw [flatMap_of_singleton fun p hp => (hall p hp).2.toFactors]
  dsimp only
  have hdefined (p) (hp : p ∈ parts) : p.DefinedAt 0 := (hall p hp).1
  have hu := any_isUndefined hdefined
  split
  · -- All scales are finite, so there is no warning.
    rename_i hz
    have hfinite : (parts.all fun p => Scalar.isFinite p.scale) = true :=
      List.all_eq_true.2 fun p hp => Exact.isFinite_iff.2 (hdefined p hp).isReal_scale
    have hzero : (0 : ℝ) ∈ rs := by
      obtain ⟨p, hp, hz⟩ := List.any_eq_true.1 hz
      rw [Option.any_eq_true] at hz
      obtain ⟨v, hv, hz⟩ := hz
      have hvalue := (hdefined p hp).value_of_value? hv
      rw [Exact.beq_zero_iff.1 hz, Exact.zero_eq, Exact.real.injEq] at hvalue
      rw [hvalue, ← hprod]
      exact List.mem_map_of_mem hp
    rw [absorb, hu, hfinite, List.prod_eq_zero hzero]
    exact .pure rfl
  · have hvalues (p) (hp : p ∈ parts) : ∃ v, p.value? = some v :=
      (hall p hp).2.exists_value (hdefined p hp).isUndefined
    obtain ⟨c, hc, -, hvalue⟩ := splitCoefficientFrom_gives 1 hdefined
    have hsplit : splitCoefficient parts = (real c, []) :=
      Prod.ext hc (by rw [splitCoefficient_of_values hvalues])
    obtain rfl : c = rs.prod := by
      change c * ((splitCoefficient parts).2.map (value 0)).prod = _ at hvalue
      rw [hsplit, hprod] at hvalue
      simpa using hvalue
    rw [hu, if_neg Bool.false_ne_true, hsplit]
    dsimp only
    rw [mergeNeighbours_nil, pure_bind]
    refine .pure ?_
    change (ofFactors (product fs) (real rs.prod * real 1) []).value? = _
    rw [Exact.real_mul, mul_one, ofFactors_nil_value]

theorem sumAt_of_forall₂ (total : ℝ) {x : Exact}
    (h : List.Forall₂ (fun t r => t.evaluate x = .ok (real r)) ts rs) :
    sumAt x (real total) ts = .ok (real (total + rs.sum)) := by
  induction h generalizing total with
  | nil => simp [sumAt]
  | @cons t r ts rs ht _ ih =>
    have hrest := ih (total + r)
    simp [sumAt, ht, bind, Except.bind, hrest, add_assoc]

theorem productAt_of_forall₂ (total : ℝ) {x : Exact}
    (h : List.Forall₂ (fun f r => f.evaluate x = .ok (real r)) fs rs) :
    productAt x (real total) fs = .ok (real (total * rs.prod)) := by
  induction h generalizing total with
  | nil => simp [productAt]
  | @cons f r fs rs hf _ ih =>
    have hrest := ih (total * r)
    simp [productAt, hf, bind, Except.bind, hrest, mul_assoc]

def HasConstantValue (f : Fn Exact) (r : ℝ) : Prop :=
  f.FoldsTo r ∧ ∀ x, f.evaluate x = .ok (real r)

theorem exists_values (h : ∀ f ∈ fs, ∃ r, f.HasConstantValue r) :
    ∃ rs, List.Forall₂ FoldsTo fs rs ∧
      ∀ x, List.Forall₂ (fun f r => f.evaluate x = .ok (real r)) fs rs := by
  induction fs with
  | nil => exact ⟨[], .nil, fun _ => .nil⟩
  | cons f fs ih =>
    rw [List.forall_mem_cons] at h
    obtain ⟨r, hfold, hvalue⟩ := h.1
    obtain ⟨rs, hfolds, hvalues⟩ := ih h.2
    exact ⟨r :: rs, .cons hfold hfolds, fun x => .cons (hvalue x) (hvalues x)⟩

theorem foldsTo_of_step (h : ∃ g, (simplifyStep simplify f).outcome = .ok g ∧
    g.value? = some (real r)) : f.FoldsTo r := by
  rwa [FoldsTo, simplify_eq_simplifyStep]

theorem HasConstantValue.chain {k : Kernel Exact} {s : Exact} {y : ℝ} (hf : f.HasConstantValue y)
    (hreal : ∃ x r, (unary k s (some f)).evaluate x = .ok (real r)) :
    ∃ r, (unary k s (some f)).HasConstantValue r := by
  obtain ⟨⟨g, hg, hvalue⟩, hy⟩ := hf
  by_cases h0 : (s == 0) = true
  · refine ⟨0, foldsTo_of_step ⟨zero, ?_, rfl⟩, fun x => ?_⟩
    · simp only [simplifyStep, simplifyStandard, h0, if_true]
      rfl
    · rw [evaluate, if_pos h0]
      rfl
  have hevaluate (x : Exact) : (unary k s (some f)).evaluate x = .ok (k.apply s (real y)) := by
    rw [evaluate, if_neg h0, hy]
    rfl
  obtain ⟨x, r, hr⟩ := hreal
  rw [hevaluate] at hr
  obtain hr := Except.ok.inj hr
  refine ⟨r, foldsTo_of_step ⟨_, ?_, value?_ofValue_real r⟩, fun x => by rw [hevaluate, hr]⟩
  have hu : g.isUndefined = false := (gives_of_value (x := 0) hvalue).defined.isUndefined
  rw [simplifyStep, simplifyStandard, if_neg h0]
  refine Attempt.bind_eq_ok_iff.2 ⟨g, hg, ?_⟩
  rw [hu, if_neg Bool.false_ne_true, hvalue]
  dsimp only
  rw [hr, simplify_const]
  rfl

theorem HasConstantValue.quotient {n d : Fn Exact} {a b : ℝ} (hn : n.HasConstantValue a)
    (hd : d.HasConstantValue b) (hreal : ∃ x r, (quotient n d).evaluate x = .ok (real r)) :
    ∃ r, (quotient n d).HasConstantValue r := by
  obtain ⟨⟨n', hn', hnv⟩, ha⟩ := hn
  obtain ⟨⟨d', hd', hdv⟩, hb⟩ := hd
  have hevaluate (x : Exact) : (Fn.quotient n d).evaluate x = .ok (real a / real b) := by
    rw [evaluate, ha, hb]
    rfl
  obtain ⟨x, r, hr⟩ := hreal
  rw [hevaluate] at hr
  obtain hr := Except.ok.inj hr
  refine ⟨r, foldsTo_of_step ⟨_, ?_, value?_ofValue_real r⟩, fun x => by rw [hevaluate, hr]⟩
  have hnu : n'.isUndefined = false := (gives_of_value (x := 0) hnv).defined.isUndefined
  have hdu : d'.isUndefined = false := (gives_of_value (x := 0) hdv).defined.isUndefined
  refine Attempt.bind_eq_ok_iff.2 ⟨n', hn', Attempt.bind_eq_ok_iff.2 ⟨d', hd', ?_⟩⟩
  rw [hnu, hdu, Bool.or_self, if_neg Bool.false_ne_true, (Divided.values hnv hdv).mergeDivide?]
  dsimp only
  rw [hr, simplify_const]
  rfl

/-- A function without a variable whose parts have real values is folded to its value. -/
theorem exists_constantValue (h : f.VariableFree)
    (hreal : f.EveryPart fun g => ∃ x r, g.evaluate x = .ok (real r)) :
    ∃ r, f.HasConstantValue r := by
  induction f with
  | zero => exact ⟨0, foldsTo_of_step ⟨zero, rfl, rfl⟩, fun _ => rfl⟩
  | one => exact ⟨1, foldsTo_of_step ⟨one, rfl, rfl⟩, fun _ => rfl⟩
  | const v =>
    obtain ⟨x, r, hv⟩ := hreal.self
    obtain rfl : v = real r := Except.ok.inj hv
    exact ⟨r, foldsTo_of_step ⟨_, rfl, value?_ofValue_real r⟩, fun _ => rfl⟩
  | undefined =>
    obtain ⟨x, r, hv⟩ := hreal.self
    cases hv
  | plain k s => exact absurd rfl (h.self.1 k s)
  | chain k s f ih =>
    obtain ⟨hself, hreals⟩ := (everyPart_chain ..).1 hreal
    obtain ⟨y, hy⟩ := ih ((everyPart_chain ..).1 h).2 hreals
    exact hy.chain hself
  | sum ts ih =>
    have hts := ((everyPart_sum ts).1 h).2
    have hreals := ((everyPart_sum ts).1 hreal).2
    obtain ⟨rs, hfolds, hvalues⟩ :=
      exists_values fun t ht => ih t ht (hts t ht) (hreals t ht)
    refine ⟨rs.sum, foldsTo_of_step (simplifySum_value hfolds), fun x => ?_⟩
    rw [evaluate, Exact.zero_eq, sumAt_of_forall₂ 0 (hvalues x), zero_add]
  | product fs ih =>
    have hfs := ((everyPart_product fs).1 h).2
    have hreals := ((everyPart_product fs).1 hreal).2
    obtain ⟨rs, hfolds, hvalues⟩ :=
      exists_values fun f hf => ih f hf (hfs f hf) (hreals f hf)
    refine ⟨rs.prod, foldsTo_of_step (simplifyProduct_value hfolds), fun x => ?_⟩
    rw [evaluate, Exact.one_eq, productAt_of_forall₂ 1 (hvalues x), one_mul]
  | quotient n d ihn ihd =>
    obtain ⟨-, hn, hd⟩ := (everyPart_quotient n d).1 h
    obtain ⟨hself, hnr, hdr⟩ := (everyPart_quotient n d).1 hreal
    obtain ⟨a, ha⟩ := ihn hn hnr
    obtain ⟨b, hb⟩ := ihd hd hdr
    exact ha.quotient hb hself
  | piecewise segments => exact absurd rfl (h.self.2 segments)

end Values

/-- Constant folding is complete. Whatever numbers are in it, a function without a variable is
simplified to a constant or to the undefined function, if it is simplified at all. If in exact
arithmetic each of its parts has a real value, it is simplified, and to a constant, which is its
value everywhere. -/
theorem simplify_folds_constants :
    (∀ {α : Type} [Scalar α] [LawfulScalar α] {f g : Fn α}, f.VariableFree →
      f.simplify.outcome = .ok g → (∃ v, g.value? = some v) ∨ g = undefined) ∧
    ∀ {f : Fn Exact}, f.VariableFree →
      (f.EveryPart fun g => ∃ x r, g.evaluate x = .ok (real r)) →
      ∃ g v, f.simplify.outcome = .ok g ∧ g.value? = some v ∧ ∀ x, f.evaluate x = .ok v := by
  refine ⟨fun h hg => (simplify_folds h).of_ok hg, fun h hreal => ?_⟩
  obtain ⟨r, ⟨g, hg, hvalue⟩, hr⟩ := exists_constantValue h hreal
  exact ⟨g, real r, hg, hvalue, hr⟩

theorem simplify_folds_constants_exp :
    ∃ g, (unary .exponential (real 2) (some (sum [one, const (real (-1))]))).simplify.outcome =
      .ok g ∧ g.value? = some (real 2) := by
  have hsum (x : Exact) : (sum [one, const (real (-1))]).evaluate x = .ok (real 0) := by
    have hterms := sumAt_of_forall₂ (x := x) 0
      (.cons (a := one) (b := 1) rfl (.cons (a := const (real (-1))) (b := -1) rfl .nil))
    simpa [evaluate, Exact.zero_eq] using hterms
  have hf (x : Exact) :
      (unary .exponential (real 2) (some (sum [one, const (real (-1))]))).evaluate x =
        .ok (real 2) := by
    have hexp : Scalar.exp (real 0) = real 1 := congrArg real Real.exp_zero
    have h2 : (real 2 == 0) = false := by simp
    rw [evaluate, h2, if_neg Bool.false_ne_true, hsum]
    change Except.ok (real 2 * Scalar.exp (real 0)) = _
    rw [hexp, Exact.real_mul, mul_one]
  obtain ⟨g, v, hg, hv, hvalue⟩ := simplify_folds_constants.2
    (f := unary .exponential (real 2) (some (sum [one, const (real (-1))])))
    (by simp [VariableFree]) (by
      rw [everyPart_chain, everyPart_sum, List.forall_mem_cons, List.forall_mem_singleton,
        everyPart_one, everyPart_const]
      exact ⟨⟨0, 2, hf 0⟩, ⟨0, 0, hsum 0⟩, ⟨0, 1, rfl⟩, 0, -1, rfl⟩)
  exact ⟨g, hg, hv.trans (congrArg some (Except.ok.inj ((hvalue 0).symm.trans (hf 0))))⟩

end FunctionAlgebra.Fn
