import FunctionAlgebra.Proofs.ConstantFolding
import FunctionAlgebra.Proofs.DerivativeCache
import FunctionAlgebra.Proofs.DerivativeOutcome
import FunctionAlgebra.Proofs.KeptWeight
import FunctionAlgebra.Proofs.SeparateFactors

/-!
# Canonical leaves are not missed

Constants with the value zero, one or NaN may lie anywhere in a function, also in one that is
simplified: a sum or product that has not changed is returned with the children that it had. But
none of them is returned itself, as a simplified function or as a derivative, and none that is zero
comes up as a term when a simplified sum is flattened. So it is enough to look for canonical leaves.

A child can only become the whole if it is left alone. The other terms of a sum are merged then,
which makes a new constant, unless there were none; and a simplified sum has terms other than
constants, so a constant was no term of a part, but a part. Children of an unchanged sum or product
are as they should be because each of them has kept its weight, and with a zero it would have lost
some.

## Main definitions

* `Fn.IsCanonical` — a constant that is zero, one or NaN is a canonical leaf.
* `Fn.ShowsZero` — the test for the canonical zero agrees with comparison by value.
* `Fn.Clear` — terms of the sums in a function show whether they are zero, and not all of them are
  constants.

## Main statements

* `Fn.keepsClear` — a function that keeps its weight is clear if it equals a clear function.
* `Fn.simplify_canonical`, `Fn.derivative_canonical` — simplified functions are canonical and clear,
  and derivatives are canonical.
* `Fn.canonical_leaves_are_found` — tests for canonical leaves agree with comparison by value.
-/

namespace FunctionAlgebra.Fn

variable {α : Type} [Scalar α] {f g : Fn α} {fs gs ts us : List (Fn α)} {c v : α} {w : Weights}

/-! ## Canonical constants -/

def IsCanonical (f : Fn α) : Prop :=
  ∀ v, f = const v → (v == 0) = false ∧ (v == 1) = false ∧ Scalar.isNaN v = false

/-- The test for the canonical zero agrees with comparison by value. -/
def ShowsZero (f : Fn α) : Prop := f.isZero = (f == zero)

theorem isCanonical_of_kind (h : f.kind ≠ .constant) : f.IsCanonical := by
  rintro v rfl
  exact (h rfl).elim

theorem isCanonical_ofValue (v : α) : (ofValue v).IsCanonical := by
  unfold ofValue
  split_ifs with h0 h1 hn
  · nofun
  · nofun
  · nofun
  · intro u hu
    obtain rfl := const.inj hu
    exact ⟨Bool.eq_false_iff.2 h0, Bool.eq_false_iff.2 h1, Bool.eq_false_iff.2 hn⟩

theorem showsZero_of_kind (h : f.kind ≠ .constant) : f.ShowsZero := by
  cases f with
  | zero | one | const v => exact (h rfl).elim
  | unary k s inner => cases inner <;> rfl
  | _ => rfl

section Lawful

variable [LawfulScalar α]

theorem IsCanonical.showsZero (h : f.IsCanonical) : f.ShowsZero := by
  cases f with
  | zero => exact LawfulScalar.zero_beq_zero.symm
  | one => exact LawfulScalar.one_beq_zero.symm
  | const v => exact (h v rfl).1.symm
  | _ => exact showsZero_of_kind (by simp [← value?_eq_none_iff, value?])

theorem zero_beq_one : ((0 : α) == 1) = false := by
  rw [BEq.comm, LawfulScalar.one_beq_zero]

theorem IsCanonical.isOne_eq (h : f.IsCanonical) : f.isOne = (f == one) := by
  cases f with
  | zero => exact zero_beq_one.symm
  | one => exact LawfulScalar.one_beq_one.symm
  | const v => exact (h v rfl).2.1.symm
  | unary k s inner => cases inner <;> rfl
  | _ => rfl

omit [LawfulScalar α] in
theorem isUndefined_eq (f : Fn α) : f.isUndefined = (f == undefined) := by
  cases f with
  | unary k s inner => cases inner <;> rfl
  | _ => rfl

/-- A canonical constant with a value of a canonical leaf is this leaf. -/
theorem IsCanonical.of_value? (h : f.IsCanonical) (hv : f.value? = some v) :
    ((v == 0) = true → f = zero) ∧ ((v == 1) = true → f = one) ∧ Scalar.isNaN v = false := by
  cases f with
  | zero =>
    obtain rfl := Option.some.inj hv
    exact ⟨fun _ => rfl, by simp [zero_beq_one], LawfulScalar.isNaN_zero⟩
  | one =>
    obtain rfl := Option.some.inj hv
    exact ⟨by simp [LawfulScalar.one_beq_zero], fun _ => rfl, LawfulScalar.isNaN_one⟩
  | const u =>
    obtain rfl := Option.some.inj hv
    obtain ⟨h0, h1, hn⟩ := h u rfl
    exact ⟨by simp [h0], by simp [h1], hn⟩
  | _ => cases hv

/-- A zero is simplified to the canonical one. -/
theorem simplify_of_beq_zero (h : (f == zero) = true) : f.simplify = pure zero := by
  cases f with
  | zero => exact simplify_eq_simplifyStep _
  | one =>
    have h10 : ((1 : α) == 0) = true := h
    rw [LawfulScalar.one_beq_zero] at h10
    cases h10
  | const v =>
    have hv : (v == 0) = true := h
    rw [simplify_const, ofValue, if_pos hv]
  | unary k s inner => cases inner <;> cases h
  | _ => cases h

end Lawful

/-! ## Clear functions -/

/-- In the sums of which a function is composed, all terms show whether they are zero, and not all
of them are constants. -/
inductive Clear : Fn α → Prop where
  | simple {f : Fn α} (hs : f.kind ≠ .sum) (hp : f.kind ≠ .product) : Clear f
  | sum {ts : List (Fn α)} (hzero : ∀ t ∈ ts, t.ShowsZero)
    (hvaries : ∃ t ∈ ts, t.kind ≠ .constant) (h : ∀ t ∈ ts, Clear t) : Clear (sum ts)
  | product {fs : List (Fn α)} (h : ∀ f ∈ fs, Clear f) : Clear (product fs)

theorem Clear.terms (h : (Fn.sum ts).Clear) : (∀ t ∈ ts, t.ShowsZero) ∧
    (∃ t ∈ ts, t.kind ≠ .constant) ∧ ∀ t ∈ ts, t.Clear := by
  cases h with
  | simple hs => exact (hs rfl).elim
  | sum hzero hvaries h => exact ⟨hzero, hvaries, h⟩

theorem Clear.factors (h : (Fn.product fs).Clear) : ∀ f ∈ fs, f.Clear := by
  cases h with
  | simple _ hp => exact (hp rfl).elim
  | product h => exact h

theorem clear_ofValue (v : α) : (ofValue v).Clear := by
  unfold ofValue
  split_ifs
  exacts [.simple nofun nofun, .simple nofun nofun, .simple nofun nofun, .simple nofun nofun]

theorem clear_unary (k : Kernel α) (s : α) (inner : Option (Fn α)) : (unary k s inner).Clear := by
  cases k <;> exact .simple nofun nofun

theorem Clear.toFactors (h : f.Clear) : ∀ g ∈ f.toFactors, g.Clear := by
  cases f with
  | product fs => exact h.factors
  | _ => simpa [Fn.toFactors] using h

theorem Clear.unit [LawfulScalar α] (h : f.Clear) : f.unit.Clear := by
  cases h with
  | simple hs hp => exact .simple (by rwa [kind_unit]) (by rwa [kind_unit])
  | sum hzero hvaries h =>
    rw [unit_of_scale_one rfl]
    exact .sum hzero hvaries h
  | product h =>
    rw [unit_of_scale_one rfl]
    exact .product h

theorem ShowsZero.scaleBy [LawfulScalar α] (hc : (c == 0) = false) (h : f.ShowsZero) :
    (f.scaleBy c).ShowsZero := by
  cases f with
  | zero | one | const v =>
    rw [Fn.scaleBy, if_neg (by simp [hc])]
    split_ifs
    · exact h
    · exact (isCanonical_ofValue _).showsZero
  | _ =>
    refine showsZero_of_kind ?_
    rw [kind_scaleBy hc] <;> simp [← value?_eq_none_iff, value?]

/-- Multiples of clear functions are clear. -/
theorem Clear.scaleBy [LawfulScalar α] (hc : (c == 0) = false) (h : f.Clear) :
    (f.scaleBy c).Clear := by
  revert h
  refine scaleBy_induct (motive := fun f g => f.Clear → g.Clear) c (fun _ => id)
    (fun _ _ => .simple nofun nofun) (fun _ v _ _ => clear_ofValue _)
    (fun _ k s inner _ => clear_unary ..) (fun ts ih h => ?_) (fun f fs ih h => ?_)
    (fun n d _ _ => .simple nofun nofun) (fun segments _ _ => .simple nofun nofun) f
  · obtain ⟨hzero, ⟨t, ht, hkind⟩, hclear⟩ := h.terms
    refine .sum (List.forall_mem_map.2 fun t ht => (hzero t ht).scaleBy hc) ?_
      (List.forall_mem_map.2 fun t ht => ih t ht (hclear t ht))
    exact ⟨_, List.mem_map_of_mem ht, by rwa [kind_scaleBy hc hkind]⟩
  · have hfs := h.factors
    rw [List.forall_mem_cons] at hfs
    exact .product (List.forall_mem_cons.2 ⟨ih hfs.1, hfs.2⟩)

/-! ## Clear functions that are kept -/

variable [LawfulScalar α] [FaithfulScalar α]

/-- A function that keeps its weight in simplification is clear if it counts as a clear function. -/
def KeepsClear (f : Fn α) : Prop :=
  ∀ g m : Fn α, f.simplify.outcome = .ok g → f.weight .cost ≤ g.weight .cost →
    m.CountsAs f → m.Clear → f.Clear

theorem clear_sum_of_countsAs (hts : ∀ t ∈ ts, t.KeepsClear)
    (h : (sum ts).simplify.outcome = .ok g) (hw : (sum ts).weight .cost ≤ g.weight .cost)
    (hall : List.Forall₂ CountsAs us ts) (hus : (sum us).Clear) : (sum ts).Clear := by
  obtain ⟨-, ⟨u, hu, hkind⟩, hclear⟩ := hus.terms
  obtain ⟨t, ht, hut⟩ := exists_mem_of_forall₂ hall.flip hu
  have hkeeps := terms_keep_weight h hw (List.ne_nil_of_mem ht)
  refine .sum (fun t ht => ?_) ⟨t, ht, (kind_of_countsAs hut).symm ▸ hkind⟩ fun t ht => ?_
  · -- A zero is dropped, so it does not keep its weight.
    have hz : (t == zero) = false := by
      by_contra hz
      obtain ⟨p, hp, hle⟩ := hkeeps t ht
      rw [simplify_of_beq_zero (by simpa using hz)] at hp
      obtain rfl := Attempt.pure_eq_ok_iff.1 hp
      exact absurd ((weight_pos t).trans hle) (by simp [toTerms, isZero])
    rw [ShowsZero, hz]
    cases t with
    | zero => exact absurd (LawfulScalar.zero_beq_zero (α := α)) (Bool.eq_false_iff.1 hz)
    | _ => rfl
  · obtain ⟨p, hp, hle⟩ := hkeeps t ht
    obtain ⟨u, hu, hut⟩ := exists_mem_of_forall₂ hall ht
    refine hts t ht p u hp (hle.trans ?_) hut (hclear u hu)
    exact (totalWeight_sublist List.filter_sublist).trans (totalWeight_toTerms_le p)

theorem clear_product_of_countsAs (hfs : ∀ f ∈ fs, f.KeepsClear)
    (h : (product fs).simplify.outcome = .ok g)
    (hw : (product fs).weight .cost ≤ g.weight .cost)
    (hall : List.Forall₂ CountsAs us fs) (hus : (product us).Clear) : (product fs).Clear := by
  refine .product fun f hf => ?_
  obtain ⟨p, hp, hle⟩ := factors_keep_weight h hw (List.ne_nil_of_mem hf) f hf
  obtain ⟨u, hu, huf⟩ := exists_mem_of_forall₂ hall hf
  exact hfs f hf p u hp hle huf (hus.factors u hu)

theorem keepsClear (f : Fn α) : f.KeepsClear := by
  induction f with
  | zero | one | const | undefined | quotient | piecewise =>
    exact fun g m _ _ _ _ => .simple nofun nofun
  | plain k s | chain k s f => exact fun g m _ _ _ _ => clear_unary ..
  | sum ts ih =>
    rintro g m hg hw (rfl | heq) hm
    · exact hm
    cases m with
    | sum us => exact clear_sum_of_countsAs ih hg hw ((sum_beq_sum.1 heq).imp fun _ _ => .inr) hm
    | unary k s inner => cases inner <;> cases heq
    | _ => cases heq
  | product fs ih =>
    rintro g m hg hw (rfl | heq) hm
    · exact hm
    cases m with
    | product us =>
      exact clear_product_of_countsAs ih hg hw ((product_beq_product.1 heq).imp fun _ _ => .inr) hm
    | unary k s inner => cases inner <;> cases heq
    | _ => cases heq

/-! ## Simplified functions -/

omit [LawfulScalar α] [FaithfulScalar α] in
theorem holdsOfSimple_clear : HoldsOfSimple fun f : Fn α => f.IsCanonical ∧ f.Clear where
  zero := ⟨nofun, .simple nofun nofun⟩
  one := ⟨nofun, .simple nofun nofun⟩
  ofValue v := ⟨isCanonical_ofValue v, clear_ofValue v⟩
  other hc hs hp := ⟨isCanonical_of_kind hc, .simple hs hp⟩

def Clears (simplify : Fn α → Attempt α (Fn α)) : Prop :=
  ∀ f, (simplify f).Meets (fun _ => True) fun g => g.IsCanonical ∧ g.Clear

variable {way : Fn α → Attempt α (Fn α)} {parts merged : List (Fn α)}

omit [FaithfulScalar α] in
/-- Where simplified parts of a sum are flattened, all terms show whether they are zero. -/
theorem showsZero_of_toTerms {t : Fn α} (hf : f.IsCanonical ∧ f.Clear) (ht : t ∈ f.toTerms) :
    t.ShowsZero ∧ t.Clear := by
  cases f with
  | sum ts => exact ⟨hf.2.terms.1 t ht, hf.2.terms.2.2 t ht⟩
  | _ =>
    obtain rfl := List.mem_singleton.1 ht
    exact ⟨hf.1.showsZero, hf.2⟩

omit [LawfulScalar α] [FaithfulScalar α] in
theorem mapM_clears (hs : Clears way) (hparts : (ts.mapM way).outcome = .ok parts) :
    ∀ p ∈ parts, p.IsCanonical ∧ p.Clear :=
  (Attempt.Meets.mapM_forall fun f _ => hs f).of_ok hparts

omit [FaithfulScalar α] in
theorem flatMap_showsZero (hs : Clears way) (hparts : (ts.mapM way).outcome = .ok parts) :
    ∀ t ∈ parts.flatMap toTerms, t.ShowsZero ∧ t.Clear :=
  (Attempt.Meets.mapM_flatMap fun f _ =>
    (hs f).mono fun _ hp _ ht => showsZero_of_toTerms hp ht).of_ok hparts

omit [FaithfulScalar α] in
theorem mergeNeighbours_showsZero (hs : Clears way)
    {merge : Fn α → Fn α → Attempt α (Option (Fn α))} (hts : ∀ t ∈ ts, t.ShowsZero ∧ t.Clear)
    (h : (mergeNeighbours sort (mergeSimplified way merge) ts).outcome = .ok merged) :
    ∀ t ∈ merged, t.ShowsZero ∧ t.Clear :=
  (mergeSimplified_forall (fun f => (hs f).mono fun _ h => ⟨h.1.showsZero, h.2⟩) merge hts).of_ok h

omit [LawfulScalar α] [FaithfulScalar α] in
/-- Either nothing is merged, or there is a merged function, which is simplified. -/
theorem perm_or_exists_canonical (hs : Clears way)
    {merge : Fn α → Fn α → Attempt α (Option (Fn α))}
    (h : (mergeNeighbours sort (mergeSimplified way merge) ts).outcome = .ok merged) :
    ts.Perm merged ∨ ∃ t ∈ merged, t.IsCanonical := by
  have hmerge (f g : Fn α) : (mergeSimplified way merge f g).Meets (fun _ => True) fun merged =>
      ∀ m ∈ merged, m.IsCanonical :=
    mergeSimplified_meets ((Attempt.Meets.trivial _).mono fun _ _ _ _ => trivial)
      fun m _ => (hs m).mono fun _ h => h.1
  have hlaw : MergeLaw (fun _ => True) (fun _ => True)
      (fun xs ys : List (Fn α) => xs.Perm ys ∨ ∃ y ∈ ys, y.IsCanonical) sort
      (mergeSimplified way merge) :=
    { refl := fun _ => .inl (.refl _)
      trans := by
        rintro xs ys zs (hxy | ⟨y, hy, hc⟩) (hyz | hz)
        · exact .inl (hxy.trans hyz)
        · exact .inr hz
        · exact .inr ⟨y, hyz.mem_iff.1 hy, hc⟩
        · exact .inr hz
      cons := by
        rintro x xs ys (hxy | ⟨y, hy, hc⟩)
        · exact .inl (hxy.cons x)
        · exact .inr ⟨y, List.mem_cons_of_mem x hy, hc⟩
      sort := fun xs => .inl (sortStable_perm less xs).symm
      keeps := fun _ _ => trivial
      tail := fun _ => trivial
      merge := fun {f g rest} _ => (hmerge f g).mono fun merged hm m hmem =>
        .inr ⟨m, by simp, hm m hmem⟩ }
  exact (hlaw.mergeNeighbours trivial).of_ok h

omit [LawfulScalar α] [FaithfulScalar α] in
/-- Constants have a sum, so if no two neighbours have one and only constants are kept, there is
only one item. -/
theorem length_le_one_of_constants (hchain : merged.IsChain fun t u => ¬ Addable t u)
    (h : ∀ t ∈ merged.filter (!·.isZero), t.kind = .constant) : merged.length ≤ 1 := by
  have hvalue (t : Fn α) (ht : t ∈ merged) : ∃ v, t.value? = some v := by
    rw [← Option.ne_none_iff_exists', Ne, value?_eq_none_iff, not_not]
    by_cases hz : t.isZero = true
    · obtain rfl := eq_zero_of_isZero hz
      rfl
    · exact h t (List.mem_filter.2 ⟨ht, by simpa using hz⟩)
  refine length_le_one (fun t ht => .inl (hvalue t ht)) ?_ hchain
  rw [List.any_eq_false]
  intro t ht
  obtain ⟨v, hv⟩ := hvalue t ht
  cases t with
  | undefined => cases hv
  | _ => simp [isUndefined]

omit [LawfulScalar α] [FaithfulScalar α] in
/-- A constant among the terms of simplified parts is a part itself, unless there are other terms
that are no constants. -/
theorem isCanonical_of_flatMap (hparts : ∀ p ∈ parts, p.IsCanonical ∧ p.Clear)
    (h : (parts.flatMap toTerms).filter (!·.isZero) = [f]) : f.IsCanonical := by
  have hf : f ∈ (parts.flatMap toTerms).filter (!·.isZero) := by simp [h]
  obtain ⟨p, hp, hfp⟩ := List.mem_flatMap.1 (List.mem_of_mem_filter hf)
  by_cases hsum : ∃ ts, p = sum ts
  · obtain ⟨ts, rfl⟩ := hsum
    obtain ⟨-, ⟨t, ht, hkind⟩, -⟩ := (hparts _ hp).2.terms
    have htf : t ∈ (parts.flatMap toTerms).filter (!·.isZero) := by
      refine List.mem_filter.2 ⟨List.mem_flatMap.2 ⟨_, hp, ht⟩, ?_⟩
      cases t with
      | zero => exact (hkind rfl).elim
      | _ => rfl
    rw [h, List.mem_singleton] at htf
    exact isCanonical_of_kind (htf ▸ hkind)
  · have hterms : p.toTerms = [p] := by
      cases p with
      | sum ts => exact (hsum ⟨ts, rfl⟩).elim
      | _ => rfl
    rw [hterms, List.mem_singleton] at hfp
    exact hfp ▸ (hparts p hp).1

omit [LawfulScalar α] [FaithfulScalar α] in
/-- A single term that is left is a merged function, or it was the only term. -/
theorem isCanonical_of_single (hs : Clears way) (hparts : ∀ p ∈ parts, p.IsCanonical ∧ p.Clear)
    (hmerged : (mergeNeighbours sort (mergeSimplified way (mergeAddWith way))
      ((parts.flatMap toTerms).filter (!·.isZero))).outcome = .ok merged)
    (h : merged.filter (!·.isZero) = [f]) : f.IsCanonical := by
  by_cases hkind : f.kind = .constant
  · have hone := length_le_one_of_constants (mergeNeighbours_not_addable hmerged).2
      (by simpa [h] using hkind)
    obtain rfl : merged = [f] := by
      rw [← h]
      refine (List.filter_sublist.eq_of_length_le ?_).symm
      rwa [h]
    obtain hperm | ⟨t, ht, hc⟩ := perm_or_exists_canonical hs hmerged
    · exact isCanonical_of_flatMap hparts (List.perm_singleton.1 hperm)
    · exact List.mem_singleton.1 ht ▸ hc
  · exact isCanonical_of_kind hkind

omit [LawfulScalar α] [FaithfulScalar α] in
/-- Two or more terms that are left are not all constants. -/
theorem clear_of_two_le (hall : ∀ t ∈ merged, t.ShowsZero ∧ t.Clear)
    (hchain : merged.IsChain fun t u => ¬ Addable t u)
    (hlen : 2 ≤ (merged.filter (!·.isZero)).length) : (sum (merged.filter (!·.isZero))).Clear := by
  have hkept : ∀ t ∈ merged.filter (!·.isZero), t.ShowsZero ∧ t.Clear :=
    fun t ht => hall t (List.mem_of_mem_filter ht)
  refine .sum (fun t ht => (hkept t ht).1) ?_ fun t ht => (hkept t ht).2
  by_contra hconstant
  have hone := length_le_one_of_constants hchain (by simpa using hconstant)
  exact absurd (hlen.trans (List.length_filter_le _ merged)) (by omega)

/-- The sum of merged terms is canonical and clear. Where it is the sum that was to be simplified,
this one has to be clear. -/
theorem simplifySum_clear (hs : Clears way) (h : (simplifySum way ts).outcome = .ok g)
    (hself : g = sum ts → ∀ us, List.Forall₂ CountsAs us ts → (sum us).Clear → (sum ts).Clear) :
    g.IsCanonical ∧ g.Clear := by
  obtain ⟨parts, hparts, h⟩ := Attempt.bind_eq_ok_iff.1 h
  have hflat := flatMap_showsZero hs hparts
  dsimp only at h
  split at h
  · obtain rfl := Attempt.pure_eq_ok_iff.1 h
    exact holdsOfSimple_clear.undefined
  obtain ⟨merged, hmerged, h⟩ := Attempt.bind_eq_ok_iff.1 h
  have hall := mergeNeighbours_showsZero hs (fun t ht => hflat t (List.mem_of_mem_filter ht))
    hmerged
  replace h := Attempt.pure_eq_ok_iff.1 h
  have hclear := clear_of_two_le hall (mergeNeighbours_not_addable hmerged).2
  cases fromTerms_of_ofTerms h with
  | absorbed => exact holdsOfSimple_clear.undefined
  | empty => exact holdsOfSimple_clear.zero
  | assembled _ hg =>
    cases hg with
    | single hts =>
      exact ⟨isCanonical_of_single hs (mapM_clears hs hparts) hmerged hts,
        (hall g (List.mem_of_mem_filter (hts ▸ List.mem_singleton_self g))).2⟩
    | unchanged hlen hsame =>
      exact ⟨nofun, hself rfl _ (countsAs_of_sameChildren hsame) (hclear hlen)⟩
    | wrapped hlen => exact ⟨nofun, hclear hlen⟩

omit [FaithfulScalar α] in
theorem splitCoefficient_clear (hfs : ∀ f ∈ fs, f.Clear) :
    ∀ f ∈ (splitCoefficient fs).2, f.Clear ∧ f.kind ≠ .constant := by
  rw [splitCoefficient, splitCoefficientFrom_snd, List.forall_mem_map]
  intro f hf
  obtain ⟨hf, hnone⟩ := List.mem_filter.1 hf
  exact ⟨(hfs f hf).unit, by rwa [kind_unit, ← value?_eq_none_iff, ← Option.isNone_iff_eq_none]⟩

/-- The product of factors that are no constants is canonical and clear. Where it is the product
that was to be simplified, this one has to be clear. -/
theorem ofFactors_clear (hus : ∀ f ∈ us, f.Clear ∧ f.kind ≠ .constant)
    (hself : ofFactors (product fs) c us = product fs → ∀ us, List.Forall₂ CountsAs us fs →
      (product us).Clear → (product fs).Clear) :
    (ofFactors (product fs) c us).IsCanonical ∧ (ofFactors (product fs) c us).Clear := by
  generalize h : ofFactors (product fs) c us = g at hself ⊢
  cases fromFactors_of_ofFactors h with
  | zero => exact holdsOfSimple_clear.zero
  | absorbed => exact holdsOfSimple_clear.undefined
  | constant => exact holdsOfSimple_clear.ofValue c
  | @assembled gs _ h0 _ _ hgs hg =>
    have hscaled : ∀ f ∈ gs, f.Clear ∧ f.kind ≠ .constant :=
      hgs.forall_mem hus fun f hf => ⟨hf.1.scaleBy h0, kind_scaleBy h0 hf.2 ▸ hf.2⟩
    have hclear : (product gs).Clear := .product fun f hf => (hscaled f hf).1
    cases hg with
    | single hts =>
      have hg := hscaled g (by simp [hts])
      exact ⟨isCanonical_of_kind hg.2, hg.1⟩
    | unchanged _ hsame =>
      exact ⟨nofun, hself rfl _ (countsAs_of_sameChildren hsame) hclear⟩
    | wrapped => exact ⟨nofun, hclear⟩

theorem simplifyProduct_clear (hs : Clears way) (h : (simplifyProduct way fs).outcome = .ok g)
    (hself : g = product fs → ∀ us, List.Forall₂ CountsAs us fs → (product us).Clear →
      (product fs).Clear) : g.IsCanonical ∧ g.Clear := by
  obtain ⟨parts, hparts, h⟩ := Attempt.bind_eq_ok_iff.1 h
  have hflat : ∀ f ∈ parts.flatMap toFactors, f.Clear :=
    (Attempt.Meets.mapM_flatMap fun f _ => (hs f).mono fun _ hp => hp.2.toFactors).of_ok hparts
  dsimp only at h
  split at h
  · obtain rfl := (absorb_meets _ _).of_ok h
    exact holdsOfSimple_clear.zero
  split at h
  · obtain rfl := Attempt.pure_eq_ok_iff.1 h
    exact holdsOfSimple_clear.undefined
  obtain ⟨merged, hmerged, h⟩ := Attempt.bind_eq_ok_iff.1 h
  obtain rfl := Attempt.pure_eq_ok_iff.1 h
  have hclear : ∀ f ∈ merged, f.Clear :=
    (mergeSimplified_forall (fun f => (hs f).mono fun _ h => h.2) _
      fun f hf => (splitCoefficient_clear hflat f hf).1).of_ok hmerged
  exact ofFactors_clear (splitCoefficient_clear hclear) hself

/-- Simplified functions are canonical and clear. -/
theorem simplify_canonical : Clears (simplify : Fn α → Attempt α (Fn α)) := by
  have hwithin (n : Nat) : Clears (simplifyWithin n : Fn α → Attempt α (Fn α)) := by
    induction n with
    | zero => exact fun f => .throw trivial
    | succ n ih =>
      -- A sum or product that is returned as it was keeps its weight.
      have hself {f : Fn α} (h : (simplifyWithin (n + 1) f).outcome = .ok f) :
          f.simplify.outcome = .ok f := (simplifyWithin_approximates_simplify _ f).of_ok h
      refine simplifyStep_meets holdsOfSimple_clear ih (fun ts => .of_forall_ok fun g hg => ?_)
        fun fs => .of_forall_ok fun g hg => ?_
      · refine simplifySum_clear ih hg ?_
        rintro rfl us hall hus
        exact clear_sum_of_countsAs (fun t _ => keepsClear t) (hself hg) (Nat.le_refl _) hall hus
      · refine simplifyProduct_clear ih hg ?_
        rintro rfl us hall hus
        exact clear_product_of_countsAs (fun f _ => keepsClear f) (hself hg) (Nat.le_refl _) hall
          hus
  exact fun f => hwithin _ f

/-! ## Derivatives -/

/-- Derivatives are canonical, because all of them are simplified that are sums, products or
quotients. -/
theorem derivative_canonical (f : Fn α) : f.derivative.Meets (fun _ => True) IsCanonical := by
  have hzero : (pure zero : Attempt α (Fn α)).Meets (fun _ => True) IsCanonical :=
    .pure holdsOfSimple_clear.zero.1
  have hsimplify (g : Fn α) : g.simplify.Meets (fun _ => True) IsCanonical :=
    (simplify_canonical g).mono fun _ h => h.1
  induction f with
  | zero | one | const v =>
    rw [derivative]
    exact hzero
  | undefined =>
    rw [derivative]
    exact .pure holdsOfSimple_clear.undefined.1
  | plain k s =>
    rw [derivative]
    split
    · exact hzero
    · exact (Attempt.Meets.trivial _).bind fun outer _ => hsimplify outer
  | chain k s f =>
    by_cases hlog : k = .logarithm
    · subst hlog
      rw [derivative]
      split
      · exact hzero
      · exact (Attempt.Meets.trivial _).bind fun df _ => hsimplify _
    · rw [derivative_chain hlog]
      split
      · exact hzero
      · exact (Attempt.Meets.trivial _).bind fun outer _ =>
          (Attempt.Meets.trivial _).bind fun df _ => hsimplify _
  | sum ts =>
    rw [derivative]
    exact (Attempt.Meets.trivial _).bind fun ds _ => hsimplify (sum ds)
  | product fs =>
    rw [derivative]
    refine (Attempt.Meets.trivial _).bind fun ds _ => ?_
    split
    · exact hzero
    · exact hsimplify _
  | quotient n d =>
    rw [derivative]
    refine (Attempt.Meets.trivial _).bind fun dn _ => (Attempt.Meets.trivial _).bind fun dd _ => ?_
    refine (hsimplify _).bind fun top htop => ?_
    split
    · exact hzero
    · refine (hsimplify _).bind fun bottom _ => ?_
      split
      · exact .pure htop
      · exact hsimplify _
  | piecewise segments =>
    rw [derivative]
    exact (Attempt.Meets.trivial _).bind fun _ _ => .pure (isCanonical_of_kind (by simp [kind]))

/-- Derivatives that an evaluator builds are simplified. -/
theorem nthDerivative_canonical (f : Fn α) (n : Nat) :
    (f.nthDerivative (n + 1)).Meets (fun _ => True) IsCanonical := by
  rw [nthDerivative]
  exact (Attempt.Meets.trivial _).bind fun _ _ => (Attempt.Meets.trivial _).bind fun d _ =>
    (simplify_canonical d).mono fun _ h => h.1

/-- Canonical leaves are not missed. If simplification or a derivative gives a constant with the
value zero or one, it is the canonical leaf, and it never gives a constant that holds NaN. So the
tests for the canonical leaves agree with comparison by value on such functions, and also on the
terms of flattened and of merged sums, where zeros are dropped, and on the derivatives that an
evaluator is asked whether they are zero. -/
theorem canonical_leaves_are_found :
    (∀ f g : Fn α, f.simplify.outcome = .ok g ∨ f.derivative.outcome = .ok g →
      (∀ v, g.value? = some v →
        ((v == 0) = true → g = zero) ∧ ((v == 1) = true → g = one) ∧ Scalar.isNaN v = false) ∧
      g.isZero = (g == zero) ∧ g.isOne = (g == one) ∧ g.isUndefined = (g == undefined)) ∧
    (∀ ts parts : List (Fn α), (ts.mapM simplify).outcome = .ok parts →
      ∀ t ∈ parts.flatMap toTerms, t.isZero = (t == zero)) ∧
    (∀ ts merged : List (Fn α), (remainingTerms ts).outcome = .ok merged →
      ∀ t ∈ merged, t.isZero = (t == zero)) ∧
    ∀ (f : Fn α) (allow : Bool) (calls : List (Evaluator.Call α)) (order : Int), order ≠ 0 →
      let e := (Evaluator.new f allow).after calls
      (e.isZeroFunction order).1.outcome =
        (e.function order).1.outcome >>= fun d => .ok (d == zero) := by
  refine ⟨fun f g hg => ?_, fun ts parts hparts t ht => ?_, fun ts merged hmerged t ht => ?_,
    fun f allow calls order horder => ?_⟩
  · have hc : g.IsCanonical :=
      hg.elim (fun hg => ((simplify_canonical f).of_ok hg).1) (derivative_canonical f).of_ok
    exact ⟨fun v hv => hc.of_value? hv, hc.showsZero, hc.isOne_eq, isUndefined_eq g⟩
  · exact (flatMap_showsZero simplify_canonical hparts t ht).1
  · obtain ⟨parts, hparts, hmerged⟩ := Attempt.bind_eq_ok_iff.1 hmerged
    have hflat := flatMap_showsZero simplify_canonical hparts
    exact (mergeNeighbours_showsZero simplify_canonical
      (fun t ht => hflat t (List.mem_of_mem_filter ht)) hmerged t ht).1
  · have hremembers := (Evaluator.remembers_new f allow).after calls
    dsimp only
    rw [Evaluator.outcome_isZeroFunction, hremembers.outcome_function]
    split
    · rfl
    · obtain ⟨n, hn⟩ : ∃ n, order.toNat = n + 1 := ⟨order.toNat - 1, by omega⟩
      rw [hn]
      cases hd : (f.nthDerivative (n + 1)).outcome with
      | error => rfl
      | ok d =>
        have hzero : d.isZero = (d == zero) := ((nthDerivative_canonical f n).of_ok hd).showsZero
        exact congrArg Except.ok hzero

theorem canonical_leaves_are_found_one :
    ∃ (g : Fn Float) (v : Float),
      (sum [const 3, quotient (const (-2)) (const 1)]).simplify.outcome = .ok g ∧
        g.value? = some v ∧ (v == 1) = true ∧ g = one := by
  have hg : (sum [const 3, quotient (const (-2)) (const 1)] : Fn Float).simplify.outcome =
      .ok one := by
    with_unfolding_all rfl
  have h1 : ((1 : Float) == 1) = true := LawfulScalar.one_beq_one
  have hfound := canonical_leaves_are_found.1 _ _ (.inl hg)
  exact ⟨one, 1, hg, rfl, h1, (hfound.1 1 rfl).2.1 h1⟩

end FunctionAlgebra.Fn
