import FunctionAlgebra.Proofs.DoubleOrder
import FunctionAlgebra.Proofs.Order
import FunctionAlgebra.Proofs.Sorting

/-!
# Functions in order

## Main statements

* `Fn.compareWith_true` — the factors of products are compared at unit scale.
* `Fn.compareTo_eq` — comparison by way of kinds never fails.
* `Fn.compareTo_totally_orders` — functions without NaN are totally ordered, and sorting brings them
  into their order.
-/

namespace FunctionAlgebra.Fn

variable {α : Type} [Scalar α] [LawfulScalar α]

/-! ## Factors at unit scale -/

theorem ofValue_one : (ofValue 1 : Fn α) = one := by
  simp [ofValue, LawfulScalar.one_beq_zero, LawfulScalar.one_beq_one]

omit [LawfulScalar α] in
theorem unit_of_scale {f : Fn α} (h : (f.scale == 0 || f.scale == 1) = true) : f.unit = f := by
  rw [unit, if_pos h]

theorem unit_of_scale_one {f : Fn α} (h : f.scale = 1) : f.unit = f := by
  apply unit_of_scale
  rw [h, LawfulScalar.one_beq_one, Bool.or_true]

theorem unit_of_not_scale {f : Fn α} (h : ¬(f.scale == 0 || f.scale == 1) = true) :
    f.unit = f.withScale 1 ∧ ¬((1 : α) == f.scale) = true := by
  rw [unit, if_neg h]
  rw [Bool.or_eq_true, not_or] at h
  exact ⟨rfl, fun h' => h.2 (PartialEquivBEq.symm h')⟩

theorem value?_unit {f : Fn α} {v : α} (h : f.value? = some v) :
    f.unit.value? = some (unitScale v) := by
  have hscale : f.scale = v := scale_of_value? h
  unfold unitScale
  split_ifs with hv
  · rw [unit_of_scale (by rwa [hscale]), h]
  · obtain ⟨hunit, hone⟩ := unit_of_not_scale (f := f) (by rwa [hscale])
    rw [hunit]
    cases f with
    | zero => exact absurd (by simp [Fn.scale, LawfulScalar.zero_beq_zero]) (hscale ▸ hv)
    | one => exact absurd LawfulScalar.one_beq_one hone
    | const w =>
      rw [Fn.scale] at hone
      rw [withScale, if_neg hone, ofValue_one, value?]
    | _ => cases h

theorem unit_unary (k : Kernel α) (s : α) (inner : Option (Fn α)) :
    (unary k s inner).unit = unary k (unitScale s) inner := by
  unfold unitScale
  split_ifs with hs
  · exact unit_of_scale hs
  · obtain ⟨hunit, hone⟩ := unit_of_not_scale (f := unary k s inner) hs
    rw [Fn.scale] at hone
    rw [hunit, withScale, if_neg hone, scaled]
    cases k <;> simp [Kernel.atScale, LawfulScalar.one_beq_zero]

theorem unit_quotient (n d : Fn α) : (quotient n d).unit = quotient n.unit d := by
  by_cases h : (n.scale == 0 || n.scale == 1) = true
  · rw [unit_of_scale h, unit_of_scale (f := quotient n d) h]
  · obtain ⟨hunit, hone⟩ := unit_of_not_scale (f := quotient n d) h
    rw [Fn.scale] at hone
    rw [hunit, withScale, if_neg hone, (unit_of_not_scale h).1]

theorem kind_unit (f : Fn α) : f.unit.kind = f.kind := by
  cases f with
  | zero | one | const v => exact kind_of_value? (value?_unit rfl)
  | undefined | sum | product | piecewise => rw [unit_of_scale_one rfl]
  | unary k s inner => rw [unit_unary]; rfl
  | quotient n d => rw [unit_quotient]; rfl

/-- The factors of products are compared at unit scale. -/
theorem compareWith_true (f g : Fn α) : compareWith true f g = f.unit.compare g.unit := by
  unfold compare
  induction f generalizing g with
  | zero | one | const v =>
    refine compareWith_congr_kind (kind_unit _) (kind_unit _) fun hk => ?_
    obtain ⟨w, hw⟩ := exists_value_of_kind rfl hk
    rw [compareWith_value rfl hw, compareWith_value (value?_unit rfl) (value?_unit hw)]
    rfl
  | undefined =>
    refine compareWith_congr_kind (kind_unit _) (kind_unit _) fun hk => ?_
    obtain rfl := eq_undefined_of_kind hk
    rw [unit_of_scale_one rfl]
    simp [compareWith, value?]
  | plain k s | chain k s f =>
    refine compareWith_congr_kind (kind_unit _) (kind_unit _) fun hk => ?_
    obtain ⟨k', s', inner', -, rfl⟩ := exists_unary_of_kind hk
    rw [unit_unary, unit_unary, compareWith_unary, compareWith_unary]
    rfl
  | sum ts =>
    refine compareWith_congr_kind (kind_unit _) (kind_unit _) fun hk => ?_
    obtain ⟨us, rfl⟩ := exists_sum_of_kind hk
    rw [unit_of_scale_one rfl, unit_of_scale_one rfl, compareWith_sum, compareWith_sum]
  | product fs =>
    refine compareWith_congr_kind (kind_unit _) (kind_unit _) fun hk => ?_
    obtain ⟨gs, rfl⟩ := exists_product_of_kind hk
    rw [unit_of_scale_one rfl, unit_of_scale_one rfl, compareWith_product, compareWith_product]
  | quotient n d ihn =>
    refine compareWith_congr_kind (kind_unit _) (kind_unit _) fun hk => ?_
    obtain ⟨n', d', rfl⟩ := exists_quotient_of_kind hk
    rw [unit_quotient, unit_quotient, compareWith_quotient, compareWith_quotient, ihn]
  | piecewise segments =>
    refine compareWith_congr_kind (kind_unit _) (kind_unit _) fun hk => ?_
    obtain ⟨ts, rfl⟩ := exists_piecewise_of_kind hk
    rw [unit_of_scale_one rfl, unit_of_scale_one rfl, compareWith_piecewise,
      compareWith_piecewise]

/-! ## Sorting -/

omit [LawfulScalar α] in
/-- Comparison by way of kinds never fails, because functions of one rank are of one kind. -/
theorem compareTo_eq (f g : Fn α) : f.compareTo g = .ok (f.compare g) := by
  unfold compareTo compareWithinKind compare
  rw [compareWith_kind]
  cases h : Ord.compare f.kind.rank g.kind.rank with
  | eq => simp [Kind.rank_injective (Nat.compare_eq_eq.1 h)]
  | _ => simp

theorem less_eq_false_iff {f g : Fn α} : g.less f = false ↔ (f.compare g).isLE = true :=
  beq_lt_eq_false_iff (compareWith_swap false)

theorem compare_eq_of_isLE {f g : Fn α} (h : (f.compare g).isLE = true)
    (h' : (g.compare f).isLE = true) : f.compare g = .eq := by
  have hswap : g.compare f = (f.compare g).swap := compareWith_swap false f g
  rw [hswap] at h'
  cases hc : f.compare g <;> simp_all

/-- Functions without NaN are ordered. -/
theorem orders_hasNoNaN : Orders (less : Fn α → Fn α → Bool) HasNoNaN :=
  orders_of_consistent (compareWith_swap false) (compareWith_consistent false)

/-- Functions without NaN are totally ordered: comparison always has an answer, and it says that
functions are equal just if they are. A list of them has one order up to equality, and sorting
brings it into that order. -/
theorem compareTo_totally_orders {f g h : Fn α} (hf : f.HasNoNaN) (hg : g.HasNoNaN)
    (hh : h.HasNoNaN) {fs gs : List (Fn α)} (hfs : ∀ f ∈ fs, f.HasNoNaN) (hperm : gs.Perm fs) :
    f.compareTo g = .ok (f.compare g) ∧
    (f.compare g = .eq ↔ (f == g) = true) ∧
    g.compare f = (f.compare g).swap ∧
    ((f.compare g).isLE = true → (g.compare h).isLE = true → (f.compare h).isLE = true) ∧
    (f.relations g).greater = g.less f ∧
    [f.less g, f == g, g.less f].count true = 1 ∧
    (sort fs).Perm fs ∧
    (sort fs).Pairwise (fun f g => (f.compare g).isLE = true) ∧
    List.Forall₂ (fun f g => (f == g) = true) (sort fs) (sort gs) := by
  have heq := compare_eq_iff hf hg
  have hswap : g.compare f = (f.compare g).swap := compareWith_swap false f g
  have hbeq : (f == g) = (f.compare g == .eq) := by
    rw [Bool.eq_iff_iff, ← heq, beq_iff_eq]
  have hsorted := sortStable_ascending orders_hasNoNaN hfs
  have hgs : ∀ g ∈ gs, g.HasNoNaN := fun g hg => hfs g (hperm.mem_iff.1 hg)
  refine ⟨compareTo_eq f g, heq, hswap, (compareWith_consistent false hf hg hh).isLE, ?_, ?_,
    sortStable_perm less fs, ?_, ?_⟩
  · unfold relations Relations.ofLess less
    rw [hbeq, hswap]
    cases f.compare g <;> rfl
  · unfold less
    rw [hbeq, hswap]
    cases f.compare g <;> rfl
  · exact hsorted.pairwise.imp less_eq_false_iff.1
  · have hsame := hsorted.forall₂_of_perm orders_hasNoNaN
      (sortStable_ascending orders_hasNoNaN hgs)
      ((sortStable_perm less fs).trans (hperm.symm.trans (sortStable_perm less gs).symm))
    refine hsame.imp fun f g ⟨hf, hg, hfg, hgf⟩ => (compare_eq_iff hf hg).1 ?_
    rw [less_eq_false_iff] at hfg hgf
    exact compare_eq_of_isLE hgf hfg

theorem hasNoNaN_identity : (identity : Fn α).HasNoNaN := by
  simp [HasNoNaN, identity, Kernel.parameters, LawfulScalar.isNaN_one]

theorem compareTo_totally_orders_doubles :
    (identity : Fn Float).compareTo (sum [identity]) =
      .ok ((identity : Fn Float).compare (sum [identity])) ∧
    [(identity : Fn Float).less (sum [identity]), (identity : Fn Float) == sum [identity],
      (sum [identity] : Fn Float).less identity].count true = 1 ∧
    List.Forall₂ (fun f g => (f == g) = true) (sort [(identity : Fn Float), undefined])
      (sort [undefined, identity]) := by
  have hidentity : (identity : Fn Float).HasNoNaN := hasNoNaN_identity
  have hundefined : (undefined : Fn Float).HasNoNaN := numbers_undefined
  have hsum : (sum [identity] : Fn Float).HasNoNaN :=
    (numbers_sum _).2 (List.forall_mem_singleton.2 hidentity)
  obtain ⟨hcompare, -, -, -, -, hone, -, -, hsort⟩ := compareTo_totally_orders hidentity hsum
    hundefined (by simp [hidentity, hundefined]) (.swap identity undefined [])
  exact ⟨hcompare, hone, hsort⟩

end FunctionAlgebra.Fn
