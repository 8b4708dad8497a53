import FunctionAlgebra.Proofs.Indistinguishable
import FunctionAlgebra.Proofs.MergeCases

/-!
# Like terms lie side by side

The order of functions compares first what like terms have in common, and their coefficients last.
So whatever lies between two like terms in a sorted list is a like term too, and where no two
neighbours can be added, no two terms can.

## Main definitions

* `Fn.HasUnitTail` — only the first factor of a product has a coefficient.

## Main statements

* `pairwise_of_isChain` — what keeps neighbours in a sorted list apart keeps all items apart.
* `Fn.Addable.of_between` — what lies between two functions that can be added can be added.
* `Fn.Addable.congr_beq` — functions equal to two that can be added can be added.
-/

namespace FunctionAlgebra

/-- What holds between no two neighbours in a list that is sorted by `S` holds between no two of its
items, if with two items it also holds between the first and all that are sorted in between. -/
theorem pairwise_of_isChain {β : Type} {R S : β → β → Prop} {xs : List β}
    (hR : ∀ x ∈ xs, ∀ y ∈ xs, ∀ z ∈ xs, S x y → S y z → R x z → R x y) (hS : xs.Pairwise S)
    (h : xs.IsChain fun x y => ¬ R x y) : xs.Pairwise fun x y => ¬ R x y := by
  induction xs with
  | nil => exact .nil
  | cons x rest ih =>
    obtain ⟨hx, hrest⟩ := List.pairwise_cons.1 hS
    have htail := ih (fun a ha b hb c hc => hR a (by simp [ha]) b (by simp [hb]) c (by simp [hc]))
      hrest h.tail
    refine .cons (fun z hz hxz => ?_) htail
    cases rest with
    | nil => cases hz
    | cons y more =>
      have hxy := (List.isChain_cons_cons.1 h).1
      rcases List.mem_cons.1 hz with rfl | hz
      · exact hxy hxz
      · refine hxy (hR x (by simp) y (by simp) z (by simp [hz]) (hx y (by simp)) ?_ hxz)
        exact List.rel_of_pairwise_cons hrest hz

/-- Items are related if those in a list that is related to theirs are. -/
theorem pairwise_of_forall₂ {β γ : Type} {S : β → γ → Prop} {R : β → β → Prop} {R' : γ → γ → Prop}
    {xs : List β} {ys : List γ} (h : List.Forall₂ S xs ys) (hxs : xs.Pairwise R)
    (hR : ∀ x y x' y', S x x' → S y y' → R x y → R' x' y') : ys.Pairwise R' := by
  induction h with
  | nil => exact .nil
  | cons hx hrest ih =>
    rw [List.pairwise_cons] at hxs
    refine .cons (fun y' hy' => ?_) (ih hxs.2)
    obtain ⟨y, hy, hyy'⟩ := exists_mem_of_forall₂ hrest hy'
    exact hR _ _ _ _ hx hyy' (hxs.1 y hy)

/-- What lies between two items whose comparison finds no difference in its first part does not
differ from them in that part. -/
theorem Consistent.eq_of_between {a b c a' b' : Ordering} (h : Consistent a b c)
    (ha : (a.then a').isLE = true) (hb : (b.then b').isLE = true) (hc : c = .eq) :
    a = .eq ∧ b = .eq := by
  subst hc
  cases a <;> cases b <;> simp_all [Consistent]

namespace Fn

variable {α : Type} [Scalar α]

/-- The factors of a product but the first have scale one, or zero. -/
def HasUnitTail : Fn α → Prop
  | product fs => ∀ f ∈ fs.tail, (f.scale == 0 || f.scale == 1) = true
  | _ => True

variable [LawfulScalar α] {f g h : Fn α}

/-! ## Unit copies -/

theorem HasNoNaN.unit (hf : f.HasNoNaN) : f.unit.HasNoNaN := by
  have hscale (s : α) (hs : Scalar.isNaN s = false) : Scalar.isNaN (unitScale s) = false :=
    isNaN_scaleKey true hs
  induction f with
  | zero | one | const v => exact hasNoNaN_of_value (value?_unit rfl) (hscale _ (hf.value rfl))
  | undefined | sum | product | piecewise => rwa [unit_of_scale_one rfl]
  | plain k s | chain k s f =>
    rw [unit_unary]
    rw [HasNoNaN, numbers_unary] at hf ⊢
    exact ⟨hscale s hf.1, hf.2⟩
  | quotient n d ihn =>
    rw [unit_quotient]
    exact (numbers_quotient ..).2 ⟨ihn hf.parts.1, hf.parts.2⟩

theorem unit_beq_iff (hf : f.HasNoNaN) (hg : g.HasNoNaN) :
    (f.unit == g.unit) = true ↔ compareWith true f g = .eq := by
  rw [compareWith_true, compare_eq_iff hf.unit hg.unit]

/-- Equal functions have equal unit copies. -/
theorem unit_beq_of_beq (h : (f == g) = true) : (f.unit == g.unit) = true := by
  obtain ⟨hf, hg⟩ := hasNoNaN_of_beq h
  rw [unit_beq_iff hf hg]
  exact (Ordering.then_eq_eq.1 ((compareWith_then_eq_iff true hf hg).2 h)).1

/-! ## What lies between functions of one kind -/

omit [LawfulScalar α] in
theorem kind_of_between (hfg : (f.compare g).isLE = true) (hgh : (g.compare h).isLE = true)
    (hk : f.kind = h.kind) : f.kind = g.kind ∧ g.kind = h.kind := by
  rw [compare, compareWith_kind] at hfg hgh
  obtain ⟨hfg, hgh⟩ := (compareNat_consistent _ _ _).eq_of_between hfg hgh
    (Nat.compare_eq_eq.2 (congrArg Kind.rank hk))
  rw [Nat.compare_eq_eq] at hfg hgh
  exact ⟨Kind.rank_injective hfg, Kind.rank_injective hgh⟩

theorem compareInner_consistent_of_hasNoNaN {inner inner' inner'' : Option (Fn α)}
    (hi : ∀ f ∈ inner, f.HasNoNaN) (hi' : ∀ f ∈ inner', f.HasNoNaN)
    (hi'' : ∀ f ∈ inner'', f.HasNoNaN) :
    Consistent (compareInner inner inner') (compareInner inner' inner'')
      (compareInner inner inner'') :=
  compareInner_consistent fun f hf g hg h hh =>
    compareWith_consistent false (hi f hf) (hi' g hg) (hi'' h hh)

theorem compareInner_eq_iff_of_hasNoNaN {inner inner' : Option (Fn α)}
    (hi : ∀ f ∈ inner, f.HasNoNaN) (hi' : ∀ f ∈ inner', f.HasNoNaN) :
    compareInner inner inner' = .eq ↔ equalInner inner inner' = true :=
  compareInner_eq_iff fun f hf g hg => compare_eq_iff (hi f hf) (hi' g hg)

/-- Standard functions are compared by their inner functions and parameters first. -/
theorem Addable.of_between_unary {k k' k'' : Kernel α} {s s' s'' : α}
    {inner inner' inner'' : Option (Fn α)} (hk : k.kind = k'.kind) (hk' : k'.kind = k''.kind)
    (hf : (unary k s inner).HasNoNaN) (hg : (unary k' s' inner').HasNoNaN)
    (hh : (unary k'' s'' inner'').HasNoNaN)
    (hfg : ((unary k s inner).compare (unary k' s' inner')).isLE = true)
    (hgh : ((unary k' s' inner').compare (unary k'' s'' inner'')).isLE = true)
    (hbeq : (k == k'') = true) (hinner : equalInner inner inner'' = true) :
    Addable (unary k s inner) (unary k' s' inner') := by
  obtain ⟨-, hp, hi⟩ := (numbers_unary ..).1 hf
  obtain ⟨-, hp', hi'⟩ := (numbers_unary ..).1 hg
  obtain ⟨-, hp'', hi''⟩ := (numbers_unary ..).1 hh
  have hrank {l m : Kernel α} (h : l.kind = m.kind) :
      Ord.compare l.kind.rank m.kind.rank = .eq := Nat.compare_eq_eq.2 (congrArg Kind.rank h)
  simp only [compare, compareWith_unary, hrank hk, hrank hk', Ordering.eq_then,
    ← Ordering.then_assoc] at hfg hgh
  have hconsistent := (compareInner_consistent_of_hasNoNaN hi hi' hi'').then fun _ _ =>
    cmpList_consistent (length_parameters hk) (length_parameters hk') hp hp' hp''
  have hends := (compareInner_eq_iff_of_hasNoNaN hi hi'').2 hinner
  have hends' := (cmpList_eq_iff (length_parameters (hk.trans hk')) hp hp'').2
    (kernel_beq_iff.1 hbeq).2
  have heq := (hconsistent.eq_of_between hfg hgh (Ordering.then_eq_eq.2 ⟨hends, hends'⟩)).1
  rw [Ordering.then_eq_eq, compareInner_eq_iff_of_hasNoNaN hi hi',
    cmpList_eq_iff (length_parameters hk) hp hp'] at heq
  exact .scales (kernel_beq_iff.2 ⟨hk, heq.2⟩) heq.1

/-- Products are compared by the unit copies of their factors first. -/
theorem Addable.of_between_product {a c : Fn α} {as cs gs : List (Fn α)}
    (hf : (product (a :: as)).HasNoNaN) (hg : (product gs).HasNoNaN)
    (hh : (product (c :: cs)).HasNoNaN) (hft : (product (a :: as)).HasUnitTail)
    (hgt : (product gs).HasUnitTail)
    (hfg : ((product (a :: as)).compare (product gs)).isLE = true)
    (hgh : ((product gs).compare (product (c :: cs))).isLE = true)
    (hlike : equalAll as cs = true) (hunit : (a.unit == c.unit) = true) :
    Addable (product (a :: as)) (product gs) := by
  have hsame {fs gs : List (Fn α)} (hfs : ∀ f ∈ fs, f.HasNoNaN) (hgs : ∀ g ∈ gs, g.HasNoNaN) :
      (Ord.compare fs.length gs.length).then (compareEach (compareWith true) fs gs) = .eq ↔
        List.Forall₂ (fun f g => (f.unit == g.unit) = true) fs gs := by
    rw [compareNat_then_eq_iff]
    have hiff (hl : fs.length = gs.length) := compareEach_eq_iff (c := compareWith true) hl
      fun f hf g hg => (unit_beq_iff (hfs f hf) (hgs g hg)).symm
    exact ⟨fun h => (hiff h.1).1 h.2, fun h => ⟨h.length_eq, (hiff h.length_eq).2 h⟩⟩
  have hconsistent : Consistent
      ((Ord.compare (a :: as).length gs.length).then (compareEach (compareWith true) (a :: as) gs))
      ((Ord.compare gs.length (c :: cs).length).then (compareEach (compareWith true) gs (c :: cs)))
      ((Ord.compare (a :: as).length (c :: cs).length).then
        (compareEach (compareWith true) (a :: as) (c :: cs))) := by
    refine (compareNat_consistent _ _ _).then fun hl hl' => ?_
    refine compareEach_consistent (Nat.compare_eq_eq.1 hl) (Nat.compare_eq_eq.1 hl') ?_
    exact fun x hx y hy z hz => compareWith_consistent true (hf.factors x hx) (hg.factors y hy)
      (hh.factors z hz)
  simp only [compare, compareWith_product, ← Ordering.then_assoc] at hfg hgh
  have hheads : List.Forall₂ (fun f g => (f.unit == g.unit) = true) (a :: as) (c :: cs) :=
    .cons hunit ((equalAll_iff_forall₂.1 hlike).imp fun _ _ => unit_beq_of_beq)
  have heq := (hconsistent.eq_of_between hfg hgh ((hsame hf.factors hh.factors).2 hheads)).1
  cases (hsame hf.factors hg.factors).1 heq with
  | @cons _ b _ bs hab htails =>
    refine .heads (equalAll_iff_forall₂.2 ?_) hab
    refine (forall₂_and_of_forall_mem htails hft hgt).imp fun x y ⟨hxy, hx, hy⟩ => ?_
    rwa [unit_of_scale hx, unit_of_scale hy] at hxy

/-- What lies in order between two functions that can be added can be added to the first of them. -/
theorem Addable.of_between (hadd : Addable f h) (hu : f.isUndefined = false) (hf : f.HasNoNaN)
    (hg : g.HasNoNaN) (hh : h.HasNoNaN) (hft : f.HasUnitTail) (hgt : g.HasUnitTail)
    (hfg : (f.compare g).isLE = true) (hgh : (g.compare h).isLE = true) : Addable f g := by
  have hkind (hk : f.kind = h.kind) := kind_of_between hfg hgh hk
  cases hadd with
  | absorbed => cases hu
  | @scales k s inner k'' s'' inner'' hbeq hinner =>
    obtain ⟨hk, hk'⟩ := hkind (kernel_beq_iff.1 hbeq).1
    obtain ⟨_, _, _, -, rfl⟩ := exists_unary_of_kind hk
    exact of_between_unary hk hk' hf hg hh hfg hgh hbeq hinner
  | heads hlike hunit =>
    obtain ⟨_, rfl⟩ := exists_product_of_kind (hkind rfl).1
    exact of_between_product hf hg hh hft hgt hfg hgh hlike hunit
  | @numerators n d n' d' hd =>
    obtain ⟨m, e, rfl⟩ := exists_quotient_of_kind (hkind rfl).1
    have hconsistent := compareWith_consistent false hf.parts.2 hg.parts.2 hh.parts.2
    have heq := (hconsistent.eq_of_between hfg hgh
      ((compare_eq_iff hf.parts.2 hh.parts.2).2 hd)).1
    exact .numerators ((compare_eq_iff hf.parts.2 hg.parts.2).1 heq)
  | values hv hw =>
    have hk := (hkind ((kind_of_value? hv).trans (kind_of_value? hw).symm)).1
    obtain ⟨u, hu⟩ := exists_value_of_kind hv hk
    exact .values hv hu

/-! ## Equal functions -/

/-- Standard functions are alike but for their scales. -/
theorem unit_unary_beq_iff {k k' : Kernel α} {inner inner' : Option (Fn α)} :
    (unary k 1 inner == unary k' 1 inner') = true ↔
      (k == k') = true ∧ equalInner inner inner' = true := by
  rw [unary_beq_unary, LawfulScalar.one_beq_one, Bool.true_and, Bool.and_eq_true]

omit [LawfulScalar α] in
theorem product_beq_iff_equalAll {fs gs : List (Fn α)} :
    (product fs == product gs) = true ↔ equalAll fs gs = true := by
  rw [product_beq_product, equalAll_iff_forall₂]

/-- Functions equal to two that can be added can be added. -/
theorem Addable.congr_beq {f' g' : Fn α} (hadd : Addable f g) (hf : (f == f') = true)
    (hg : (g == g') = true) : Addable f' g' := by
  have trans {a b c d : Fn α} (hac : (a == c) = true) (hbd : (b == d) = true)
      (h : (a == b) = true) : (c == d) = true :=
    PartialEquivBEq.trans (PartialEquivBEq.symm hac) (PartialEquivBEq.trans h hbd)
  cases hadd with
  | absorbed =>
    obtain rfl := eq_undefined_of_kind (kind_of_beq hf)
    exact .absorbed
  | scales hk hi =>
    obtain ⟨_, _, _, -, rfl⟩ := exists_unary_of_kind (kind_of_beq hf)
    obtain ⟨_, _, _, -, rfl⟩ := exists_unary_of_kind (kind_of_beq hg)
    simp only [unary_beq_unary, Bool.and_eq_true] at hf hg
    obtain ⟨hk', hi'⟩ := unit_unary_beq_iff.1 (trans (unit_unary_beq_iff.2 ⟨hf.1.2, hf.2⟩)
      (unit_unary_beq_iff.2 ⟨hg.1.2, hg.2⟩) (unit_unary_beq_iff.2 ⟨hk, hi⟩))
    exact .scales hk' hi'
  | heads hlike hunit =>
    obtain ⟨_, rfl⟩ := exists_product_of_kind (kind_of_beq hf)
    obtain ⟨_, rfl⟩ := exists_product_of_kind (kind_of_beq hg)
    cases product_beq_product.1 hf with
    | cons ha has =>
      cases product_beq_product.1 hg with
      | cons hb hbs =>
        refine .heads ?_ (trans (unit_beq_of_beq ha) (unit_beq_of_beq hb) hunit)
        exact product_beq_iff_equalAll.1 (trans (product_beq_product.2 has)
          (product_beq_product.2 hbs) (product_beq_iff_equalAll.2 hlike))
  | numerators hd =>
    obtain ⟨_, _, rfl⟩ := exists_quotient_of_kind (kind_of_beq hf)
    obtain ⟨_, _, rfl⟩ := exists_quotient_of_kind (kind_of_beq hg)
    exact .numerators (trans (quotient_beq_quotient.1 hf).2 (quotient_beq_quotient.1 hg).2 hd)
  | values hv hw =>
    obtain ⟨v', hv'⟩ := exists_value_of_kind hv (kind_of_beq hf)
    obtain ⟨w', hw'⟩ := exists_value_of_kind hw (kind_of_beq hg)
    exact .values hv' hw'

end Fn

end FunctionAlgebra
