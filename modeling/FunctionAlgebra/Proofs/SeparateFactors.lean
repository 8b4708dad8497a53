import FunctionAlgebra.Proofs.Composed
import FunctionAlgebra.Proofs.LikeTerms
import FunctionAlgebra.Proofs.Ordered

/-!
# Which factors stay separate

Powers are multiplied if they have one base or one exponent. The order of functions compares their
bases first, so powers of one base lie side by side and are all merged. Powers with one exponent
need not lie side by side: they stay separate where a power with another exponent lies between them.

## Main definitions

* `Fn.SharesBase` — two functions are powers of one base.
* `Fn.Arranged` — factors that are no constants, grouped by kind, of which no two are powers of one
  base.

## Main statements

* `Fn.simplifyFinite_composes_arranged` — the factors of simplified products are arranged.
* `Fn.simplify_separates_factors` — which factors of a simplified product can be multiplied.
* `Fn.simplify_leaves_squares` — a simplified product with two squares.
-/

namespace FunctionAlgebra.Fn

variable {α : Type} [Scalar α] {f g h : Fn α}

/-! ## Powers of one base -/

inductive SharesBase : Fn α → Fn α → Prop where
  | powers {p q s t : α} {inner inner' : Option (Fn α)} (h : equalInner inner inner' = true) :
    SharesBase (unary (.power p) s inner) (unary (.power q) t inner')

/-- Factors that are no constants, grouped by kind, of which no two are powers of one base. -/
structure Arranged (fs : List (Fn α)) : Prop where
  kind : ∀ f ∈ fs, f.kind ≠ .constant
  ranked : fs.Pairwise fun f g => f.kind.rank ≤ g.kind.rank
  apart : fs.Pairwise fun f g => ¬ SharesBase f g

theorem value?_eq_none_iff : f.value? = none ↔ f.kind ≠ .constant := by
  cases f with
  | unary k s inner => cases k <;> simp [value?, kind, Kernel.kind]
  | _ => simp [value?, kind]

/-- Multiples by numbers other than zero are of the same kind. -/
theorem kind_scaleBy {c : α} (hc : (c == 0) = false) (hf : f.kind ≠ .constant) :
    (f.scaleBy c).kind = f.kind := by
  cases f with
  | zero | one | const v => exact (hf rfl).elim
  | unary k s inner =>
    rw [scaleBy, if_neg (by simp [hc])]
    split
    · rfl
    · cases k <;> rfl
  | undefined => rfl
  | _ =>
    rw [scaleBy, if_neg (by simp [hc])]
    split <;> rfl

theorem exists_unary_of_atScale {k : Kernel α} {s p : α} (h : k.atScale s = .power p) :
    ∃ q, k = .power q := by
  cases k <;> cases h
  exact ⟨_, rfl⟩

theorem SharesBase.of_scaleBy {c : α} (hc : (c == 0) = false) (hf : f.kind ≠ .constant)
    (h : SharesBase (f.scaleBy c) g) : SharesBase f g := by
  have hkind := kind_scaleBy hc hf
  cases f with
  | zero | one | const v => exact (hf rfl).elim
  | unary k s inner =>
    rw [scaleBy, if_neg (by simp [hc])] at h
    split at h
    · exact h
    · generalize hs : scaled k (s * c) inner = m at h
      cases h with
      | powers hi =>
        injection hs with hk _ hinner
        obtain ⟨q, rfl⟩ := exists_unary_of_atScale hk
        subst hinner
        exact .powers hi
  | _ =>
    generalize hm : scaleBy c _ = m at h hkind
    cases h
    cases hkind

variable [LawfulScalar α]

theorem SharesBase.of_unit (h : SharesBase f.unit g.unit) : SharesBase f g := by
  have hunary {f : Fn α} {p s : α} {inner : Option (Fn α)}
      (h : f.unit = unary (.power p) s inner) : ∃ t, f = unary (.power p) t inner := by
    have hkind := (kind_unit f).symm.trans (congrArg kind h)
    cases f with
    | unary k t i =>
      rw [unit_unary] at h
      injection h with hk _ hi
      exact ⟨t, by rw [hk, hi]⟩
    | _ => cases hkind
  generalize hf : f.unit = f', hg : g.unit = g' at h
  cases h with
  | powers hi =>
    obtain ⟨s, rfl⟩ := hunary hf
    obtain ⟨t, rfl⟩ := hunary hg
    exact .powers hi

theorem equalInner_iff_beq {inner inner' : Option (Fn α)} : equalInner inner inner' = true ↔
    (unary .exponential 1 inner == unary .exponential 1 inner') = true := by
  rw [unit_unary_beq_iff]
  exact ⟨fun h => ⟨rfl, h⟩, And.right⟩

theorem equalInner_trans {inner inner' inner'' : Option (Fn α)}
    (h : equalInner inner inner' = true) (h' : equalInner inner' inner'' = true) :
    equalInner inner inner'' = true := by
  rw [equalInner_iff_beq] at h h' ⊢
  exact PartialEquivBEq.trans h h'

theorem SharesBase.symm (h : SharesBase f g) : SharesBase g f := by
  cases h with
  | powers hi =>
    rw [equalInner_iff_beq] at hi
    exact .powers (equalInner_iff_beq.2 (PartialEquivBEq.symm hi))

theorem SharesBase.of_countsAs (hgh : SharesBase g h) (hfg : f.CountsAs g) : SharesBase f h := by
  rcases hfg with rfl | hfg
  · exact hgh
  cases hgh with
  | powers hi =>
    obtain ⟨k, s, inner, hk, rfl⟩ := exists_unary_of_kind (kind_of_beq hfg).symm
    rw [unary_beq_unary, Bool.and_eq_true] at hfg
    cases k <;> cases hk
    exact .powers (equalInner_trans hfg.2 hi)

omit [LawfulScalar α] in
theorem kind_of_countsAs (h : f.CountsAs g) : f.kind = g.kind := h.elim (congrArg kind) kind_of_beq

theorem factorLaw_arranged : FactorLaw (Arranged : List (Fn α) → Prop) where
  scaleBy {c f fs} hc h := by
    obtain ⟨hkind, hranked, hapart⟩ := h
    rw [List.forall_mem_cons] at hkind
    rw [List.pairwise_cons] at hranked hapart
    have hk := kind_scaleBy hc hkind.1
    exact {
      kind := List.forall_mem_cons.2 ⟨hk ▸ hkind.1, hkind.2⟩
      ranked := .cons (hk ▸ hranked.1) hranked.2
      apart := .cons (fun g hg h => hapart.1 g hg (h.of_scaleBy hc hkind.1)) hapart.2 }
  congr {fs gs} hall h := {
    kind := fun g hg => by
      obtain ⟨f, hf, hfg⟩ := exists_mem_of_forall₂ hall hg
      exact kind_of_countsAs hfg ▸ h.kind f hf
    ranked := pairwise_of_forall₂ hall h.ranked fun f g f' g' hf hg hfg => by
      rwa [← kind_of_countsAs hf, ← kind_of_countsAs hg]
    apart := pairwise_of_forall₂ hall h.apart fun f g f' g' hf hg hfg h =>
      hfg ((h.of_countsAs hf).symm.of_countsAs hg).symm }

/-- What lies in order between two powers of one base is a power of this base. -/
theorem SharesBase.of_between (hfh : SharesBase f h) (hf : f.HasNoNaN) (hg : g.HasNoNaN)
    (hh : h.HasNoNaN) (hfg : (f.compare g).isLE = true) (hgh : (g.compare h).isLE = true) :
    SharesBase f g := by
  cases hfh with
  | @powers p q s t inner inner' hi =>
    obtain ⟨hk, hk'⟩ := kind_of_between hfg hgh rfl
    obtain ⟨k, r, i, hk, rfl⟩ := exists_unary_of_kind hk
    cases k <;> cases hk
    have hnan := ((numbers_unary ..).1 hf).2.2
    have hnan' := ((numbers_unary ..).1 hg).2.2
    have hnan'' := ((numbers_unary ..).1 hh).2.2
    have hconsistent := compareInner_consistent_of_hasNoNaN hnan hnan' hnan''
    simp only [compare, compareWith_unary, Kernel.kind, Nat.compare_eq_eq.2, Ordering.eq_then]
      at hfg hgh
    have heq := hconsistent.eq_of_between hfg hgh
      ((compareInner_eq_iff_of_hasNoNaN hnan hnan'').2 hi)
    exact .powers ((compareInner_eq_iff_of_hasNoNaN hnan hnan').1 heq.1)

omit [LawfulScalar α] in
theorem Arranged.of_append {fs gs : List (Fn α)} (h : Arranged (fs ++ gs)) : Arranged gs where
  kind f hf := h.kind f (by simp [hf])
  ranked := (List.pairwise_append.1 h.ranked).2.1
  apart := (List.pairwise_append.1 h.apart).2.1

/-! ## Merged factors -/

open Exact (real)

theorem rank_le_of_less {f g : Fn Exact} (h : g.less f = false) : f.kind.rank ≤ g.kind.rank := by
  by_contra hlt
  have hgt : Ord.compare f.kind.rank g.kind.rank = .gt := Nat.compare_eq_gt.2 (by omega)
  rw [less_eq_false_iff, Fn.compare, compareWith_kind, hgt] at h
  cases h

/-- Merged factors, without constants and coefficients, are arranged. -/
theorem Settled.arranged {fs : List (Fn Exact)}
    (h : Settled (fun f g => mergeMultiply? f g = none) fs) : Arranged (splitCoefficient fs).2 := by
  have hnan : ∀ f ∈ fs, f.HasNoNaN := fun f hf => (h.normal f hf).reduced.hasNoNaN
  have hapart : fs.Pairwise fun f g => ¬ SharesBase f g := by
    refine pairwise_of_isChain (fun f hf g hg h hh hfg hgh hfh => ?_) h.ordered
      (h.apart.imp fun f g hfg hshares => ?_)
    · exact hfh.of_between (hnan f hf) (hnan g hg) (hnan h hh) (less_eq_false_iff.1 hfg)
        (less_eq_false_iff.1 hgh)
    · cases hshares with
      | powers hi => simp [mergeMultiply?, hi] at hfg
  rw [splitCoefficient, splitCoefficientFrom_snd]
  refine ⟨List.forall_mem_map.2 fun f hf => ?_, ?_, ?_⟩
  · rw [kind_unit, ← value?_eq_none_iff]
    simpa using (List.mem_filter.1 hf).2
  · rw [List.pairwise_map]
    exact (h.ordered.filter _).imp fun hfg => by simpa [kind_unit] using rank_le_of_less hfg
  · rw [List.pairwise_map]
    exact (hapart.filter _).imp fun hfg hshares => hfg hshares.of_unit

theorem splitsInto_arranged {simplify : Fn Exact → Attempt Exact (Fn Exact)}
    (hs : Normalizes simplify) : SplitsInto Arranged Normal simplify where
  factors f := (hs f).mono fun _ => toFactors_normal
  units {fs} hfs := by
    have hunits : ∀ f ∈ (splitCoefficient fs).2, f.Normal := fun f hf =>
      have hunit := isUnitFactor_splitCoefficient (fun f hf => (hfs f hf).reduced) f hf
      hunit.reduced.normal (by simp [hunit.value?])
    refine (mergeNeighbours_settled hs _ hunits).mono fun merged hm => ?_
    exact Settled.arranged ⟨hm.normal, hm.ordered, hm.apart.imp fun _ _ => Attempt.pure_eq_ok_iff.1⟩

/-- Among finite numbers, the factors of simplified products are arranged. -/
theorem simplifyFinite_composes_arranged (n : Nat) :
    Composes (fun _ => True) Arranged (simplifyFinite n : Fn Exact → Attempt Exact (Fn Exact)) := by
  induction n with
  | zero => exact fun f => .throw trivial
  | succ n ih =>
    refine fun f => .of_forall_ok fun g hg => ?_
    exact (simplifyStep_composed termLaw_true factorLaw_arranged ih (splitsInto_arranged
      (simplifyFinite_normalizes n)) f).of_ok (simplifyFinite_succ_eq_ok_iff.1 hg).1

/-! ## Simplified products -/

/-- Two powers with one exponent but different bases, and between them, right after the first one, a
power with another exponent. -/
inductive HeldApart : Fn Exact → List (Fn Exact) → Fn Exact → Prop where
  | powers {p q s t r : Exact} {inner inner' inner'' : Option (Fn Exact)} {rest : List (Fn Exact)}
    (hi : equalInner inner inner' = false) (hq : q ≠ p) :
    HeldApart (unary (.power p) s inner) (unary (.power q) r inner'' :: rest)
      (unary (.power p) t inner')

/-- What lies between powers in a list that is grouped by kind is a power. -/
theorem exists_power_of_rank {f : Fn Exact} (h : Kind.rank .power ≤ f.kind.rank)
    (h' : f.kind.rank ≤ Kind.rank .power) : ∃ q r inner, f = unary (.power q) r inner := by
  have hkind : f.kind = .power := Kind.rank_injective (Nat.le_antisymm h' h)
  cases f with
  | unary k r inner =>
    cases k <;> cases hkind
    exact ⟨_, _, _, rfl⟩
  | _ => cases hkind

/-- Arranged factors that can be multiplied, while no two neighbours can, are held apart. -/
theorem Arranged.heldApart {f g : Fn Exact} {between after : List (Fn Exact)}
    (h : Arranged (f :: (between ++ g :: after))) (hu : f.isUndefined = false)
    (hapart : (f :: (between ++ g :: after)).IsChain fun f g => mergeMultiply? f g = none)
    (hfg : mergeMultiply? f g ≠ none) : HeldApart f between g := by
  obtain ⟨m, hm⟩ := Option.ne_none_iff_exists'.1 hfg
  have hranked := h.ranked
  have hshares : ¬ SharesBase f g := (List.pairwise_cons.1 h.apart).1 g (by simp)
  cases multiplied_of_mergeMultiply? hm with
  | absorbed => cases hu
  | values hv => exact (h.kind f (by simp) (kind_of_value? hv)).elim
  | exponents hi => exact (hshares (.powers hi)).elim
  | @bases p s inner q t inner' hi hp =>
    obtain ⟨rfl, -⟩ := Exact.beq_iff.1 hp
    cases between with
    | nil => exact (hfg (List.isChain_cons_cons.1 hapart).1).elim
    | cons b rest =>
      have hlow : Kind.rank .power ≤ b.kind.rank := (List.pairwise_cons.1 hranked).1 b (by simp)
      have hhigh : b.kind.rank ≤ Kind.rank .power :=
        (List.pairwise_cons.1 (List.pairwise_cons.1 hranked).2).1 (unary (.power p) t inner')
          (by simp)
      obtain ⟨q, r, inner'', rfl⟩ := exists_power_of_rank hlow hhigh
      refine .powers hi ?_
      rintro rfl
      have hnext := mergeMultiply?_eq_none_iff.1 (List.isChain_cons_cons.1 hapart).1
      cases heq : equalInner inner inner'' with
      | true => exact (hnext _ (.exponents heq)).elim
      | false => exact (hnext _ (.bases heq hp)).elim

/-- If the simplified form of a product is a product, it has at least two factors, none of them is
a constant or undefined, and only the first has a coefficient. Two of the factors can be multiplied
only if they are powers with one exponent but different bases, and the next factor after the first
of them is a power with another exponent. -/
theorem simplify_separates_factors {fs gs : List (Fn Exact)} (hs : (product fs).StaysFinite)
    (h : (product fs).simplify.outcome = .ok (product gs)) :
    2 ≤ gs.length ∧ (∀ g ∈ gs, g.value? = none ∧ g.isUndefined = false) ∧
    (∀ g ∈ gs.tail, g.scale = 1) ∧
    ∀ before f between g after, gs = before ++ f :: (between ++ g :: after) →
      mergeMultiply? f g = none ∨ HeldApart f between g := by
  obtain ⟨n, g, hn⟩ := hs
  obtain rfl : g = product gs := Except.ok.inj ((simplify_of_simplifyFinite hn).symm.trans h)
  have harranged := ((simplifyFinite_composes_arranged n _).of_ok hn).factors.2
  have hreduced := ((simplifyFinite_normalizes n _).of_ok hn).reduced
  cases gs with
  | nil => exact (not_reduced_product_nil hreduced).elim
  | cons g gs =>
    obtain ⟨hne, -, hu, hv, hone, hapart⟩ := reduced_product_iff.1 hreduced
    refine ⟨?_, fun f hf => ⟨hv f hf, hu f hf⟩, hone, ?_⟩
    · have := List.length_pos_of_ne_nil hne
      simp only [List.length_cons]
      omega
    · intro before f between g' after heq
      rw [heq] at harranged hapart hu
      exact or_iff_not_imp_left.2 (harranged.of_append.heldApart (hu f (by simp))
        hapart.right_of_append)

/-! ## Powers of one exponent that stay separate -/

def powers (p q : α) : List (Fn α) :=
  [unary (.power p) 1 none, unary (.power q) 1 (some (unary (.sine 1 0) 1 none)),
    unary (.power p) 1 (some (unary .exponential 1 none))]

variable {p q : ℝ}

theorem powers_reduced (hp : p ≠ 0) (hp1 : p ≠ 1) (hq : q ≠ 0) (hq1 : q ≠ 1) (hpq : p ≠ q) :
    (product (powers (real p) (real q))).Reduced := by
  have hvaries {p : ℝ} (hp : p ≠ 0) : (Kernel.power (real p)).Varies := by
    simpa [Kernel.Varies] using hp
  have hchain {p : ℝ} {k : Kernel Exact} (hp : p ≠ 0) (hp1 : p ≠ 1) (hk : k.Varies)
      (hr : ∀ q ∈ k.parameters, q.IsReal) (hid : (unary k 1 none).isIdentity = false) :
      (unary (.power (real p)) 1 (some (unary k 1 none))).Reduced :=
    .chain one_ne_zero (by simp [Kernel.parameters]) (hvaries hp)
      (by simpa [Exact.one_eq] using hp1) (.plain one_ne_zero hr hk) rfl rfl hid
  refine .product (by simp) ?_ ?_ ?_ ?_ ?_
  · simp only [List.forall_mem_cons]
    refine ⟨.plain one_ne_zero (by simp [Kernel.parameters]) (hvaries hp), ?_, ?_, by simp⟩
    · exact hchain hq hq1 (by simp [Kernel.Varies, Exact.zero_eq, Exact.one_eq])
        (by simp [Kernel.parameters]) rfl
    · exact hchain hp hp1 trivial (by simp [Kernel.parameters]) rfl
  · simp [isUndefined]
  · simp [value?]
  · simp [scale]
  · refine .cons_cons ?_ (.cons_cons ?_ (.singleton _))
    · simp [mergeMultiply?, equalInner, hpq]
    · refine mergeMultiply?_eq_none_iff.2 fun m hm => ?_
      cases hm with
      | exponents hi => cases kind_of_beq hi
      | bases _ hqp => simp [hpq.symm] at hqp
      | values hv => cases hv

theorem powers_ordered (p q : Exact) : (product (powers p q)).Ordered := by
  have hunit {k : Kernel Exact} {inner : Option (Fn Exact)} :
      (unary k 1 inner).unit = unary k 1 inner := unit_of_scale_one rfl
  have hless {p q : Exact} {inner inner' : Option (Fn Exact)}
      (h : compareInner inner inner' = .lt) :
      (unary (.power q) 1 inner').less (unary (.power p) 1 inner) = false := by
    rw [less_eq_false_iff, Fn.compare, compareWith_unary, h]
    rfl
  refine .product ?_ (by simp [powers, kind, Kernel.kind]) ?_
  · simp only [powers, List.forall_mem_cons]
    exact ⟨.plain, .chain .plain, .chain .plain, by simp⟩
  · have hinner : compareInner (some (unary (.sine 1 0) (1 : Exact) none))
        (some (unary .exponential 1 none)) = .lt :=
      compare_of_rank_lt (by simp [kind, Kernel.kind, Kind.rank])
    simp only [powers, List.map_cons, List.map_nil, hunit, List.pairwise_cons, List.forall_mem_cons]
    exact ⟨⟨hless rfl, hless rfl, by simp⟩, ⟨hless hinner, by simp⟩, by simp, .nil⟩

/-- The product of these powers is its own simplified form. -/
theorem simplify_powers (hp : p ≠ 0) (hp1 : p ≠ 1) (hq : q ≠ 0) (hq1 : q ≠ 1) (hpq : p ≠ q) :
    (product (powers (real p) (real q))).StaysFinite ∧
      (product (powers (real p) (real q))).simplify.outcome =
        .ok (product (powers (real p) (real q))) := by
  have hplain {k : Kernel Exact} {s : Exact} {f : Fn Exact}
      (h : (unary k s none).forget = f.forget) : unary k s none = f := by
    obtain ⟨inner, rfl, hi⟩ := exists_unary_of_forget h
    rw [Option.map_none, eq_comm, Option.map_eq_none_iff] at hi
    rw [hi]
  have hchain {k k' : Kernel Exact} {s s' : Exact} {f : Fn Exact}
      (h : (unary k s (some (unary k' s' none))).forget = f.forget) :
      unary k s (some (unary k' s' none)) = f := by
    obtain ⟨inner, rfl, hi⟩ := exists_unary_of_forget h
    obtain ⟨g, rfl, hg⟩ := Option.map_eq_some_iff.1 hi.symm
    rw [hplain hg.symm]
  obtain ⟨n, g, hn, hg⟩ :=
    (powers_reduced hp hp1 hq hq1 hpq).exists_simplifyFinite (powers_ordered ..)
  obtain ⟨gs, rfl, hgs⟩ := exists_product_of_forget hg.symm
  have heq : powers (real p) (real q) = gs := by
    obtain ⟨a, as, rfl, ha, has⟩ := List.map_eq_cons_iff.1 hgs.symm
    obtain ⟨b, bs, rfl, hb, hbs⟩ := List.map_eq_cons_iff.1 has
    obtain ⟨c, cs, rfl, hc, hcs⟩ := List.map_eq_cons_iff.1 hbs
    obtain rfl := List.map_eq_nil_iff.1 hcs
    rw [powers, hplain ha.symm, hchain hb.symm, hchain hc.symm]
  subst heq
  exact ⟨⟨n, _, hn⟩, simplify_of_simplifyFinite hn⟩

theorem simplify_squares : (product (powers (real 2) (real 3))).StaysFinite ∧
    (product (powers (real 2) (real 3))).simplify.outcome =
      .ok (product (powers (real 2) (real 3))) :=
  simplify_powers two_ne_zero (by norm_num) three_ne_zero (by norm_num) (by norm_num)

theorem mergeMultiply?_squares : mergeMultiply? (unary (.power (real 2)) 1 none)
    (unary (.power (real 2)) 1 (some (unary .exponential 1 none))) ≠ none := by
  simp [mergeMultiply?, equalInner]

/-- In the product of `x ^ 2`, `(sin x) ^ 3` and `(exp x) ^ 2`, the squares are held apart by the
cube. -/
theorem simplify_separates_factors_squares :
    (product (powers (real 2) (real 3))).StaysFinite ∧
    (product (powers (real 2) (real 3))).simplify.outcome =
      .ok (product (powers (real 2) (real 3))) ∧
    HeldApart (unary (.power (real 2)) 1 none)
      [unary (.power (real 3)) 1 (some (unary (.sine 1 0) 1 none))]
      (unary (.power (real 2)) 1 (some (unary .exponential 1 none))) := by
  obtain ⟨hfinite, hsimplify⟩ := simplify_squares
  refine ⟨hfinite, hsimplify, ?_⟩
  have hmerge := (simplify_separates_factors hfinite hsimplify).2.2.2 [] _ [_] _ [] rfl
  exact hmerge.resolve_left mergeMultiply?_squares

/-- This product is simplified, and its first factor can be multiplied with the last one. -/
theorem simplify_leaves_squares :
    (product (powers (real 2) (real 3))).StaysFinite ∧
    ∃ f g h, (product (powers (real 2) (real 3))).simplify.outcome = .ok (product [f, g, h]) ∧
      mergeMultiply? f h ≠ none := by
  obtain ⟨hfinite, hsimplify⟩ := simplify_squares
  exact ⟨hfinite, _, _, _, hsimplify, mergeMultiply?_squares⟩

end FunctionAlgebra.Fn
