import FunctionAlgebra.Proofs.NodeCount
import FunctionAlgebra.Proofs.ReducedForm

/-!
# Sums of monomials

A sum of constants and multiples of powers of `x` is a polynomial. Its simplified form is a normal
form: like terms are collected whatever their order was, and nothing but the total coefficient at
each degree is left of the sum.

## Main definitions

* `Fn.IsMonomial` — constants and multiples of powers of `x` with natural exponents.
* `Fn.totalAt` — the total coefficient of some monomials at a degree.
* `Fn.term` — the simplified monomial with a degree and a coefficient.
* `Fn.IsSupport` — the degrees of a polynomial, in ascending order.
* `Fn.IsNormalForm` — the normal form of the polynomial with given coefficients.

## Main statements

* `Fn.mergeNeighbours_collects` — merging neighbours collects like terms, in ascending degree.
* `Fn.IsExpansion.beq_iff` — sums of collected terms are equal if and only if their coefficients
  are.
* `Fn.simplify_collects_monomials` — sums of monomials are simplified to normal forms.
-/

namespace FunctionAlgebra.Fn

open Exact (real)

variable {f g m : Fn Exact} {ts us : List (Fn Exact)}

/-! ## Monomials -/

inductive IsMonomial : Fn Exact → Prop where
  | constant {f : Fn Exact} {c : ℝ} (h : f.value? = some (real c)) : IsMonomial f
  | power (w : ℝ) (n : ℕ) : IsMonomial (power none (real w) (real n))

/-- The degree of a monomial. A power with coefficient zero has degree one. -/
noncomputable def degree : Fn Exact → ℕ
  | unary (.power p) _ none => ⌊p.toReal⌋₊
  | _ => 0

noncomputable def coefficientAt (n : ℕ) (f : Fn Exact) : ℝ :=
  if f.degree = n then f.coefficient else 0

noncomputable def totalAt (n : ℕ) (fs : List (Fn Exact)) : ℝ := (fs.map (coefficientAt n)).sum

@[simp] theorem totalAt_nil (n : ℕ) : totalAt n [] = 0 := rfl

@[simp] theorem totalAt_cons (n : ℕ) (f : Fn Exact) (fs : List (Fn Exact)) :
    totalAt n (f :: fs) = coefficientAt n f + totalAt n fs := by
  simp [totalAt]

@[simp] theorem coefficientAt_zero (n : ℕ) : coefficientAt n zero = 0 := by
  simp [coefficientAt, coefficient, value?]

@[simp] theorem degree_power (n : ℕ) (s : Exact) :
    (unary (.power (real n)) s none).degree = n := by
  simp [degree]

theorem degree_of_value {v : Exact} (h : f.value? = some v) : f.degree = 0 := by
  cases f with
  | zero | one | const w => rfl
  | _ => cases h

theorem coefficient_of_value {c : ℝ} (h : f.value? = some (real c)) : f.coefficient = c := by
  simp [coefficient, h]

theorem coefficientAt_of_value {c : ℝ} (h : f.value? = some (real c)) (n : ℕ) :
    coefficientAt n f = if n = 0 then c else 0 := by
  rw [coefficientAt, degree_of_value h, coefficient_of_value h]
  exact if_congr eq_comm rfl rfl

theorem coefficientAt_unary (n : ℕ) (c : ℝ) (k : ℕ) :
    coefficientAt k (unary (.power (real n)) (real c) none) = if k = n then c else 0 := by
  rw [coefficientAt, degree_power]
  exact if_congr eq_comm rfl rfl

/-- A power with coefficient zero has another exponent, but then it has coefficient zero at every
degree. -/
theorem coefficientAt_power (n : ℕ) (c : ℝ) (k : ℕ) :
    coefficientAt k (power none (real c) (real n)) = if k = n then c else 0 := by
  by_cases hc : c = 0
  · simp [hc, coefficientAt, coefficient, power, scaled, value?, scale]
  · have hpower : power none (real c) (real n) = unary (.power (real n)) (real c) none := by
      simp [power, scaled, Kernel.atScale, hc]
    rw [hpower, coefficientAt_unary]

/-! ## Simplified monomials -/

noncomputable def term (n : ℕ) (c : ℝ) : Fn Exact :=
  if c = 0 then zero else if n = 0 then ofValue (real c) else unary (.power (real n)) (real c) none

@[simp] theorem term_zero (n : ℕ) : term n 0 = zero := if_pos rfl

theorem term_constant (c : ℝ) : term 0 c = ofValue (real c) := by
  by_cases hc : c = 0
  · simp [hc, ofValue]
  · simp [term, hc]

theorem term_power {n : ℕ} {c : ℝ} (hn : n ≠ 0) (hc : c ≠ 0) :
    term n c = unary (.power (real n)) (real c) none := by
  simp [term, hn, hc]

def IsTerm (f : Fn Exact) : Prop := ∃ n c, f = term n c

/-- A simplified monomial is a constant or a power with a positive exponent. -/
theorem IsTerm.value_or_power (h : f.IsTerm) :
    (∃ c : ℝ, f.value? = some (real c)) ∨
      ∃ (n : ℕ) (c : ℝ), n ≠ 0 ∧ f = unary (.power (real n)) (real c) none := by
  obtain ⟨n, c, rfl⟩ := h
  by_cases hc : c = 0
  · exact .inl ⟨0, by simp [hc, value?, Exact.zero_eq]⟩
  by_cases hn : n = 0
  · exact .inl ⟨c, by rw [hn, term_constant, value?_ofValue (by simp)]⟩
  · exact .inr ⟨n, c, hn, term_power hn hc⟩

theorem IsTerm.exists_real {v : Exact} (h : f.IsTerm) (hv : f.value? = some v) :
    ∃ c, v = real c := by
  rcases h.value_or_power with ⟨c, hc⟩ | ⟨n, c, -, rfl⟩
  · exact ⟨c, Option.some.inj (hv.symm.trans hc)⟩
  · cases hv

theorem coefficientAt_term (n : ℕ) (c : ℝ) (k : ℕ) :
    coefficientAt k (term n c) = if k = n then c else 0 := by
  by_cases hc : c = 0
  · simp [hc]
  by_cases hn : n = 0
  · rw [hn, term_constant, coefficientAt_of_value (value?_ofValue (by simp))]
  · rw [term_power hn hc, coefficientAt_unary]

theorem degree_term {c : ℝ} (n : ℕ) (hc : c ≠ 0) : (term n c).degree = n := by
  by_cases hn : n = 0
  · rw [hn, term_constant, degree_of_value (value?_ofValue (by simp))]
  · rw [term_power hn hc, degree_power]

theorem hasNoNaN_term (n : ℕ) (c : ℝ) : (term n c).HasNoNaN := by
  unfold HasNoNaN
  by_cases hc : c = 0
  · simp [hc]
  by_cases hn : n = 0
  · rw [hn, term_constant]
    exact (normal_ofValue_real c).reduced.hasNoNaN
  · simp [term_power hn hc, Kernel.parameters]

theorem term_ne_zero {n : ℕ} {c : ℝ} (hc : c ≠ 0) : term n c ≠ zero := by
  intro h
  have hcoefficient := coefficientAt_term n c n
  rw [h, coefficientAt_zero, if_pos rfl] at hcoefficient
  exact hc hcoefficient.symm

/-- A monomial has a simplified form, with the same coefficients. -/
theorem simplify_monomial (h : f.IsMonomial) :
    f.simplify.Meets (fun _ => False) fun t =>
      t.IsTerm ∧ ∀ n, coefficientAt n t = coefficientAt n f := by
  rw [simplify_eq_simplifyStep]
  cases h with
  | @constant f c h =>
    rw [simplifyStep_of_value h, ← term_constant]
    refine .pure ⟨⟨0, c, rfl⟩, fun n => ?_⟩
    rw [coefficientAt_term, coefficientAt_of_value h]
  | power w n =>
    have hstep : simplifyStep simplify (power none (real w) (real n)) = pure (term n w) := by
      by_cases hw : w = 0
      · simp [hw, power, scaled, simplifyStep, simplifyStandard]
      by_cases hn : n = 0
      · simp [hw, hn, power, scaled, Kernel.atScale, simplifyStep, simplifyStandard,
          simplifyKernel, term_constant]
      · simp [hw, hn, power, scaled, Kernel.atScale, simplifyStep, simplifyStandard,
          simplifyKernel, term_power]
    rw [hstep]
    refine .pure ⟨⟨n, w, rfl⟩, fun k => ?_⟩
    rw [coefficientAt_term, coefficientAt_power]

/-! ## Like terms -/

/-- Like terms have a sum whose coefficient is the sum of theirs. -/
theorem added_terms {simplify : Fn Exact → Attempt Exact (Fn Exact)} (hf : f.IsTerm)
    (hg : g.IsTerm) (h : Added simplify f g m) :
    m.IsMonomial ∧ ∀ n, coefficientAt n m = coefficientAt n f + coefficientAt n g := by
  cases h with
  | absorbed | heads | numerators => simpa [value?] using hf.value_or_power
  | scales hk =>
    obtain ⟨n, c, -, hf⟩ := hf.value_or_power.resolve_left (by simp [value?])
    obtain ⟨n', c', -, hg⟩ := hg.value_or_power.resolve_left (by simp [value?])
    obtain ⟨rfl, rfl, rfl⟩ := unary.inj hf
    obtain ⟨rfl, rfl, rfl⟩ := unary.inj hg
    obtain rfl : n = n' := by simpa [Kernel.beq_iff, Kernel.parameters] using hk
    refine ⟨.power (c + c') n, fun k => ?_⟩
    rw [coefficientAt_unary, coefficientAt_unary]
    refine (coefficientAt_power n (c + c') k).trans ?_
    split_ifs <;> simp
  | values hv hw =>
    obtain ⟨c, rfl⟩ := hf.exists_real hv
    obtain ⟨c', rfl⟩ := hg.exists_real hw
    have hm : (const (real c + real c')).value? = some (real (c + c')) := rfl
    refine ⟨.constant hm, fun n => ?_⟩
    rw [coefficientAt_of_value hm, coefficientAt_of_value hv, coefficientAt_of_value hw]
    split_ifs <;> simp

/-- Simplified monomials are merged to simplified monomials, and their coefficients are added. -/
theorem mergeSimplified_terms (hf : f.IsTerm) (hg : g.IsTerm) :
    (mergeSimplified simplify (mergeAddWith simplify) f g).Meets (fun _ => False) fun merged =>
      ∀ t ∈ merged, t.IsTerm ∧ ∀ n, coefficientAt n t = coefficientAt n f + coefficientAt n g := by
  have hadded : (mergeAddWith simplify f g).Meets (fun _ => False) fun merged =>
      ∀ m ∈ merged, Added simplify f g m := by
    refine mergeAddWith_meets fun n d _ _ hquotient _ => ?_
    simpa [hquotient, value?] using hf.value_or_power
  refine mergeSimplified_meets hadded fun m hm => ?_
  obtain ⟨hmonomial, hcoefficient⟩ := added_terms hf hg hm
  exact (simplify_monomial hmonomial).mono fun t ht =>
    ⟨ht.1, fun n => (ht.2 n).trans (hcoefficient n)⟩

/-- Merging like terms keeps all total coefficients, and what is left are simplified monomials. -/
theorem mergeLaw_terms :
    MergeLaw (fun _ => False) (fun ts => ∀ t ∈ ts, t.IsTerm)
      (fun ts us => (∀ t ∈ ts, t.IsTerm) →
        (∀ u ∈ us, u.IsTerm) ∧ ∀ n, totalAt n us = totalAt n ts)
      sort (mergeSimplified simplify (mergeAddWith simplify)) where
  refl ts h := ⟨h, fun _ => rfl⟩
  trans h h' hts := by
    obtain ⟨hus, htotal⟩ := h hts
    obtain ⟨hvs, htotal'⟩ := h' hus
    exact ⟨hvs, fun n => (htotal' n).trans (htotal n)⟩
  cons t ts us h hts := by
    rw [List.forall_mem_cons] at hts
    obtain ⟨hus, htotal⟩ := h hts.2
    exact ⟨List.forall_mem_cons.2 ⟨hts.1, hus⟩, fun n => by rw [totalAt_cons, totalAt_cons, htotal]⟩
  sort ts hts := by
    have hperm : (sort ts).Perm ts := sortStable_perm less ts
    exact ⟨fun t ht => hts t (hperm.mem_iff.1 ht), fun n => (hperm.map _).sum_eq⟩
  keeps h hts := (h hts).1
  tail h := (List.forall_mem_cons.1 h).2
  merge {f g rest} h := by
    rw [List.forall_mem_cons, List.forall_mem_cons] at h
    obtain ⟨hf, hg, hrest⟩ := h
    refine (mergeSimplified_terms hf hg).mono fun merged hm t ht _ => ?_
    obtain ⟨hterm, htotal⟩ := hm t ht
    refine ⟨List.forall_mem_cons.2 ⟨hterm, hrest⟩, fun n => ?_⟩
    rw [totalAt_cons, totalAt_cons, totalAt_cons, htotal, add_assoc]

/-- In a sorted list, a term that is not merged with the one in front of it has a higher degree. -/
theorem degree_lt_of_not_addable (hf : f.IsTerm) (hg : g.IsTerm) (hle : g.less f = false)
    (h : ¬ Addable f g) : f.degree < g.degree := by
  rcases hg.value_or_power with ⟨c', hc'⟩ | ⟨n', c', hn', rfl⟩
  · obtain ⟨v, hv⟩ := exists_value_of_less hle hc'
    exact (h (.values hv hc')).elim
  rcases hf.value_or_power with ⟨c, hc⟩ | ⟨n, c, -, rfl⟩
  · rw [degree_of_value hc, degree_power]
    exact Nat.pos_of_ne_zero hn'
  rw [degree_power, degree_power]
  by_contra hlt
  have hne : n' ≠ n := by
    rintro rfl
    exact h (.scales (by simp [Kernel.beq_iff, Kernel.parameters]) rfl)
  have hgt : n' < n := by omega
  rw [less_eq_false_iff, compare, compareWith_unary] at hle
  simp [compareInner, Scalar.cmpList, Scalar.cmp, Kernel.parameters, Kernel.kind, hgt] at hle

structure IsCollected (c : ℕ → ℝ) (ts : List (Fn Exact)) : Prop where
  terms : ∀ t ∈ ts, t.IsTerm
  ascending : ts.Pairwise fun t u => t.degree < u.degree
  total : ∀ n, totalAt n ts = c n

/-- Merging neighbours collects like terms, in ascending degree. -/
theorem mergeNeighbours_collects (h : ∀ t ∈ ts, t.IsTerm) :
    (mergeNeighbours sort (mergeSimplified simplify (mergeAddWith simplify)) ts).Meets
      (fun _ => False) (IsCollected fun n => totalAt n ts) := by
  refine (mergeLaw_terms.mergeNeighbours h).outcome.mono fun us ⟨hlaw, hok⟩ => ?_
  obtain ⟨hus, htotal⟩ := hlaw h
  obtain ⟨⟨l, rfl⟩, hchain⟩ :=
    mergeNeighbours_isChain (fun l => (sortStable_perm less l).length_eq) hok
  have hl : ∀ t ∈ l, t.HasNoNaN := by
    intro t ht
    obtain ⟨n, c, rfl⟩ := hus t ((sortStable_perm less l).mem_iff.2 ht)
    exact hasNoNaN_term n c
  have hordered : (sort l).Pairwise fun f g => g.less f = false :=
    (sortStable_ascending orders_hasNoNaN hl).pairwise
  have hascending : (sort l).IsChain fun t u => t.degree < u.degree := by
    refine (isChain_and hordered.isChain hchain).imp_of_mem_imp fun t u ht hu ⟨hle, hapart⟩ => ?_
    exact degree_lt_of_not_addable (hus t ht) (hus u hu) hle
      (mergeAddWith_eq_none_iff.1 (merge_eq_none_of_mergeSimplified hapart))
  exact ⟨hus, hascending.pairwise, htotal⟩

/-! ## Total coefficients -/

theorem totalAt_eq_zero {n : ℕ} (h : ∀ t ∈ ts, t.degree ≠ n) : totalAt n ts = 0 := by
  refine List.sum_eq_zero fun x hx => ?_
  obtain ⟨t, ht, rfl⟩ := List.mem_map.1 hx
  exact if_neg (h t ht)

/-- In a list without like terms, a total coefficient is the coefficient of one term. -/
theorem totalAt_degree (h : ts.Pairwise fun t u => t.degree < u.degree) (hf : f ∈ ts) :
    totalAt f.degree ts = coefficientAt f.degree f := by
  induction ts with
  | nil => cases hf
  | cons t rest ih =>
    rw [List.pairwise_cons] at h
    rw [totalAt_cons]
    rcases List.mem_cons.1 hf with rfl | hf
    · rw [totalAt_eq_zero fun u hu => (h.1 u hu).ne', add_zero]
    · rw [ih h.2 hf, coefficientAt, if_neg (h.1 f hf).ne, zero_add]

theorem totalAt_filter_isZero (n : ℕ) (ts : List (Fn Exact)) :
    totalAt n (ts.filter (!·.isZero)) = totalAt n ts := by
  induction ts with
  | nil => rfl
  | cons t rest ih =>
    rw [List.filter_cons, totalAt_cons, ← ih]
    split_ifs with h0
    · exact totalAt_cons ..
    · have hzero : t = zero := eq_zero_of_isZero (by simpa using h0)
      rw [hzero, coefficientAt_zero, zero_add]

structure IsSupport (c : ℕ → ℝ) (degrees : List ℕ) : Prop where
  ascending : degrees.Pairwise (· < ·)
  mem_iff : ∀ n, n ∈ degrees ↔ c n ≠ 0

variable {c c' : ℕ → ℝ} {degrees : List ℕ} {s t : Fn Exact}

theorem IsSupport.unique {degrees' : List ℕ} (h : IsSupport c degrees)
    (h' : IsSupport c degrees') : degrees = degrees' :=
  h.ascending.eq_of_mem_iff h'.ascending fun n => (h.mem_iff n).trans (h'.mem_iff n).symm

/-- The terms of a polynomial have its coefficients. -/
theorem IsSupport.totalAt_terms (h : IsSupport c degrees) (n : ℕ) :
    totalAt n (degrees.map fun k => term k (c k)) = c n := by
  have hdegree : ∀ k ∈ degrees, (term k (c k)).degree = k := fun k hk =>
    degree_term k ((h.mem_iff k).1 hk)
  have hascending : (degrees.map fun k => term k (c k)).Pairwise fun t u =>
      t.degree < u.degree := by
    refine List.pairwise_map.2 (h.ascending.imp_of_mem fun {k l} hk hl hlt => ?_)
    rwa [hdegree k hk, hdegree l hl]
  by_cases hn : n ∈ degrees
  · have htotal := totalAt_degree hascending (List.mem_map_of_mem hn)
    rwa [hdegree n hn, coefficientAt_term, if_pos rfl] at htotal
  · have h0 : c n = 0 := not_not.1 (mt (h.mem_iff n).2 hn)
    rw [h0]
    refine totalAt_eq_zero fun t ht => ?_
    obtain ⟨k, hk, rfl⟩ := List.mem_map.1 ht
    rw [hdegree k hk]
    exact fun heq => hn (heq ▸ hk)

/-- Collected terms that are not zero are the terms of the polynomial. -/
theorem IsCollected.exists_support (h : IsCollected c ts) :
    ∃ degrees, IsSupport c degrees ∧
      ts.filter (!·.isZero) = degrees.map fun n => term n (c n) := by
  have hascending := h.ascending.filter fun t => !t.isZero
  have htotal : ∀ n, totalAt n (ts.filter (!·.isZero)) = c n := fun n =>
    (totalAt_filter_isZero n ts).trans (h.total n)
  have hterm : ∀ t ∈ ts.filter (!·.isZero), c t.degree ≠ 0 ∧ t = term t.degree (c t.degree) := by
    intro t ht
    obtain ⟨n, x, rfl⟩ := h.terms t (List.mem_of_mem_filter ht)
    have hx : x ≠ 0 := by
      rintro rfl
      simpa [isZero] using (List.mem_filter.1 ht).2
    have hc := totalAt_degree hascending ht
    rw [htotal, degree_term n hx, coefficientAt_term, if_pos rfl] at hc
    rw [degree_term n hx, hc]
    exact ⟨hx, rfl⟩
  refine ⟨(ts.filter (!·.isZero)).map degree, ⟨List.pairwise_map.2 hascending, fun n => ?_⟩, ?_⟩
  · constructor
    · intro hn
      obtain ⟨t, ht, rfl⟩ := List.mem_map.1 hn
      exact (hterm t ht).1
    · intro hc
      by_contra hn
      refine hc ((htotal n).symm.trans (totalAt_eq_zero fun t ht heq => hn ?_))
      exact heq ▸ List.mem_map_of_mem ht
  · rw [List.map_map]
    exact (List.map_id _).symm.trans (List.map_congr_left fun t ht => (hterm t ht).2)

/-! ## Sums -/

/-- A function is the sum of some terms, whichever of its constants are canonical. A sum of no terms
is zero, and a single term needs no sum. -/
inductive IsSumOf : List (Fn Exact) → Fn Exact → Prop where
  | none : IsSumOf [] zero
  | single (t : Fn Exact) : IsSumOf [t] t
  | sum {ts us : List (Fn Exact)} (hlen : 2 ≤ ts.length) (hus : us.map forget = ts.map forget) :
    IsSumOf ts (sum us)

theorem ofTerms_isSumOf (fs : List (Fn Exact)) (h : ts.any isUndefined = false) :
    IsSumOf (ts.filter (!·.isZero)) (ofTerms (sum fs) ts) := by
  generalize hg : ofTerms (sum fs) ts = g
  cases fromTerms_of_ofTerms hg with
  | absorbed hu => simp [h] at hu
  | empty _ hts => exact hts ▸ .none
  | assembled _ hg =>
    cases hg with
    | single hts => exact hts ▸ .single g
    | unchanged hlen hsame => exact .sum hlen (map_forget_of_sameChildren hsame).symm
    | wrapped hlen => exact .sum hlen rfl

theorem IsTerm.isUndefined (h : f.IsTerm) : f.isUndefined = false := by
  rcases h.value_or_power with ⟨c, hc⟩ | ⟨n, c, -, rfl⟩
  · cases f <;> first | rfl | cases hc
  · rfl

theorem IsTerm.toTerms (h : f.IsTerm) : f.toTerms = [f] := by
  rcases h.value_or_power with ⟨c, hc⟩ | ⟨n, c, -, rfl⟩
  · cases f <;> first | rfl | cases hc
  · rfl

def IsExpansion (c : ℕ → ℝ) (s : Fn Exact) : Prop :=
  ∃ degrees, IsSupport c degrees ∧ IsSumOf (degrees.map fun n => term n (c n)) s

theorem simplifySum_expands {fs : List (Fn Exact)} (h : ∀ f ∈ fs, f.IsMonomial) :
    (simplifySum simplify fs).Meets (fun _ => False) (IsExpansion fun n => totalAt n fs) := by
  have hparts : (fs.mapM simplify).Meets (fun _ => False) (List.Forall₂ (fun f t =>
      t.IsTerm ∧ ∀ n, coefficientAt n t = coefficientAt n f) fs) :=
    Attempt.Meets.mapM fun f hf => simplify_monomial (h f hf)
  refine hparts.bind fun parts hparts => ?_
  have hterm : ∀ t ∈ parts, t.IsTerm := by
    intro t ht
    obtain ⟨f, -, hf, -⟩ := exists_mem_of_forall₂ hparts ht
    exact hf
  have htotal (n : ℕ) : totalAt n parts = totalAt n fs := by
    have hmap : fs.map (coefficientAt n) = parts.map (coefficientAt n) := by
      rw [← List.forall₂_eq_eq_eq, List.forall₂_map_left_iff, List.forall₂_map_right_iff]
      exact hparts.imp fun f t hft => (hft.2 n).symm
    exact congrArg List.sum hmap.symm
  have hflat : parts.flatMap toTerms = parts :=
    (List.flatMap_congr fun t ht => (hterm t ht).toTerms).trans (List.flatMap_singleton' parts)
  have hdefined {us : List (Fn Exact)} (hus : ∀ u ∈ us, u.IsTerm) : us.any isUndefined = false :=
    List.any_eq_false.2 fun u hu => by simp [(hus u hu).isUndefined]
  dsimp only
  rw [hflat, hdefined hterm, if_neg Bool.false_ne_true]
  have hfilter : ∀ t ∈ parts.filter (!·.isZero), t.IsTerm := fun t ht =>
    hterm t (List.mem_of_mem_filter ht)
  refine (mergeNeighbours_collects hfilter).bind fun merged hm => .pure ?_
  obtain ⟨degrees, hsupport, hmerged⟩ := hm.exists_support
  have hsum := ofTerms_isSumOf fs (hdefined hm.terms)
  simp only [totalAt_filter_isZero, htotal] at hsupport hmerged
  rw [hmerged] at hsum
  exact ⟨degrees, hsupport, hsum⟩

/-! ## Normal forms -/

@[simp] theorem degree_forget (f : Fn Exact) : f.forget.degree = f.degree := by
  cases f with
  | unary k s inner => cases k <;> cases inner <;> simp [degree]
  | _ => simp [degree]

@[simp] theorem coefficientAt_forget (n : ℕ) (f : Fn Exact) :
    coefficientAt n f.forget = coefficientAt n f := by
  simp [coefficientAt, coefficient]

theorem toTerms_forget (f : Fn Exact) : f.forget.toTerms = f.toTerms.map forget := by
  cases f <;> simp [toTerms]

theorem totalAt_congr (h : us.map forget = ts.map forget) (n : ℕ) :
    totalAt n us = totalAt n ts := by
  have hforget (fs : List (Fn Exact)) : totalAt n (fs.map forget) = totalAt n fs := by
    simp [totalAt, Function.comp_def]
  rw [← hforget us, h, hforget]

/-- An expansion has the coefficients of the polynomial. -/
theorem IsExpansion.totalAt_toTerms (h : IsExpansion c s) (n : ℕ) : totalAt n s.toTerms = c n := by
  obtain ⟨degrees, hsupport, hsum⟩ := h
  have hterms : ∀ t ∈ degrees.map fun k => term k (c k), t.IsTerm :=
    List.forall_mem_map.2 fun k _ => ⟨k, c k, rfl⟩
  rw [← hsupport.totalAt_terms n]
  generalize (degrees.map fun k => term k (c k)) = ts at hsum hterms
  cases hsum with
  | none => simp [toTerms]
  | single => rw [(hterms s (List.mem_singleton_self s)).toTerms]
  | sum hlen hus => exact totalAt_congr hus n

theorem IsExpansion.hasNoNaN (h : IsExpansion c s) : s.HasNoNaN := by
  obtain ⟨degrees, -, hsum⟩ := h
  have hterms : ∀ t ∈ degrees.map fun k => term k (c k), t.HasNoNaN :=
    List.forall_mem_map.2 fun k _ => hasNoNaN_term k (c k)
  generalize (degrees.map fun k => term k (c k)) = ts at hsum hterms
  cases hsum with
  | none => exact trivial
  | single => exact hterms s (List.mem_singleton_self s)
  | sum hlen hus =>
    rw [← hasNoNaN_forget, forget_sum, hus, ← forget_sum, hasNoNaN_forget]
    exact (numbers_sum ts).2 hterms

theorem IsSumOf.forget_eq (h : IsSumOf ts s) (h' : IsSumOf ts t) : s.forget = t.forget := by
  cases h with
  | none => cases h' with
    | none => rfl
    | sum hlen => simp at hlen
  | single => cases h' with
    | single => rfl
    | sum hlen => simp at hlen
  | sum hlen hus => cases h' with
    | none | single => simp at hlen
    | sum _ hvs => rw [forget_sum, forget_sum, hus, hvs]

/-- Expansions are equal if and only if their coefficients are. -/
theorem IsExpansion.beq_iff (h : IsExpansion c s) (h' : IsExpansion c' t) :
    (s == t) = true ↔ ∀ n, c n = c' n := by
  rw [Fn.beq_iff]
  constructor
  · rintro ⟨hforget, -⟩ n
    rw [← h.totalAt_toTerms n, ← h'.totalAt_toTerms n]
    refine totalAt_congr ?_ n
    rw [← toTerms_forget, hforget, toTerms_forget]
  · intro hc
    obtain rfl : c = c' := funext hc
    refine ⟨?_, h.hasNoNaN⟩
    obtain ⟨degrees, hsupport, hs⟩ := h
    obtain ⟨degrees', hsupport', ht⟩ := h'
    obtain rfl := hsupport.unique hsupport'
    exact hs.forget_eq ht

/-- The normal form of the polynomial with given coefficients: zero if there are none, a single node
if there is one, and otherwise the sum of one term for each degree, in ascending degree. -/
structure IsNormalForm (c : ℕ → ℝ) (s : Fn Exact) : Prop where
  zero : s = zero ↔ ∀ n, c n = 0
  single : s ≠ .zero ∧ s.countNodes = 1 ↔ ∃! n, c n ≠ 0
  sum : (∃ ts, s = sum ts) ↔ ∃ m n, m ≠ n ∧ c m ≠ 0 ∧ c n ≠ 0
  terms : s ≠ .zero → ∃ degrees, IsSupport c degrees ∧
    List.Forall₂ (fun n t => (t == term n (c n)) = true) degrees s.toTerms

theorem isNormalForm_zero (h : ∀ n, c n = 0) : IsNormalForm c zero where
  zero := by simp [h]
  single := by simp [h, ExistsUnique]
  sum := by simp [h]
  terms := by simp

theorem countNodes_term (n : ℕ) (c : ℝ) : (term n c).countNodes = 1 := by
  unfold term ofValue
  split_ifs <;> rfl

theorem countNodes_sum_ne_one (h : ts ≠ []) : (sum ts).countNodes ≠ 1 := by
  cases ts with
  | nil => exact (h rfl).elim
  | cons t rest => simp [countNodes, walk, walkBelow, walkAll]

theorem isNormalForm_term {n : ℕ} (h : IsSupport c [n]) : IsNormalForm c (term n (c n)) := by
  have hc : ∀ k, c k ≠ 0 ↔ k = n := fun k => by rw [← h.mem_iff, List.mem_singleton]
  have hn : c n ≠ 0 := (hc n).2 rfl
  have hterm : (term n (c n)).IsTerm := ⟨n, c n, rfl⟩
  refine ⟨?_, ?_, ?_, fun _ => ⟨[n], h, ?_⟩⟩
  · exact iff_of_false (term_ne_zero hn) fun h0 => hn (h0 n)
  · exact iff_of_true ⟨term_ne_zero hn, countNodes_term n (c n)⟩ ⟨n, hn, fun k => (hc k).1⟩
  · refine iff_of_false ?_ ?_
    · rintro ⟨ts, hts⟩
      simpa [hts, value?] using hterm.value_or_power
    · rintro ⟨k, l, hne, hk, hl⟩
      exact hne (((hc k).1 hk).trans ((hc l).1 hl).symm)
  · rw [hterm.toTerms]
    exact .cons (Fn.beq_iff.2 ⟨rfl, hasNoNaN_term n (c n)⟩) .nil

theorem isNormalForm_sum (h : IsSupport c degrees)
    (hlen : 2 ≤ (degrees.map fun n => term n (c n)).length)
    (hts : ts.map forget = (degrees.map fun n => term n (c n)).map forget) :
    IsNormalForm c (sum ts) := by
  have hne : ts ≠ [] := by
    rintro rfl
    rw [← List.length_map forget, ← hts] at hlen
    cases hlen
  match degrees, hlen with
  | k :: l :: rest, _ =>
    have hk : c k ≠ 0 := (h.mem_iff k).1 (by simp)
    have hl : c l ≠ 0 := (h.mem_iff l).1 (by simp)
    have hkl : k ≠ l := (List.rel_of_pairwise_cons h.ascending (by simp)).ne
    refine ⟨?_, ?_, ?_, fun _ => ⟨_, h, ?_⟩⟩
    · exact iff_of_false (by simp) fun h0 => hk (h0 k)
    · exact iff_of_false (fun h1 => countNodes_sum_ne_one hne h1.2) fun hu =>
        hkl (hu.unique hk hl)
    · exact iff_of_true ⟨ts, rfl⟩ ⟨k, l, hkl, hk, hl⟩
    · rw [map_forget_eq_iff, List.forall₂_map_right_iff] at hts
      refine hts.flip.imp fun n t ht => ?_
      rw [← beq_forget, ht, beq_forget]
      exact Fn.beq_iff.2 ⟨rfl, hasNoNaN_term n (c n)⟩

/-- Expansions are normal forms. -/
theorem IsExpansion.isNormalForm (h : IsExpansion c s) : IsNormalForm c s := by
  obtain ⟨degrees, hsupport, hsum⟩ := h
  generalize hts : (degrees.map fun n => term n (c n)) = ts at hsum
  cases hsum with
  | none =>
    obtain rfl := List.map_eq_nil_iff.1 hts
    exact isNormalForm_zero fun n => not_not.1 (mt (hsupport.mem_iff n).2 List.not_mem_nil)
  | single =>
    obtain ⟨n, rfl, rfl⟩ := List.map_eq_singleton_iff.1 hts
    exact isNormalForm_term hsupport
  | sum hlen hus =>
    subst hts
    exact isNormalForm_sum hsupport hlen hus

/-- In exact arithmetic, sums of monomials are simplified to the normal form of a polynomial. Two of
them have equal simplified forms if and only if their total coefficients are the same at every
degree, whatever the order of the monomials is and however often a degree occurs. -/
theorem simplify_collects_monomials {fs gs : List (Fn Exact)} (hfs : ∀ f ∈ fs, f.IsMonomial)
    (hgs : ∀ g ∈ gs, g.IsMonomial) :
    ∃ s t, (sum fs).simplify.outcome = .ok s ∧ (sum gs).simplify.outcome = .ok t ∧
      ((s == t) = true ↔ ∀ n, totalAt n fs = totalAt n gs) ∧
      s.IsNormalForm (fun n => totalAt n fs) ∧ t.IsNormalForm (fun n => totalAt n gs) := by
  rw [simplify_eq_simplifyStep, simplify_eq_simplifyStep]
  obtain ⟨s, hs, hexpansion⟩ := (simplifySum_expands hfs).exists_ok
  obtain ⟨t, ht, hexpansion'⟩ := (simplifySum_expands hgs).exists_ok
  exact ⟨s, t, hs, ht, hexpansion.beq_iff hexpansion', hexpansion.isNormalForm,
    hexpansion'.isNormalForm⟩

/-- The squares in `3 * x ^ 2 + 2 - 3 * x ^ 2` cancel, and what is left equals `1 + 1`. -/
theorem simplify_collects_monomials_cancelled :
    ∃ s t, (sum [power none (real 3) (real (2 : ℕ)), const (real 2),
        power none (real (-3)) (real (2 : ℕ))]).simplify.outcome = .ok s ∧
      (sum [one, one] : Fn Exact).simplify.outcome = .ok t ∧ (s == t) = true := by
  have htwo : (const (real 2)).value? = some (real 2) := rfl
  have hone : (one : Fn Exact).value? = some (real 1) := rfl
  have hfs : ∀ f ∈ [power none (real 3) (real (2 : ℕ)), const (real 2),
      power none (real (-3)) (real (2 : ℕ))], f.IsMonomial :=
    List.forall_mem_cons.2 ⟨.power 3 2, List.forall_mem_cons.2 ⟨.constant htwo,
      List.forall_mem_singleton.2 (.power (-3) 2)⟩⟩
  have hgs : ∀ g ∈ ([one, one] : List (Fn Exact)), g.IsMonomial :=
    List.forall_mem_cons.2 ⟨.constant hone, List.forall_mem_singleton.2 (.constant hone)⟩
  obtain ⟨s, t, hs, ht, heq, -⟩ := simplify_collects_monomials hfs hgs
  refine ⟨s, t, hs, ht, heq.2 fun n => ?_⟩
  simp only [totalAt_cons, totalAt_nil, coefficientAt_power, coefficientAt_of_value htwo,
    coefficientAt_of_value hone]
  split_ifs <;> norm_num

end FunctionAlgebra.Fn
