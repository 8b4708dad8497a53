import FunctionAlgebra.Proofs.Forget
import FunctionAlgebra.Proofs.MergeCases
import FunctionAlgebra.Proofs.Neighbours

/-!
# Reduced functions

In a reduced function there is nothing left to merge: no two neighbouring terms can be added, no two
neighbouring factors can be multiplied, no numerator can be divided, and coefficients stand in the
first factor of a product. What a further simplification may still change is the order of terms and
factors, and sums within sums.

## Main definitions

* `Fn.Reduced` — nothing is left to merge in a function.
* `Fn.Rescaled` — products and quotients cannot tell two functions apart.

## Main statements

* `Fn.Reduced.congr` — it does not matter which constants are canonical.
-/

namespace FunctionAlgebra

open Exact (real)

def Kernel.Varies : Kernel Exact → Prop
  | power p => p ≠ 0
  | sine omega _ => omega ≠ 0
  | _ => True

namespace Fn

variable {f g f' g' : Fn Exact}

/-- Nothing is left to merge in a function, and its numbers are real. -/
inductive Reduced : Fn Exact → Prop where
  | value {f : Fn Exact} {v : ℝ} (hv : f.value? = some (real v)) : Reduced f
  | undefined : Reduced undefined
  | plain {k : Kernel Exact} {s : ℝ} (hs : s ≠ 0) (hp : ∀ p ∈ k.parameters, p.IsReal)
    (hk : k.Varies) : Reduced (unary k (real s) none)
  | chain {k : Kernel Exact} {s : ℝ} {f : Fn Exact} (hs : s ≠ 0)
    (hp : ∀ p ∈ k.parameters, p.IsReal) (hk : k.Varies) (h1 : k ≠ .power 1) (hf : Reduced f)
    (hu : f.isUndefined = false) (hv : f.value? = none) (hid : f.isIdentity = false) :
    Reduced (unary k (real s) (some f))
  | sum {ts : List (Fn Exact)} (hlen : 2 ≤ ts.length) (ht : ∀ t ∈ ts, Reduced t)
    (hu : ∀ t ∈ ts, t.isUndefined = false) (h0 : ∀ t ∈ ts, t.value? ≠ some 0)
    (hapart : ts.IsChain fun f g => ¬ Addable f g) : Reduced (sum ts)
  | product {f : Fn Exact} {fs : List (Fn Exact)} (hne : fs ≠ []) (hf : ∀ g ∈ f :: fs, Reduced g)
    (hu : ∀ g ∈ f :: fs, g.isUndefined = false) (hv : ∀ g ∈ f :: fs, g.value? = none)
    (hone : ∀ g ∈ fs, g.scale = 1)
    (hapart : (f :: fs).IsChain fun f g => mergeMultiply? f g = none) : Reduced (product (f :: fs))
  | quotient {n d : Fn Exact} (hn : Reduced n) (hd : Reduced d) (hnu : n.isUndefined = false)
    (hdu : d.isUndefined = false) (h0 : n.value? ≠ some 0) (hapart : mergeDivide? n d = none) :
    Reduced (quotient n d)
  | piecewise {segments : List (Segment Exact (Fn Exact))}
    (hr : ∀ s ∈ segments, Scalar.isNaN s.range.low = false ∧ Scalar.isNaN s.range.high = false)
    (hs : ∀ s ∈ segments, s.payload.Reduced) : Reduced (piecewise segments)

theorem reduced_sum_iff {ts : List (Fn Exact)} : (sum ts).Reduced ↔
    2 ≤ ts.length ∧ (∀ t ∈ ts, t.Reduced) ∧ (∀ t ∈ ts, t.isUndefined = false) ∧
      (∀ t ∈ ts, t.value? ≠ some 0) ∧ ts.IsChain fun f g => ¬ Addable f g := by
  constructor
  · intro h
    cases h with
    | value hv => cases hv
    | sum hlen ht hu h0 hapart => exact ⟨hlen, ht, hu, h0, hapart⟩
  · rintro ⟨hlen, ht, hu, h0, hapart⟩
    exact .sum hlen ht hu h0 hapart

theorem reduced_product_iff {f : Fn Exact} {fs : List (Fn Exact)} : (product (f :: fs)).Reduced ↔
    fs ≠ [] ∧ (∀ g ∈ f :: fs, g.Reduced) ∧ (∀ g ∈ f :: fs, g.isUndefined = false) ∧
      (∀ g ∈ f :: fs, g.value? = none) ∧ (∀ g ∈ fs, g.scale = 1) ∧
      (f :: fs).IsChain fun f g => mergeMultiply? f g = none := by
  constructor
  · intro h
    cases h with
    | value hv => cases hv
    | product hne hf hu hv hone hapart => exact ⟨hne, hf, hu, hv, hone, hapart⟩
  · rintro ⟨hne, hf, hu, hv, hone, hapart⟩
    exact .product hne hf hu hv hone hapart

theorem not_reduced_product_nil : ¬ (product ([] : List (Fn Exact))).Reduced := by
  intro h
  cases h with
  | value hv => cases hv

theorem reduced_quotient_iff {n d : Fn Exact} : (quotient n d).Reduced ↔
    n.Reduced ∧ d.Reduced ∧ n.isUndefined = false ∧ d.isUndefined = false ∧ n.value? ≠ some 0 ∧
      mergeDivide? n d = none := by
  constructor
  · intro h
    cases h with
    | value hv => cases hv
    | quotient hn hd hnu hdu h0 hapart => exact ⟨hn, hd, hnu, hdu, h0, hapart⟩
  · rintro ⟨hn, hd, hnu, hdu, h0, hapart⟩
    exact .quotient hn hd hnu hdu h0 hapart

/-- A reduced function has finite numbers. -/
theorem Reduced.hasFiniteNumbers (h : f.Reduced) : f.HasFiniteNumbers := by
  unfold HasFiniteNumbers
  induction h with
  | value hv => cases ‹Fn Exact› <;> cases hv <;> simp
  | undefined => simp
  | plain hs hp hk => simpa using fun p hmem => Exact.isFinite_iff.2 (hp p hmem)
  | chain hs hp hk h1 hf hu hv hid ih =>
    simpa [ih] using fun p hmem => Exact.isFinite_iff.2 (hp p hmem)
  | sum hlen ht hu h0 hapart ih => simpa using ih
  | product hne hf hu hv hone hapart ih => exact (numbers_product _).2 ih
  | quotient hn hd hnu hdu h0 hapart ihn ihd => simp [ihn, ihd]
  | piecewise hr hs ih => simpa using fun s hmem => ⟨hr s hmem, ih s hmem⟩

theorem HasFiniteNumbers.hasNoNaN (h : f.HasFiniteNumbers) : f.HasNoNaN := by
  refine h.mono (fun a ha => ?_) fun a ha => ha
  rw [(Exact.isFinite_iff.1 ha).eq_real]
  exact Exact.isNaN_real _

theorem Reduced.hasNoNaN (h : f.Reduced) : f.HasNoNaN := h.hasFiniteNumbers.hasNoNaN

/-! ## Functions that merge alike -/

/-- Products and quotients cannot tell two functions apart: they differ in their scales or in which
of their constants are canonical, or they never merge. -/
inductive Rescaled : Fn Exact → Fn Exact → Prop where
  | values {f g v w} (hf : f.value? = some v) (hg : g.value? = some w) : Rescaled f g
  | undefined : Rescaled undefined undefined
  | unary {k : Kernel Exact} {s t : Exact} {inner inner' : Option (Fn Exact)}
    (hs : s = 0 ↔ t = 0) (hi : inner.map forget = inner'.map forget) :
    Rescaled (unary k s inner) (unary k t inner')
  | sums {ts us} : Rescaled (sum ts) (sum us)
  | products {fs gs} : Rescaled (product fs) (product gs)
  | quotients {n d n' d'} : Rescaled (quotient n d) (quotient n' d')
  | piecewise {ss ts} : Rescaled (piecewise ss) (piecewise ts)

theorem Rescaled.symm (h : Rescaled f g) : Rescaled g f := by
  cases h with
  | values hf hg => exact .values hg hf
  | undefined => exact .undefined
  | unary hs hi => exact .unary hs.symm hi.symm
  | sums => exact .sums
  | products => exact .products
  | quotients => exact .quotients
  | piecewise => exact .piecewise

theorem Rescaled.exists_value {v : Exact} (h : Rescaled f g) (hv : f.value? = some v) :
    ∃ w, g.value? = some w := by
  cases h with
  | values hf hg => exact ⟨_, hg⟩
  | _ => cases hv

theorem rescaled_of_forget (h : f.forget = g.forget) : Rescaled f g := by
  cases f with
  | zero | one | const v => exact .values rfl (value?_congr h).symm
  | undefined => exact eq_undefined_of_forget h ▸ .undefined
  | unary k s inner =>
    obtain ⟨inner', rfl, hi⟩ := exists_unary_of_forget h
    exact .unary Iff.rfl hi
  | sum ts =>
    obtain ⟨us, rfl, -⟩ := exists_sum_of_forget h
    exact .sums
  | product fs =>
    obtain ⟨gs, rfl, -⟩ := exists_product_of_forget h
    exact .products
  | quotient n d =>
    obtain ⟨n', d', rfl, -⟩ := exists_quotient_of_forget h
    exact .quotients
  | piecewise ss =>
    obtain ⟨ts, rfl, -⟩ := exists_piecewise_of_forget h
    exact .piecewise

theorem equalInner_congr {i i' j j' : Option (Fn Exact)} (hi : i.map forget = i'.map forget)
    (hj : j.map forget = j'.map forget) : equalInner i j = equalInner i' j' := by
  rw [← equalInner_forget, hi, hj, equalInner_forget]

theorem Rescaled.exists_multiplied {h : Fn Exact} (hf : Rescaled f f') (hg : Rescaled g g')
    (hm : Multiplied f g h) : ∃ h', Multiplied f' g' h' := by
  cases hm with
  | absorbed =>
    cases hf with
    | values hv => cases hv
    | undefined => exact ⟨_, .absorbed _⟩
  | exponents hi =>
    cases hf with
    | values hv => cases hv
    | unary _ hf =>
      cases hg with
      | values hv => cases hv
      | unary _ hg => exact ⟨_, .exponents (equalInner_congr hf hg ▸ hi)⟩
  | bases hi hp =>
    cases hf with
    | values hv => cases hv
    | unary _ hf =>
      cases hg with
      | values hv => cases hv
      | unary _ hg => exact ⟨_, .bases (equalInner_congr hf hg ▸ hi) hp⟩
  | values hv hw =>
    obtain ⟨v', hv'⟩ := hf.exists_value hv
    obtain ⟨w', hw'⟩ := hg.exists_value hw
    exact ⟨_, .values hv' hw'⟩

theorem Rescaled.exists_divided {h : Fn Exact} (hf : Rescaled f f') (hg : Rescaled g g')
    (hm : Divided f g h) : ∃ h', Divided f' g' h' := by
  cases hm with
  | absorbed =>
    cases hf with
    | values hv => cases hv
    | undefined => exact ⟨_, .absorbed _⟩
  | exponents ht hi =>
    cases hf with
    | values hv => cases hv
    | unary _ hf =>
      cases hg with
      | values hv => cases hv
      | unary ht' hg =>
        refine ⟨_, .exponents ?_ (equalInner_congr hf hg ▸ hi)⟩
        rw [Exact.beq_zero_eq_false_iff] at ht ⊢
        exact fun h0 => ht (ht'.2 h0)
  | values hv hw =>
    obtain ⟨v', hv'⟩ := hf.exists_value hv
    obtain ⟨w', hw'⟩ := hg.exists_value hw
    exact ⟨_, .values hv' hw'⟩

theorem Rescaled.mergeMultiply?_eq_none (hf : Rescaled f f') (hg : Rescaled g g')
    (h : mergeMultiply? f g = none) : mergeMultiply? f' g' = none := by
  rw [mergeMultiply?_eq_none_iff] at h ⊢
  intro m hm
  obtain ⟨m', hm'⟩ := hf.symm.exists_multiplied hg.symm hm
  exact h m' hm'

theorem Rescaled.mergeDivide?_eq_none (hf : Rescaled f f') (hg : Rescaled g g')
    (h : mergeDivide? f g = none) : mergeDivide? f' g' = none := by
  rw [mergeDivide?_eq_none_iff] at h ⊢
  intro m hm
  obtain ⟨m', hm'⟩ := hf.symm.exists_divided hg.symm hm
  exact h m' hm'

theorem beq_congr (hf : f.forget = f'.forget) (hg : g.forget = g'.forget) :
    (f == g) = (f' == g') := by
  rw [← beq_forget, hf, hg, beq_forget]

theorem equalAll_congr {fs fs' gs gs' : List (Fn Exact)} (hf : fs.map forget = fs'.map forget)
    (hg : gs.map forget = gs'.map forget) : equalAll fs gs = equalAll fs' gs' := by
  rw [← equalAll_forget, hf, hg, equalAll_forget]

theorem Addable.congr (h : Addable f g) (hf : f.forget = f'.forget) (hg : g.forget = g'.forget) :
    Addable f' g' := by
  cases h with
  | absorbed => exact eq_undefined_of_forget hf ▸ .absorbed
  | scales hk hi =>
    obtain ⟨inner, rfl, hi₁⟩ := exists_unary_of_forget hf
    obtain ⟨inner', rfl, hi₂⟩ := exists_unary_of_forget hg
    exact .scales hk (equalInner_congr hi₁ hi₂ ▸ hi)
  | heads htails hu =>
    obtain ⟨a, as, rfl, ha, has⟩ := exists_product_cons_of_forget hf
    obtain ⟨b, bs, rfl, hb, hbs⟩ := exists_product_cons_of_forget hg
    exact .heads (equalAll_congr has hbs ▸ htails)
      (beq_congr (forget_unit_congr ha) (forget_unit_congr hb) ▸ hu)
  | numerators hd =>
    obtain ⟨n, d, rfl, -, hd₁⟩ := exists_quotient_of_forget hf
    obtain ⟨n', d', rfl, -, hd₂⟩ := exists_quotient_of_forget hg
    exact .numerators (beq_congr hd₁ hd₂ ▸ hd)
  | values hv hw => exact .values (value?_congr hf ▸ hv) (value?_congr hg ▸ hw)

theorem isChain_not_addable_congr {fs gs : List (Fn Exact)} (h : fs.map forget = gs.map forget)
    (hfs : fs.IsChain fun f g => ¬ Addable f g) : gs.IsChain fun f g => ¬ Addable f g := by
  refine isChain_of_forall₂ (fun hx hy hxy hadd => hxy ?_) (map_forget_eq_iff.1 h) hfs
  exact hadd.congr hx.symm hy.symm

theorem isChain_mergeMultiply?_congr {fs gs : List (Fn Exact)} (h : List.Forall₂ Rescaled fs gs)
    (hfs : fs.IsChain fun f g => mergeMultiply? f g = none) :
    gs.IsChain fun f g => mergeMultiply? f g = none :=
  isChain_of_forall₂ (fun hx hy => hx.mergeMultiply?_eq_none hy) h hfs

/-- Which constants are canonical does not matter for what is left to merge. -/
theorem Reduced.congr (h : f.Reduced) (hg : f.forget = g.forget) : g.Reduced := by
  induction h generalizing g with
  | value hv => exact .value (value?_congr hg ▸ hv)
  | undefined => exact eq_undefined_of_forget hg ▸ .undefined
  | plain hs hp hk =>
    obtain ⟨inner, rfl, hi⟩ := exists_unary_of_forget hg
    obtain rfl : inner = none := by simpa using hi.symm
    exact .plain hs hp hk
  | chain hs hp hk h1 hf hu hv hid ih =>
    obtain ⟨inner, rfl, hi⟩ := exists_unary_of_forget hg
    obtain ⟨f', rfl, hf'⟩ := Option.map_eq_some_iff.1 hi.symm
    exact .chain hs hp hk h1 (ih hf'.symm) (isUndefined_congr hf' ▸ hu) (value?_congr hf' ▸ hv)
      (isIdentity_congr hf' ▸ hid)
  | sum hlen ht hu h0 hapart ih =>
    obtain ⟨us, rfl, hsame⟩ := exists_sum_of_forget hg
    have hus := map_forget_eq_iff.1 hsame
    have hmem {u : Fn Exact} (hu : u ∈ us) := exists_mem_of_forall₂ hus hu
    refine .sum (hus.length_eq ▸ hlen) (fun u hu => ?_) (fun u hu' => ?_) (fun u hu => ?_)
      (isChain_not_addable_congr hsame hapart)
    · obtain ⟨t, ht, htu⟩ := hmem hu
      exact ih t ht htu
    · obtain ⟨t, ht, htu⟩ := hmem hu'
      exact isUndefined_congr htu ▸ hu t ht
    · obtain ⟨t, ht, htu⟩ := hmem hu
      exact value?_congr htu ▸ h0 t ht
  | @product f fs hne hf hu hv hone hapart ih =>
    obtain ⟨gs, rfl, hgs⟩ := exists_product_of_forget hg
    rw [map_forget_eq_iff] at hgs
    cases hgs with
    | @cons _ g _ gs hfg hfgs =>
      have hall : List.Forall₂ (fun f g => f.forget = g.forget) (f :: fs) (g :: gs) :=
        .cons hfg hfgs
      have hmem {b : Fn Exact} (hb : b ∈ g :: gs) := exists_mem_of_forall₂ hall hb
      refine .product ?_ (fun b hb => ?_) (fun b hb => ?_) (fun b hb => ?_) (fun b hb => ?_)
        (isChain_mergeMultiply?_congr (hall.imp fun _ _ => rescaled_of_forget) hapart)
      · rintro rfl
        cases hfgs
        exact hne rfl
      · obtain ⟨a, ha, hab⟩ := hmem hb
        exact ih a ha hab
      · obtain ⟨a, ha, hab⟩ := hmem hb
        exact isUndefined_congr hab ▸ hu a ha
      · obtain ⟨a, ha, hab⟩ := hmem hb
        exact value?_congr hab ▸ hv a ha
      · obtain ⟨a, ha, hab⟩ := exists_mem_of_forall₂ hfgs hb
        exact scale_congr hab ▸ hone a ha
  | quotient hn hd hnu hdu h0 hapart ihn ihd =>
    obtain ⟨n, d, rfl, hn', hd'⟩ := exists_quotient_of_forget hg
    refine .quotient (ihn hn') (ihd hd') (isUndefined_congr hn' ▸ hnu) (isUndefined_congr hd' ▸ hdu)
      (value?_congr hn' ▸ h0) ?_
    exact (rescaled_of_forget hn').mergeDivide?_eq_none (rescaled_of_forget hd') hapart
  | piecewise hr hs ih =>
    obtain ⟨ts, rfl, hts⟩ := exists_piecewise_of_forget hg
    refine .piecewise (fun t ht => ?_) fun t ht => ?_
    · obtain ⟨s, hs', hst⟩ := exists_mem_of_forall₂ hts ht
      exact hst.1 ▸ hr s hs'
    · obtain ⟨s, hs', hst⟩ := exists_mem_of_forall₂ hts ht
      exact ih s hs' hst.2

end Fn

end FunctionAlgebra
