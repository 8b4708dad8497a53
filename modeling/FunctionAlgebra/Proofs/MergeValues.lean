import FunctionAlgebra.Proofs.Equality
import FunctionAlgebra.Proofs.MergeCases
import FunctionAlgebra.Proofs.Scaling

/-!
# Values of merged functions

Where two functions are defined, so is what they are merged into, and it has the right value there.

## Main statements

* `Fn.Multiplied.gives`, `Fn.Divided.gives`, `Fn.Added.gives` — merges are sound.
-/

namespace FunctionAlgebra

open Exact (real)

noncomputable section

/-! ## Powers -/

namespace Kernel

theorem power_definedAt_iff {p : Exact} {y : ℝ} :
    (power p).DefinedAt y ↔
      p.IsReal ∧ (y = 0 → 0 ≤ p.toReal) ∧ (y < 0 → ∃ n : ℤ, p.toReal = n) :=
  Iff.rfl

/-- Powers of one base are multiplied by adding exponents. -/
theorem power_add {p q : Exact} {y : ℝ} (hp : (power p).DefinedAt y) (hq : (power q).DefinedAt y) :
    (power (p + q)).DefinedAt y ∧
      (power (p + q)).value y = (power p).value y * (power q).value y := by
  obtain ⟨hp, hp0, hpn⟩ := hp
  obtain ⟨hq, hq0, hqn⟩ := hq
  simp only [power_definedAt_iff, value, Exact.toReal_add hp hq, hp.add hq, true_and]
  generalize p.toReal = p at *
  generalize q.toReal = q at *
  rcases lt_trichotomy y 0 with hy | rfl | hy
  · obtain ⟨n, rfl⟩ := hpn hy
    obtain ⟨m, rfl⟩ := hqn hy
    refine ⟨⟨fun h => (hy.ne h).elim, fun _ => ⟨n + m, by push_cast; rfl⟩⟩, ?_⟩
    rw [← Int.cast_add, Real.rpow_intCast, Real.rpow_intCast, Real.rpow_intCast, zpow_add₀ hy.ne]
  · have hp0 := hp0 rfl
    have hq0 := hq0 rfl
    refine ⟨⟨fun _ => add_nonneg hp0 hq0, fun h => (lt_irrefl _ h).elim⟩, ?_⟩
    exact Real.rpow_add_of_nonneg le_rfl hp0 hq0
  · exact ⟨⟨fun h => (hy.ne' h).elim, fun h => (lt_asymm hy h).elim⟩, Real.rpow_add hy p q⟩

/-- Powers of one base are divided by subtracting exponents. -/
theorem power_sub {p q : Exact} {y : ℝ} (hp : (power p).DefinedAt y) (hq : (power q).DefinedAt y)
    (h0 : (power q).value y ≠ 0) :
    (power (p - q)).DefinedAt y ∧
      (power (p - q)).value y = (power p).value y / (power q).value y := by
  obtain ⟨hp, hp0, hpn⟩ := hp
  obtain ⟨hq, hq0, hqn⟩ := hq
  simp only [power_definedAt_iff, value, Exact.toReal_sub hp hq, hp.sub hq, true_and] at h0 ⊢
  generalize p.toReal = p at *
  generalize q.toReal = q at *
  rcases lt_trichotomy y 0 with hy | rfl | hy
  · obtain ⟨n, rfl⟩ := hpn hy
    obtain ⟨m, rfl⟩ := hqn hy
    refine ⟨⟨fun h => (hy.ne h).elim, fun _ => ⟨n - m, by push_cast; rfl⟩⟩, ?_⟩
    rw [← Int.cast_sub, Real.rpow_intCast, Real.rpow_intCast, Real.rpow_intCast, zpow_sub₀ hy.ne]
  · -- The divisor is a power of zero and not zero, so its exponent is zero.
    obtain rfl : q = 0 := by
      by_contra hq
      exact h0 (Real.zero_rpow hq)
    simpa using hp0 rfl
  · exact ⟨⟨fun h => (hy.ne' h).elim, fun h => (lt_asymm hy h).elim⟩, Real.rpow_sub hy p q⟩

/-- Powers with one exponent are multiplied by multiplying bases. -/
theorem power_mul {p : Exact} {y z : ℝ} (hy : (power p).DefinedAt y) (hz : (power p).DefinedAt z) :
    (power p).DefinedAt (y * z) ∧
      (power p).value (y * z) = (power p).value y * (power p).value z := by
  obtain ⟨hp, hy0, hyn⟩ := hy
  obtain ⟨-, hz0, hzn⟩ := hz
  simp only [power_definedAt_iff, value, hp, true_and]
  generalize p.toReal = p at *
  have hzero : y * z = 0 → 0 ≤ p := fun h => (mul_eq_zero.1 h).elim hy0 hz0
  by_cases hint : ∃ n : ℤ, p = n
  · refine ⟨⟨hzero, fun _ => hint⟩, ?_⟩
    obtain ⟨n, rfl⟩ := hint
    rw [Real.rpow_intCast, Real.rpow_intCast, Real.rpow_intCast, mul_zpow]
  · have hy : 0 ≤ y := not_lt.1 fun h => hint (hyn h)
    have hz : 0 ≤ z := not_lt.1 fun h => hint (hzn h)
    exact ⟨⟨hzero, fun h => (not_lt.2 (mul_nonneg hy hz) h).elim⟩, Real.mul_rpow hy hz⟩

end Kernel

namespace Fn

variable {x : ℝ}

/-! ## Equal functions -/

theorem value_forget (f : Fn Exact) : f.forget.value x = f.value x := by
  induction f with
  | zero | one | const v | undefined => simp
  | plain k s => simp
  | chain k s f ih => simp [value_unary, innerValue, ih]
  | sum ts ih =>
    have : ts.map (value x ∘ forget) = ts.map (value x) := List.map_congr_left ih
    simp [this]
  | product fs ih =>
    have : fs.map (value x ∘ forget) = fs.map (value x) := List.map_congr_left ih
    simp [this]
  | quotient n d ihn ihd => simp [ihn, ihd]
  | piecewise segments ih =>
    have hv : visited? (segments.map (·.map forget)) (real x) = visited? segments (real x) :=
      visited?_congr (by simp [Segment.map]) _
    rw [forget_piecewise, value, value, hv]
    cases visited? segments (real x) with
    | none => simp [payloadValue]
    | some i =>
      rw [payloadValue_eq, payloadValue_eq, List.getElem?_map]
      cases hs : segments[i]? with
      | none => rfl
      | some s => exact ih s (List.mem_of_getElem? hs)

theorem definedAt_forget (f : Fn Exact) : f.forget.DefinedAt x ↔ f.DefinedAt x := by
  induction f with
  | zero | one | const v | undefined => simp
  | plain k s => simp
  | chain k s f ih => simp [definedAt_unary, innerValue, InnerDefinedAt, ih, value_forget]
  | sum ts ih =>
    simp only [forget_sum, definedAt_sum, List.forall_mem_map]
    exact forall₂_congr ih
  | product fs ih =>
    simp only [forget_product, definedAt_product, List.forall_mem_map, ne_eq, List.map_eq_nil_iff]
    exact and_congr_right fun _ => forall₂_congr ih
  | quotient n d ihn ihd => simp [ihn, ihd, value_forget]
  | piecewise segments ih =>
    have hv : visited? (segments.map (·.map forget)) (real x) = visited? segments (real x) :=
      visited?_congr (by simp [Segment.map]) _
    rw [forget_piecewise, definedAt_piecewise, definedAt_piecewise, hv]
    refine exists_congr fun i => ?_
    simp only [List.getElem?_map, Option.map_eq_some_iff]
    constructor
    · rintro ⟨-, hi, ⟨s, hs, rfl⟩, hd⟩
      exact ⟨s, hi, hs, (ih s (List.mem_of_getElem? hs)).1 hd⟩
    · rintro ⟨s, hi, hs, hd⟩
      exact ⟨_, hi, ⟨s, hs, rfl⟩, (ih s (List.mem_of_getElem? hs)).2 hd⟩

theorem value_congr {f g : Fn Exact} (h : f.forget = g.forget) : f.value x = g.value x := by
  rw [← value_forget f, h, value_forget]

theorem definedAt_congr {f g : Fn Exact} (h : f.forget = g.forget) :
    f.DefinedAt x ↔ g.DefinedAt x := by
  rw [← definedAt_forget f, h, definedAt_forget]

/-- Equal functions have one value. -/
theorem value_of_beq {f g : Fn Exact} (h : (f == g) = true) : f.value x = g.value x :=
  value_congr (beq_iff.1 h).1

theorem scale_of_beq {f g : Fn Exact} (h : (f == g) = true) : f.scale = g.scale := by
  rw [← scale_forget f, (beq_iff.1 h).1, scale_forget]

/-- Equal inner functions have one value, and where one is defined, so is the other. -/
theorem inner_of_equal {inner inner' : Option (Fn Exact)} (h : equalInner inner inner' = true) :
    innerValue x inner = innerValue x inner' ∧
      (InnerDefinedAt x inner ↔ InnerDefinedAt x inner') := by
  rcases equalInner_iff.1 h with ⟨rfl, rfl⟩ | ⟨f, g, rfl, rfl, hfg⟩
  · exact ⟨rfl, Iff.rfl⟩
  · have := (beq_iff.1 hfg).1
    simp [innerValue, InnerDefinedAt, value_congr this, definedAt_congr this]

/-! ## Values -/

theorem DefinedAt.value_of_value? {f : Fn Exact} {v : Exact} (hf : f.DefinedAt x)
    (h : f.value? = some v) : v = real (f.value x) := by
  cases f with
  | zero => exact (Option.some.inj h).symm
  | one => exact (Option.some.inj h).symm
  | const w =>
    obtain rfl := Option.some.inj h
    exact ((definedAt_const w).1 hf).eq_real
  | _ => cases h

/-! ## Merges -/

/-- A scaled standard function is zero, or its scale, its inner function and its kernel are
defined. -/
theorem unary_gives_of {k : Kernel Exact} {s : Exact} {inner : Option (Fn Exact)} (hs : s.IsReal)
    (h : s ≠ 0 → InnerDefinedAt x inner ∧ k.DefinedAt (innerValue x inner)) :
    (unary k s inner).Gives x (s.toReal * k.value (innerValue x inner)) := by
  by_cases h0 : s = 0
  · subst h0
    simpa using unary_zero_gives k inner
  · obtain ⟨hi, hk⟩ := h h0
    have := unary_gives s.toReal hi hk
    rwa [← hs.eq_real] at this

theorem Gives.unary {k : Kernel Exact} {s : Exact} {f : Fn Exact} {y : ℝ} (hf : f.Gives x y)
    (hs : s.IsReal) (hk : k.DefinedAt y) :
    (Fn.unary k s (some f)).Gives x (s.toReal * k.value y) := by
  obtain ⟨hd, rfl⟩ := hf
  exact unary_gives_of hs fun _ => ⟨by simpa [InnerDefinedAt] using hd, hk⟩

theorem DefinedAt.unary_isReal {k : Kernel Exact} {s : Exact} {inner : Option (Fn Exact)}
    (h : (unary k s inner).DefinedAt x) : s.IsReal :=
  h.isReal_scale

theorem DefinedAt.of_scale_ne_zero {k : Kernel Exact} {s : Exact} {inner : Option (Fn Exact)}
    (h : (unary k s inner).DefinedAt x) (h0 : s ≠ 0) :
    InnerDefinedAt x inner ∧ k.DefinedAt (innerValue x inner) :=
  (((definedAt_unary ..).1 h).resolve_left h0).2

theorem identity_gives : (identity : Fn Exact).Gives x x := by
  have hk : (Kernel.power 1).DefinedAt x := by
    refine ⟨trivial, fun _ => zero_le_one, fun _ => ⟨1, by simp⟩⟩
  have : (Fn.unary (.power 1) 1 none).Gives x _ := unary_gives_of Exact.isReal_one fun _ =>
    ⟨by simp [InnerDefinedAt], hk⟩
  simpa [Kernel.value, innerValue, identity] using this

theorem inner_gives {inner : Option (Fn Exact)} (h : InnerDefinedAt x inner) :
    (inner.getD identity).Gives x (innerValue x inner) := by
  cases inner with
  | none => exact identity_gives
  | some f => exact (h f rfl).gives

theorem sorted_pair_gives {f g : Fn Exact} {y z : ℝ} (hf : f.Gives x y) (hg : g.Gives x z) :
    (product (sort [f, g])).Gives x (y * z) := by
  have hp : (sort [f, g]).Perm [f, g] := sortStable_perm less [f, g]
  constructor
  · refine (definedAt_product _).2 ⟨?_, fun h hh => ?_⟩
    · intro h
      rw [h] at hp
      simpa using hp.length_eq
    · rcases List.mem_pair.1 (hp.mem_iff.1 hh) with rfl | rfl
      · exact hf.defined
      · exact hg.defined
  · rw [value_product, (hp.map _).prod_eq]
    simp [hf.value_eq, hg.value_eq]

section Powers

variable {p q s t : Exact} {inner inner' : Option (Fn Exact)}

/-- Powers of equal inner functions, multiplied. -/
theorem exponents_add_gives (hi : equalInner inner inner' = true)
    (hf : (unary (.power p) s inner).DefinedAt x) (hg : (unary (.power q) t inner').DefinedAt x) :
    (power inner (s * t) (p + q)).Gives x
      ((unary (.power p) s inner).value x * (unary (.power q) t inner').value x) := by
  have hs := hf.unary_isReal
  have ht := hg.unary_isReal
  obtain ⟨hval, -⟩ := inner_of_equal (x := x) hi
  have hdef (h0 : s * t ≠ 0) : InnerDefinedAt x inner ∧
      (Kernel.power p).DefinedAt (innerValue x inner) ∧
      (Kernel.power q).DefinedAt (innerValue x inner) := by
    rw [ne_eq, hs.mul_eq_zero_iff ht, not_or] at h0
    have hp := hf.of_scale_ne_zero h0.1
    have hq := hg.of_scale_ne_zero h0.2
    exact ⟨hp.1, hp.2, hval ▸ hq.2⟩
  have hgives := unary_gives_of (k := .power (p + q)) (hs.mul ht) fun h0 =>
    ⟨(hdef h0).1, (Kernel.power_add (hdef h0).2.1 (hdef h0).2.2).1⟩
  have heq : (s * t).toReal * (Kernel.power (p + q)).value (innerValue x inner) =
      (unary (.power p) s inner).value x * (unary (.power q) t inner').value x := by
    rw [value_unary, value_unary, ← hval, Exact.toReal_mul hs ht]
    by_cases h0 : s * t = 0
    · rcases (hs.mul_eq_zero_iff ht).1 h0 with rfl | rfl <;> simp
    · rw [(Kernel.power_add (hdef h0).2.1 (hdef h0).2.2).2]
      ring
  exact scaled_gives (heq ▸ hgives)

/-- Powers with one exponent, multiplied. -/
theorem bases_gives (hf : (unary (.power p) s inner).DefinedAt x)
    (hg : (unary (.power p) t inner').DefinedAt x) :
    (power (some (product (sort [inner.getD identity, inner'.getD identity]))) (s * t) p).Gives x
      ((unary (.power p) s inner).value x * (unary (.power p) t inner').value x) := by
  have hs := hf.unary_isReal
  have ht := hg.unary_isReal
  set y := innerValue x inner
  set z := innerValue x inner'
  set bases := product (sort [inner.getD identity, inner'.getD identity])
  have hdef (h0 : s * t ≠ 0) : bases.Gives x (y * z) ∧
      (Kernel.power p).DefinedAt y ∧ (Kernel.power p).DefinedAt z := by
    rw [ne_eq, hs.mul_eq_zero_iff ht, not_or] at h0
    have hp := hf.of_scale_ne_zero h0.1
    have hq := hg.of_scale_ne_zero h0.2
    exact ⟨sorted_pair_gives (inner_gives hp.1) (inner_gives hq.1), hp.2, hq.2⟩
  have hgives : (unary (.power p) (s * t) (some bases)).Gives x
      ((s * t).toReal * (Kernel.power p).value (bases.value x)) := by
    refine unary_gives_of (hs.mul ht) fun h0 => ?_
    obtain ⟨hb, hy, hz⟩ := hdef h0
    refine ⟨by simpa [InnerDefinedAt] using hb.defined, ?_⟩
    have := (Kernel.power_mul hy hz).1
    rwa [← hb.value_eq] at this
  have heq : (s * t).toReal * (Kernel.power p).value (bases.value x) =
      (unary (.power p) s inner).value x * (unary (.power p) t inner').value x := by
    rw [value_unary, value_unary, Exact.toReal_mul hs ht]
    by_cases h0 : s * t = 0
    · rcases (hs.mul_eq_zero_iff ht).1 h0 with rfl | rfl <;> simp
    · obtain ⟨hb, hy, hz⟩ := hdef h0
      rw [hb.value_eq, (Kernel.power_mul hy hz).2]
      ring
  exact scaled_gives (heq ▸ hgives)

/-- Powers of equal inner functions, divided. -/
theorem exponents_sub_gives (ht0 : t ≠ 0) (hi : equalInner inner inner' = true)
    (hf : (unary (.power p) s inner).DefinedAt x) (hg : (unary (.power q) t inner').DefinedAt x)
    (h0 : (unary (.power q) t inner').value x ≠ 0) :
    (power inner (s / t) (p - q)).Gives x
      ((unary (.power p) s inner).value x / (unary (.power q) t inner').value x) := by
  have hs := hf.unary_isReal
  have ht := hg.unary_isReal
  obtain ⟨hval, hinner⟩ := inner_of_equal (x := x) hi
  obtain ⟨hg', hq⟩ := hg.of_scale_ne_zero ht0
  rw [← hinner] at hg'
  rw [← hval] at hq
  rw [value_unary, ← hval] at h0
  have hq0 := right_ne_zero_of_mul h0
  have hdef (h0 : s ≠ 0) := Kernel.power_sub (hf.of_scale_ne_zero h0).2 hq hq0
  have hgives := unary_gives_of (k := .power (p - q)) (hs.div ht ht0) fun h0 =>
    ⟨hg', (hdef fun hs0 => h0 (by rw [hs0, Exact.zero_div ht ht0])).1⟩
  have heq : (s / t).toReal * (Kernel.power (p - q)).value (innerValue x inner) =
      (unary (.power p) s inner).value x / (unary (.power q) t inner').value x := by
    rw [value_unary, value_unary, ← hval, Exact.toReal_div hs ht ht0]
    by_cases h0 : s = 0
    · simp [h0]
    · rw [(hdef h0).2]
      ring
  exact scaled_gives (heq ▸ hgives)

end Powers

/-- The product of two functions, merged. -/
theorem Multiplied.gives {f g h : Fn Exact} (hm : Multiplied f g h) (hf : f.DefinedAt x)
    (hg : g.DefinedAt x) : h.Gives x (f.value x * g.value x) := by
  cases hm with
  | absorbed => exact (not_definedAt_undefined hf).elim
  | values hv hw =>
    rw [hf.value_of_value? hv, hg.value_of_value? hw]
    exact const_gives _
  | exponents hi => exact exponents_add_gives hi hf hg
  | bases _ hp =>
    obtain ⟨rfl, -⟩ := Exact.beq_iff.1 hp
    exact bases_gives hf hg

/-- The quotient of two functions, merged. -/
theorem Divided.gives {f g h : Fn Exact} (hm : Divided f g h) (hf : f.DefinedAt x)
    (hg : g.DefinedAt x) (h0 : g.value x ≠ 0) : h.Gives x (f.value x / g.value x) := by
  cases hm with
  | absorbed => exact (not_definedAt_undefined hf).elim
  | values hv hw =>
    rw [hf.value_of_value? hv, hg.value_of_value? hw, Exact.real_div _ h0]
    exact const_gives _
  | exponents ht0 hi => exact exponents_sub_gives (by simpa using ht0) hi hf hg h0

/-- Standard functions that differ in their scales only, added. -/
theorem scales_gives {k : Kernel Exact} {s t : Exact} {inner inner' : Option (Fn Exact)}
    (hi : equalInner inner inner' = true) (hf : (unary k s inner).DefinedAt x)
    (hg : (unary k t inner').DefinedAt x) :
    (scaled k (s + t) inner).Gives x
      ((unary k s inner).value x + (unary k t inner').value x) := by
  have hs := hf.unary_isReal
  have ht := hg.unary_isReal
  obtain ⟨hval, hinner⟩ := inner_of_equal (x := x) hi
  have heq : (s + t).toReal * k.value (innerValue x inner) =
      (unary k s inner).value x + (unary k t inner').value x := by
    rw [value_unary, value_unary, ← hval, Exact.toReal_add hs ht]
    ring
  rw [← heq]
  refine scaled_gives (unary_gives_of (hs.add ht) fun h0 => ?_)
  -- One of the two scales is not zero, so the inner function is defined.
  by_cases hs0 : s = 0
  · have ht0 : t ≠ 0 := fun ht0 => h0 (by rw [hs0, ht0]; simp [Exact.zero_eq])
    have := hg.of_scale_ne_zero ht0
    exact ⟨hinner.2 this.1, hval ▸ this.2⟩
  · exact hf.of_scale_ne_zero hs0

/-- The heads of two products whose unit copies are equal, added. -/
theorem heads_gives {a b : Fn Exact} (hu : (a.unit == b.unit) = true) (ha : a.DefinedAt x)
    (hb : b.DefinedAt x) :
    (a.withScale (a.scale + b.scale)).Gives x (a.value x + b.value x) := by
  have hsa := ha.isReal_scale
  have hsb := hb.isReal_scale
  by_cases h0 : a.scale = 0
  · have hb0 : b.scale = 0 := by
      rwa [← scale_unit_eq_zero_iff, ← scale_of_beq hu, scale_unit_eq_zero_iff]
    have hsum : a.scale + b.scale = a.scale := by
      rw [h0, hb0, Exact.zero_eq, Exact.real_add, add_zero]
    rw [hsum, withScale_scale (by simp [h0, Exact.zero_eq])]
    exact ⟨ha, by simp [value_eq_zero_of_scale h0, value_eq_zero_of_scale hb0]⟩
  · have hgives := withScale_gives (a.scale + b.scale).toReal ha h0
    rw [← (hsa.add hsb).eq_real] at hgives
    have ha0 : a.scale.toReal ≠ 0 := fun h => h0 (hsa.toReal_eq_zero_iff.1 h)
    have heq : (a.scale + b.scale).toReal * (a.value x / a.scale.toReal) =
        a.value x + b.value x := by
      rw [ha.unit.2, hb.unit.2, value_of_beq hu, Exact.toReal_add hsa hsb,
        mul_div_cancel_left₀ _ ha0, add_mul]
    exact heq ▸ hgives

/-- The sum of two functions, merged. -/
theorem Added.gives {simplify : Fn Exact → Attempt Exact (Fn Exact)} {f g h : Fn Exact}
    (hm : Added simplify f g h) (hf : f.DefinedAt x) (hg : g.DefinedAt x)
    (hs : ∀ n n' top, n.DefinedAt x → n'.DefinedAt x →
      (simplify (sum [n, n'])).outcome = .ok top → top.Gives x (n.value x + n'.value x)) :
    h.Gives x (f.value x + g.value x) := by
  cases hm with
  | absorbed => exact (not_definedAt_undefined hf).elim
  | values hv hw =>
    rw [hf.value_of_value? hv, hg.value_of_value? hw]
    exact const_gives _
  | scales hk hi =>
    obtain ⟨rfl, -⟩ := Kernel.beq_iff.1 hk
    exact scales_gives hi hf hg
  | @heads a as b bs h hu =>
    obtain ⟨-, hf⟩ := (definedAt_product _).1 hf
    obtain ⟨-, hg⟩ := (definedAt_product _).1 hg
    rw [List.forall_mem_cons] at hf hg
    have htails : as.map (value x) = bs.map (value x) := by
      rw [equalAll_iff_forall₂] at h
      have := h.imp fun _ _ h => value_of_beq (x := x) h
      rwa [← List.forall₂_map_right_iff, ← List.forall₂_map_left_iff,
        List.forall₂_eq_eq_eq] at this
    have hhead := heads_gives hu hf.1 hg.1
    constructor
    · rw [definedAt_product, List.forall_mem_cons]
      exact ⟨by simp, hhead.defined, hf.2⟩
    · simp only [value_product, List.map_cons, List.prod_cons, hhead.value_eq, htails]
      ring
  | @numerators n d n' d' top h ht =>
    obtain ⟨hn, hd, hd0⟩ := (definedAt_quotient n d).1 hf
    obtain ⟨hn', hd', -⟩ := (definedAt_quotient n' d').1 hg
    have htop := hs n n' top hn hn' ht
    rw [value_quotient, value_quotient, ← value_of_beq h, ← add_div]
    exact htop.div hd.gives hd0

end Fn

end

end FunctionAlgebra
