import FunctionAlgebra.Fn.Scale
import FunctionAlgebra.Proofs.Value

/-!
# Values of scaled functions

## Main statements

* `Fn.scaleBy_gives` — a function times a number.
* `Fn.withScale_gives`, `Fn.DefinedAt.unit` — a function with another leading coefficient.
-/

namespace FunctionAlgebra

open Exact (real)

noncomputable section

theorem Kernel.atScale_of_ne_zero {k : Kernel Exact} {s : Exact} (h : s ≠ 0) :
    k.atScale s = k := by
  cases k <;> simp [atScale, h]

namespace Fn

variable {x : ℝ}

theorem const_gives (r : ℝ) : (const (real r)).Gives x r := ⟨by simp, rfl⟩

theorem ofValue_gives (r : ℝ) : (ofValue (real r)).Gives x r := by
  rw [ofValue]
  split_ifs with h0 h1 hn
  · obtain rfl : r = 0 := by simpa using h0
    exact ⟨by simp, rfl⟩
  · obtain rfl : r = 1 := by simpa using h1
    exact ⟨by simp, rfl⟩
  · simp at hn
  · exact const_gives r

theorem unary_zero_gives (k : Kernel Exact) (inner : Option (Fn Exact)) :
    (unary k 0 inner).Gives x 0 :=
  ⟨(definedAt_unary ..).2 (.inl rfl), by simp [value_unary]⟩

theorem unary_gives {k : Kernel Exact} {inner : Option (Fn Exact)} (s : ℝ)
    (hi : InnerDefinedAt x inner) (hk : k.DefinedAt (innerValue x inner)) :
    (unary k (real s) inner).Gives x (s * k.value (innerValue x inner)) :=
  ⟨(definedAt_unary ..).2 (.inr ⟨trivial, hi, hk⟩), value_unary ..⟩

theorem scaled_gives {k : Kernel Exact} {s : Exact} {inner : Option (Fn Exact)} {r : ℝ}
    (h : (unary k s inner).Gives x r) : (scaled k s inner).Gives x r := by
  by_cases hs : s = 0
  · subst hs
    have : r = 0 := by rw [← h.value_eq, value_unary]; simp
    exact this ▸ unary_zero_gives ..
  · rwa [scaled, Kernel.atScale_of_ne_zero hs]

/-! ## The leading coefficient -/

theorem DefinedAt.isReal_scale {f : Fn Exact} (h : f.DefinedAt x) : f.scale.IsReal := by
  induction f with
  | zero | one | undefined | sum | product | piecewise => trivial
  | const v => exact (definedAt_const v).1 h
  | plain k s | chain k s f =>
    rcases (definedAt_unary ..).1 h with rfl | h
    · trivial
    · exact h.1
  | quotient n d ihn => exact ihn ((definedAt_quotient n d).1 h).1

theorem value_eq_zero_of_scale {f : Fn Exact} (h : f.scale = 0) : f.value x = 0 := by
  induction f with
  | zero => rfl
  | const v =>
    obtain rfl : v = 0 := h
    rfl
  | plain k s | chain k s f =>
    obtain rfl : s = 0 := h
    simp [value_unary]
  | quotient n d ihn => simp [ihn h]
  | one | undefined | sum | product | piecewise => simp [scale, Exact.zero_eq, Exact.one_eq] at h

/-! ## Times a number -/

theorem scaleBy_zero {f : Fn Exact} (h : f.isUndefined = false) : f.scaleBy 0 = zero := by
  cases f <;> simp_all [scaleBy, isUndefined]

@[simp] theorem scaleBy_one (f : Fn Exact) : f.scaleBy 1 = f := by
  cases f <;> simp [scaleBy, Exact.zero_eq, Exact.one_eq]

theorem DefinedAt.isUndefined {f : Fn Exact} (h : f.DefinedAt x) : f.isUndefined = false := by
  cases f <;> first | rfl | exact (not_definedAt_undefined h).elim

/-- A function times a number. -/
theorem scaleBy_gives {f : Fn Exact} (c : ℝ) (h : f.DefinedAt x) :
    (f.scaleBy (real c)).Gives x (c * f.value x) := by
  by_cases h0 : c = 0
  · subst h0
    exact (scaleBy_zero h.isUndefined).symm ▸ ⟨by simp, by simp⟩
  by_cases h1 : c = 1
  · subst h1
    exact (scaleBy_one f).symm ▸ ⟨h, by simp⟩
  have hc0 : (real c == 0) = false := by simpa using h0
  have hc1 : (real c == 1) = false := by simpa using h1
  induction f with
  | zero =>
    simp only [scaleBy, hc0, hc1, Bool.false_eq_true, if_false]
    simpa [Exact.zero_eq] using ofValue_gives (x := x) (0 * c)
  | one =>
    simp only [scaleBy, hc0, hc1, Bool.false_eq_true, if_false]
    simpa [Exact.one_eq] using ofValue_gives (x := x) (1 * c)
  | const v =>
    rw [definedAt_const] at h
    rw [h.eq_real]
    simp only [scaleBy, hc0, hc1, Bool.false_eq_true, if_false]
    simpa [mul_comm] using ofValue_gives (x := x) (v.toReal * c)
  | undefined => exact (not_definedAt_undefined h).elim
  | plain k s | chain k s f =>
    simp only [scaleBy, hc0, hc1, Bool.false_eq_true, if_false]
    apply scaled_gives
    rcases (definedAt_unary ..).1 h with rfl | ⟨hs, hi, hk⟩
    · simpa [value_unary, Exact.zero_eq] using unary_zero_gives (x := x) k _
    · have := unary_gives (s.toReal * c) hi hk
      rw [← Exact.real_mul, ← hs.eq_real] at this
      rwa [value_unary, ← mul_assoc, mul_comm c]
  | sum ts ih =>
    simp only [scaleBy, hc0, hc1, Bool.false_eq_true, if_false, scaleAll_eq_map]
    rw [definedAt_sum] at h
    constructor
    · simpa using fun t ht => (ih t ht (h t ht)).defined
    · have : ts.map (value x ∘ scaleBy (real c)) = ts.map fun t => c * t.value x :=
        List.map_congr_left fun t ht => (ih t ht (h t ht)).value_eq
      simp [this, List.sum_map_mul_left]
  | product fs ih =>
    simp only [scaleBy, hc0, hc1, Bool.false_eq_true, if_false]
    obtain ⟨hne, h⟩ := (definedAt_product fs).1 h
    cases fs with
    | nil => exact (hne rfl).elim
    | cons f fs =>
      have hf := ih f (by simp) (h f (by simp))
      constructor
      · simpa [scaleFirst, hf.defined] using fun g hg => h g (by simp [hg])
      · simp [scaleFirst, hf.value_eq, mul_assoc]
  | quotient n d ihn =>
    simp only [scaleBy, hc0, hc1, Bool.false_eq_true, if_false]
    obtain ⟨hn, hd, hd0⟩ := (definedAt_quotient n d).1 h
    rw [value_quotient, ← mul_div_assoc]
    exact (ihn hn).div hd.gives hd0
  | piecewise segments ih =>
    simp only [scaleBy, hc0, hc1, Bool.false_eq_true, if_false]
    obtain ⟨i, s, hi, hs, hd⟩ := (definedAt_piecewise segments).1 h
    rw [scalePayloads_eq_map, value_piecewise hi hs]
    have hs' : (segments.map (·.map (scaleBy (real c))))[i]? = some (s.map (scaleBy (real c))) := by
      simp [hs]
    refine piecewise_gives ((visited?_congr (by simp [Segment.map]) _).trans hi) hs' ?_
    exact ih s (List.mem_of_getElem? hs) hd

/-! ## With another leading coefficient -/

theorem multiplied_gives {f : Fn Exact} (c : ℝ) (h : f.DefinedAt x) (h1 : f.scale = 1) :
    (if (1 : Exact) == real c then f else f.scaleBy (real c / 1)).Gives x
      (c * (f.value x / f.scale.toReal)) := by
  rw [h1, Exact.toReal_one, div_one]
  split_ifs with hc
  · have hc := (Exact.beq_iff.1 hc).1
    obtain rfl : c = 1 := by simpa using hc.symm
    simpa using h.gives
  · rw [Exact.one_eq, Exact.real_div c one_ne_zero, div_one]
    exact scaleBy_gives c h

/-- A function whose leading coefficient is not zero, with another one. -/
theorem withScale_gives {f : Fn Exact} (c : ℝ) (h : f.DefinedAt x) (h0 : f.scale ≠ 0) :
    (f.withScale (real c)).Gives x (c * (f.value x / f.scale.toReal)) := by
  induction f with
  | zero => exact (h0 rfl).elim
  | one =>
    rw [withScale]
    split_ifs with hc
    · have : real c = real 1 := Exact.beq_one_iff.1 hc
      obtain rfl : c = 1 := by simpa using this
      exact ⟨by simp, by simp [scale]⟩
    · simpa [scale] using ofValue_gives (x := x) c
  | const v =>
    rw [definedAt_const] at h
    have hv : v.toReal / v.toReal = 1 := div_self fun hv => h0 (h.toReal_eq_zero_iff.1 hv)
    simp only [withScale, value_const, scale, hv, mul_one]
    split_ifs with hc
    · rw [← (Exact.beq_iff.1 hc).1]
      exact const_gives c
    · exact ofValue_gives c
  | undefined => exact (not_definedAt_undefined h).elim
  | plain k s | chain k s f =>
    obtain ⟨hs, hi, hk⟩ := ((definedAt_unary ..).1 h).resolve_left h0
    have hs0 : s.toReal ≠ 0 := fun h => h0 (hs.toReal_eq_zero_iff.1 h)
    simp only [withScale, value_unary, scale, mul_div_cancel_left₀ _ hs0]
    split_ifs with hc
    · rw [← (Exact.beq_iff.1 hc).1]
      exact unary_gives c hi hk
    · exact scaled_gives (unary_gives c hi hk)
  | sum ts => exact multiplied_gives c h rfl
  | product fs => exact multiplied_gives c h rfl
  | quotient n d ihn =>
    obtain ⟨hn, hd, hd0⟩ := (definedAt_quotient n d).1 h
    have hs : n.scale.toReal ≠ 0 := fun h => h0 (hn.isReal_scale.toReal_eq_zero_iff.1 h)
    simp only [withScale, value_quotient, scale]
    split_ifs with hc
    · have : c = n.scale.toReal := by rw [← (Exact.beq_iff.1 hc).1]; rfl
      exact ⟨h, by rw [this, value_quotient]; field_simp⟩
    · have := (ihn hn h0).div hd.gives hd0
      exact ⟨this.defined, by rw [this.value_eq]; field_simp⟩
  | piecewise segments => exact multiplied_gives c h rfl

theorem withScale_scale {f : Fn Exact} (h : f.scale ≠ .nan) : f.withScale f.scale = f := by
  have hbeq : (f.scale == f.scale) = true := Exact.beq_iff.2 ⟨rfl, h⟩
  cases f with
  | zero | one | undefined | sum | product | piecewise => simp [withScale, scale]
  | const v => exact if_pos hbeq
  | unary k s inner => exact if_pos hbeq
  | quotient n d =>
    rw [scale] at hbeq ⊢
    rw [withScale, if_pos hbeq]

theorem scale_withScale_one (f : Fn Exact) : (f.withScale 1).scale = 1 := by
  have h10 : ((1 : Exact) == 0) = false := by simp [Exact.one_eq]
  have hone : ofValue (1 : Exact) = one := by simp [ofValue, h10]
  induction f with
  | zero => simp [withScale, h10, hone, scale]
  | one | undefined | sum | product | piecewise => simp [withScale, scale]
  | const v =>
    rw [withScale]
    split_ifs with h
    · exact (Exact.beq_iff.1 h).1.symm
    · simp [hone, scale]
  | plain k s | chain k s f =>
    rw [withScale]
    split_ifs with h
    · exact (Exact.beq_iff.1 h).1.symm
    · rfl
  | quotient n d ihn =>
    rw [withScale]
    split_ifs with h
    · exact (Exact.beq_iff.1 h).1.symm
    · exact ihn

theorem scale_unit_eq_zero_iff {f : Fn Exact} : f.unit.scale = 0 ↔ f.scale = 0 := by
  rw [unit]
  split_ifs with h
  · rfl
  · rw [Bool.or_eq_true, Exact.beq_zero_iff, Exact.beq_one_iff, not_or] at h
    rw [scale_withScale_one]
    simpa [Exact.one_eq] using h.1

/-- A function is its leading coefficient times its unit copy. -/
theorem DefinedAt.unit {f : Fn Exact} (h : f.DefinedAt x) :
    f.unit.DefinedAt x ∧ f.value x = f.scale.toReal * f.unit.value x := by
  rw [Fn.unit]
  split_ifs with h01
  · refine ⟨h, ?_⟩
    rw [Bool.or_eq_true, Exact.beq_zero_iff, Exact.beq_one_iff] at h01
    rcases h01 with h0 | h1
    · simp [value_eq_zero_of_scale h0]
    · simp [h1]
  · rw [Bool.or_eq_true, Exact.beq_zero_iff, Exact.beq_one_iff, not_or] at h01
    have hu := withScale_gives 1 h h01.1
    have h0 : f.scale.toReal ≠ 0 := fun h0 => h01.1 (h.isReal_scale.toReal_eq_zero_iff.1 h0)
    refine ⟨hu.defined, ?_⟩
    rw [Exact.one_eq, hu.value_eq, one_mul, mul_div_cancel₀ _ h0]

end Fn

end

end FunctionAlgebra
