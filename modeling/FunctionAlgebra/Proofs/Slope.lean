import FunctionAlgebra.Proofs.Numbers
import FunctionAlgebra.Proofs.Scaling
import Mathlib

/-!
# Differentiation by the textbook rules

The rules give a number for every tree, without simplification. It is the derivative wherever the
function is differentiable by these rules.

## Main definitions

* `Kernel.slope`, `Fn.slope` — the derivative by the rules for standard functions, sums, products,
  quotients and chains.
* `Kernel.SmoothAt`, `Fn.SmoothAt` — the rules apply at a point.

## Main statements

* `Fn.SmoothAt.definedAt` — functions are defined where the rules apply.
* `Fn.SmoothAt.hasDerivAt` — the rules give the derivative of the value.
-/

namespace FunctionAlgebra

open Exact (real)

noncomputable section

namespace Kernel

def slope (k : Kernel Exact) (y : ℝ) : ℝ :=
  match k with
  | power p => p.toReal * y ^ (p.toReal - 1)
  | sine omega shift => omega.toReal * Real.cos (omega.toReal * y + shift.toReal)
  | arcSine _ => 1 / √(1 - y ^ 2)
  | arcTangent _ => 1 / (1 + y ^ 2)
  | exponential => Real.exp y
  | logarithm => 1 / y

/-- A standard function is defined at an argument and the rule for its derivative applies: the base
of a power whose exponent is no integer is positive, and the arguments of an inverse sine or a
logarithm lie inside the domain. -/
def SmoothAt (k : Kernel Exact) (y : ℝ) : Prop :=
  match k with
  | power p => p.IsReal ∧ (y = 0 → 0 ≤ p.toReal) ∧ ((¬ ∃ n : ℤ, p.toReal = n) → 0 < y)
  | sine omega shift => omega.IsReal ∧ shift.IsReal
  | arcSine shift => shift.IsReal ∧ -1 < y ∧ y < 1
  | arcTangent shift => shift.IsReal
  | exponential => True
  | logarithm => 0 < y

theorem SmoothAt.definedAt {k : Kernel Exact} {y : ℝ} (h : k.SmoothAt y) : k.DefinedAt y := by
  cases k with
  | power p =>
    obtain ⟨hp, h0, hpos⟩ := h
    refine ⟨hp, h0, fun hy => ?_⟩
    by_contra hint
    exact lt_asymm hy (hpos hint)
  | arcSine shift => exact ⟨h.1, h.2.1.le, h.2.2.le⟩
  | sine | arcTangent | exponential | logarithm => exact h

end Kernel

namespace Fn

mutual

/-- The derivative of a function at a point by the textbook rules. -/
def slope (x : ℝ) : Fn Exact → ℝ
  | zero | one | const _ | undefined => 0
  | unary k s none => s.toReal * k.slope x
  | unary k s (some f) => s.toReal * (k.slope (f.value x) * f.slope x)
  | sum ts => sumSlope x ts
  | product fs => productSlope x fs
  | quotient n d => (n.slope x * d.value x - n.value x * d.slope x) / d.value x ^ 2
  | piecewise segments => payloadSlope x (visited? segments (real x)) segments

def sumSlope (x : ℝ) : List (Fn Exact) → ℝ
  | [] => 0
  | t :: ts => t.slope x + sumSlope x ts

def productSlope (x : ℝ) : List (Fn Exact) → ℝ
  | [] => 0
  | f :: fs => f.slope x * productValue x fs + f.value x * productSlope x fs

def payloadSlope (x : ℝ) : Option Nat → List (Segment Exact (Fn Exact)) → ℝ
  | some 0, ⟨_, f⟩ :: _ => f.slope x
  | some (i + 1), _ :: rest => payloadSlope x (some i) rest
  | _, _ => 0

end

mutual

/-- The textbook rules apply to a function at a point and to each of its parts that is visited
there: standard functions are smooth at their arguments, denominators are not zero, and the point
lies inside a segment, not at its ends. The inner function of a standard function with scale zero
is not visited. -/
def SmoothAt (x : ℝ) : Fn Exact → Prop
  | zero | one => True
  | const v => v.IsReal
  | undefined => False
  | unary k s none => s = 0 ∨ s.IsReal ∧ k.SmoothAt x
  | unary k s (some f) => s = 0 ∨ s.IsReal ∧ f.SmoothAt x ∧ k.SmoothAt (f.value x)
  | sum ts => AllSmoothAt x ts
  | product fs => fs ≠ [] ∧ AllSmoothAt x fs
  | quotient n d => n.SmoothAt x ∧ d.SmoothAt x ∧ d.value x ≠ 0
  | piecewise segments => PayloadSmoothAt x (visited? segments (real x)) segments

def AllSmoothAt (x : ℝ) : List (Fn Exact) → Prop
  | [] => True
  | f :: fs => f.SmoothAt x ∧ AllSmoothAt x fs

def PayloadSmoothAt (x : ℝ) : Option Nat → List (Segment Exact (Fn Exact)) → Prop
  | some 0, ⟨range, f⟩ :: _ =>
    f.SmoothAt x ∧ Scalar.lt range.low (real x) = true ∧ Scalar.lt (real x) range.high = true
  | some (i + 1), _ :: rest => PayloadSmoothAt x (some i) rest
  | _, _ => False

end

variable {x : ℝ}

@[simp] theorem slope_zero : (zero : Fn Exact).slope x = 0 := rfl

@[simp] theorem slope_one : (one : Fn Exact).slope x = 0 := rfl

@[simp] theorem slope_const (v : Exact) : (const v).slope x = 0 := rfl

@[simp] theorem slope_plain (k : Kernel Exact) (s : Exact) :
    (unary k s none).slope x = s.toReal * k.slope x := rfl

@[simp] theorem slope_chain (k : Kernel Exact) (s : Exact) (f : Fn Exact) :
    (unary k s (some f)).slope x = s.toReal * (k.slope (f.value x) * f.slope x) := rfl

@[simp] theorem slope_sum (ts : List (Fn Exact)) :
    (sum ts).slope x = (ts.map (slope x)).sum := by
  rw [slope]
  induction ts with
  | nil => simp [sumSlope]
  | cons t ts ih => simp [sumSlope, ih]

@[simp] theorem slope_product (fs : List (Fn Exact)) :
    (product fs).slope x = productSlope x fs := rfl

@[simp] theorem productSlope_cons (f : Fn Exact) (fs : List (Fn Exact)) :
    productSlope x (f :: fs) =
      f.slope x * (fs.map (value x)).prod + f.value x * productSlope x fs := by
  rw [productSlope, productValue_eq]

@[simp] theorem slope_quotient (n d : Fn Exact) :
    (quotient n d).slope x =
      (n.slope x * d.value x - n.value x * d.slope x) / d.value x ^ 2 := rfl

theorem slope_piecewise {segments : List (Segment Exact (Fn Exact))} {i : Nat}
    {s : Segment Exact (Fn Exact)} (hi : visited? segments (real x) = some i)
    (hs : segments[i]? = some s) : (piecewise segments).slope x = s.payload.slope x := by
  rw [slope, hi]
  clear hi
  induction segments generalizing i with
  | nil => simp at hs
  | cons t rest ih =>
    cases i with
    | zero => simp_all [payloadSlope]
    | succ i => simpa [payloadSlope] using ih (by simpa using hs)

theorem smoothAt_unary (k : Kernel Exact) (s : Exact) (inner : Option (Fn Exact)) :
    (unary k s inner).SmoothAt x ↔
      s = 0 ∨ s.IsReal ∧ (∀ f ∈ inner, f.SmoothAt x) ∧ k.SmoothAt (innerValue x inner) := by
  cases inner <;> simp [SmoothAt, innerValue]

@[simp] theorem smoothAt_const (v : Exact) : (const v).SmoothAt x ↔ v.IsReal := Iff.rfl

@[simp] theorem not_smoothAt_undefined : ¬ (undefined : Fn Exact).SmoothAt x := id

theorem allSmoothAt_iff (fs : List (Fn Exact)) :
    AllSmoothAt x fs ↔ ∀ f ∈ fs, f.SmoothAt x := by
  induction fs with
  | nil => simp [AllSmoothAt]
  | cons f fs ih => simp [AllSmoothAt, ih]

@[simp] theorem smoothAt_sum (ts : List (Fn Exact)) :
    (sum ts).SmoothAt x ↔ ∀ t ∈ ts, t.SmoothAt x := allSmoothAt_iff ts

@[simp] theorem smoothAt_product (fs : List (Fn Exact)) :
    (product fs).SmoothAt x ↔ fs ≠ [] ∧ ∀ f ∈ fs, f.SmoothAt x :=
  and_congr_right fun _ => allSmoothAt_iff fs

@[simp] theorem smoothAt_quotient (n d : Fn Exact) :
    (quotient n d).SmoothAt x ↔ n.SmoothAt x ∧ d.SmoothAt x ∧ d.value x ≠ 0 := Iff.rfl

theorem smoothAt_piecewise (segments : List (Segment Exact (Fn Exact))) :
    (piecewise segments).SmoothAt x ↔
      ∃ i s, visited? segments (real x) = some i ∧ segments[i]? = some s ∧
        s.payload.SmoothAt x ∧ Scalar.lt s.range.low (real x) = true ∧
        Scalar.lt (real x) s.range.high = true := by
  have hpayload (i : Nat) : PayloadSmoothAt x (some i) segments ↔
      ∃ s, segments[i]? = some s ∧ s.payload.SmoothAt x ∧
        Scalar.lt s.range.low (real x) = true ∧ Scalar.lt (real x) s.range.high = true := by
    induction segments generalizing i with
    | nil => simp [PayloadSmoothAt]
    | cons s rest ih => cases i <;> simp [PayloadSmoothAt, ih]
  rw [SmoothAt]
  cases visited? segments (real x) with
  | none => simp [PayloadSmoothAt]
  | some i => simp [hpayload]

/-- Functions are defined where the rules apply. -/
theorem SmoothAt.definedAt {f : Fn Exact} (h : f.SmoothAt x) : f.DefinedAt x := by
  induction f with
  | zero | one => simp
  | const v => simpa using h
  | undefined => exact (not_smoothAt_undefined h).elim
  | plain k s =>
    obtain h0 | ⟨hs, -, hk⟩ := (smoothAt_unary ..).1 h
    · exact (definedAt_unary ..).2 (.inl h0)
    · exact (definedAt_unary ..).2 (.inr ⟨hs, by simp [InnerDefinedAt], hk.definedAt⟩)
  | chain k s f ih =>
    obtain h0 | ⟨hs, hf, hk⟩ := (smoothAt_unary ..).1 h
    · exact (definedAt_unary ..).2 (.inl h0)
    · have hi : InnerDefinedAt x (some f) := by simpa [InnerDefinedAt] using ih (hf f rfl)
      exact (definedAt_unary ..).2 (.inr ⟨hs, hi, hk.definedAt⟩)
  | sum ts ih =>
    rw [smoothAt_sum] at h
    exact (definedAt_sum ts).2 fun t ht => ih t ht (h t ht)
  | product fs ih =>
    rw [smoothAt_product] at h
    exact (definedAt_product fs).2 ⟨h.1, fun f hf => ih f hf (h.2 f hf)⟩
  | quotient n d ihn ihd =>
    obtain ⟨hn, hd, h0⟩ := (smoothAt_quotient n d).1 h
    exact (definedAt_quotient n d).2 ⟨ihn hn, ihd hd, h0⟩
  | piecewise segments ih =>
    obtain ⟨i, s, hi, hs, hd, -⟩ := (smoothAt_piecewise segments).1 h
    exact (definedAt_piecewise segments).2 ⟨i, s, hi, hs, ih s (List.mem_of_getElem? hs) hd⟩

end Fn

/-! ## The rules give derivatives -/

theorem Kernel.SmoothAt.hasDerivAt {k : Kernel Exact} {y : ℝ} (h : k.SmoothAt y) :
    HasDerivAt k.value (k.slope y) y := by
  cases k with
  | power p =>
    obtain ⟨-, hzero, hpos⟩ := h
    change HasDerivAt (fun y : ℝ => y ^ p.toReal) (p.toReal * y ^ (p.toReal - 1)) y
    generalize p.toReal = p at *
    by_cases h1 : y ≠ 0 ∨ 1 ≤ p
    · exact Real.hasDerivAt_rpow_const h1
    · -- The exponent is an integer from zero on and below one.
      obtain ⟨hy, hp1⟩ : y = 0 ∧ p < 1 := by simpa using h1
      have hp0 := hzero hy
      obtain ⟨n, rfl⟩ : ∃ n : ℤ, p = n := by
        by_contra hint
        exact (hpos hint).ne' hy
      have hn0 : 0 ≤ n := by exact_mod_cast hp0
      have hn1 : n < 1 := by exact_mod_cast hp1
      obtain rfl : n = 0 := by omega
      simpa using hasDerivAt_const y (1 : ℝ)
  | sine omega shift =>
    change HasDerivAt (fun y : ℝ => Real.sin (omega.toReal * y + shift.toReal)) _ y
    have := ((hasDerivAt_id y).const_mul omega.toReal).add_const shift.toReal
    simpa [slope, mul_comm] using this.sin
  | arcSine shift =>
    exact (Real.hasDerivAt_arcsin (by linarith [h.2.1]) (by linarith [h.2.2])).add_const _
  | arcTangent shift => exact (Real.hasDerivAt_arctan y).add_const _
  | exponential => exact Real.hasDerivAt_exp y
  | logarithm =>
    change HasDerivAt (fun y : ℝ => Real.log y) (1 / y) y
    simpa using Real.hasDerivAt_log (ne_of_gt h)

def SameSide (x y : ℝ) (b : Exact) : Prop :=
  Scalar.lt (real x) b = Scalar.lt (real y) b ∧ Scalar.lt b (real x) = Scalar.lt b (real y) ∧
    (real x == b) = (real y == b)

theorem contains_congr {x y : ℝ} {i : Interval Exact} (hl : SameSide x y i.low)
    (hh : SameSide x y i.high) : i.contains (real x) = i.contains (real y) := by
  rw [Interval.contains, Interval.contains, hl.1, hl.2.2, hh.2.1, hh.2.2]

/-- Points that no bound separates lie in one segment. -/
theorem visited?_eq_of_sameSide {β : Type} {segments : List (Segment Exact β)} {x y : ℝ}
    (h : ∀ s ∈ segments, SameSide x y s.range.low ∧ SameSide x y s.range.high) :
    visited? segments (real x) = visited? segments (real y) := by
  have hlocate : locate? (segments.map (·.range)).toArray (real x) =
      locate? (segments.map (·.range)).toArray (real y) := by
    have hany (i : Nat) {p q : Interval Exact → Bool}
        (hpq : ∀ s ∈ segments, p s.range = q s.range) :
        ((segments.map (·.range)).toArray[i]?).any p =
          ((segments.map (·.range)).toArray[i]?).any q := by
      rw [List.getElem?_toArray, List.getElem?_map]
      cases hs : segments[i]? with
      | none => rfl
      | some s => exact hpq s (List.mem_of_getElem? hs)
    have hlow (i : Nat) := hany i (p := fun r => Scalar.lt (real x) r.low)
      (q := fun r => Scalar.lt (real y) r.low) fun s hs => (h s hs).1.1
    have hmem (i : Nat) := hany i (p := (·.contains (real x))) (q := (·.contains (real y)))
      fun s hs => contains_congr (h s hs).1 (h s hs).2
    simp only [locate?, startedBefore, hlow, hmem]
  rw [visited?, visited?, hlocate]
  cases hh : hull? segments with
  | none => rfl
  | some domain =>
    have hends : SameSide x y domain.low ∧ SameSide x y domain.high := by
      rw [hull?] at hh
      split at hh
      · rename_i first last hf hl
        obtain rfl := Option.some.inj hh
        exact ⟨(h first (List.mem_of_head? hf)).1, (h last (List.mem_of_getLast? hl)).2⟩
      · cases hh
    simp only [hends.1.1, hends.2.2.1]

theorem eventually_sameSide {x : ℝ} {b : Exact} (h : b ≠ real x) :
    ∀ᶠ y in nhds x, SameSide x y b := by
  cases b with
  | real b =>
    have hb : b ≠ x := by simpa using h
    rcases lt_or_gt_of_ne hb with hlt | hlt
    · filter_upwards [lt_mem_nhds hlt] with y hy
      simp [SameSide, hlt, hy, hlt.not_gt, hy.not_gt, hlt.ne', hy.ne']
    · filter_upwards [gt_mem_nhds hlt] with y hy
      simp [SameSide, hlt, hy, hlt.not_gt, hy.not_gt, hlt.ne, hy.ne]
  | posInf | negInf | nan => exact .of_forall fun y => ⟨rfl, rfl, rfl⟩

namespace Fn

variable {x : ℝ}

theorem hasDerivAt_sum {ts : List (Fn Exact)}
    (h : ∀ t ∈ ts, HasDerivAt (fun y => t.value y) (t.slope x) x) :
    HasDerivAt (fun y => (ts.map (value y)).sum) (ts.map (slope x)).sum x := by
  induction ts with
  | nil => simpa using hasDerivAt_const x (0 : ℝ)
  | cons t ts ih =>
    rw [List.forall_mem_cons] at h
    simpa using h.1.fun_add (ih h.2)

theorem hasDerivAt_product {fs : List (Fn Exact)}
    (h : ∀ f ∈ fs, HasDerivAt (fun y => f.value y) (f.slope x) x) :
    HasDerivAt (fun y => (fs.map (value y)).prod) (productSlope x fs) x := by
  induction fs with
  | nil => simpa [productSlope] using hasDerivAt_const x (1 : ℝ)
  | cons f fs ih =>
    rw [List.forall_mem_cons] at h
    simpa using h.1.fun_mul (ih h.2)

/-- The textbook rules give the derivative of the value, at every point that is no bound of a
segment. -/
theorem SmoothAt.hasDerivAt {f : Fn Exact} (h : f.SmoothAt x)
    (hb : f.Numbers (fun _ => True) (· ≠ real x)) :
    HasDerivAt (fun y => f.value y) (f.slope x) x := by
  induction f with
  | zero => simpa using hasDerivAt_const x (0 : ℝ)
  | one => simpa using hasDerivAt_const x (1 : ℝ)
  | const v => simpa using hasDerivAt_const x v.toReal
  | undefined => exact (not_smoothAt_undefined h).elim
  | plain k s =>
    rcases (smoothAt_unary ..).1 h with rfl | ⟨-, -, hk⟩
    · simpa [value] using hasDerivAt_const x (0 : ℝ)
    · have hk : HasDerivAt k.value (k.slope x) x := hk.hasDerivAt
      simpa [value] using hk.const_mul s.toReal
  | chain k s f ih =>
    rcases (smoothAt_unary ..).1 h with rfl | ⟨-, hf, hk⟩
    · simpa [value] using hasDerivAt_const x (0 : ℝ)
    · have hinner := ih (hf f rfl) (((numbers_unary ..).1 hb).2.2 f rfl)
      have hk : HasDerivAt k.value (k.slope (f.value x)) (f.value x) := hk.hasDerivAt
      have := HasDerivAt.comp x hk hinner
      simpa [value, Function.comp_def] using this.const_mul s.toReal
  | sum ts ih =>
    rw [smoothAt_sum] at h
    rw [numbers_sum] at hb
    simpa using hasDerivAt_sum fun t ht => ih t ht (h t ht) (hb t ht)
  | product fs ih =>
    rw [smoothAt_product] at h
    rw [numbers_product] at hb
    simpa using hasDerivAt_product fun f hf => ih f hf (h.2 f hf) (hb f hf)
  | quotient n d ihn ihd =>
    obtain ⟨hn, hd, h0⟩ := (smoothAt_quotient n d).1 h
    obtain ⟨hbn, hbd⟩ := (numbers_quotient n d).1 hb
    simpa using (ihn hn hbn).fun_div (ihd hd hbd) h0
  | piecewise segments ih =>
    obtain ⟨i, s, hi, hs, hd, -⟩ := (smoothAt_piecewise segments).1 h
    rw [numbers_piecewise] at hb
    have hmem := List.mem_of_getElem? hs
    rw [slope_piecewise hi hs]
    refine (ih s hmem hd (hb s hmem).2).congr_of_eventuallyEq ?_
    have hsame : ∀ᶠ y in nhds x, ∀ t ∈ segments,
        SameSide x y t.range.low ∧ SameSide x y t.range.high := by
      refine (Filter.eventually_all_finite (List.finite_toSet segments)).2 fun t ht => ?_
      exact (eventually_sameSide (hb t ht).1.1).and (eventually_sameSide (hb t ht).1.2)
    filter_upwards [hsame] with y hy
    exact value_piecewise ((visited?_eq_of_sameSide hy).symm.trans hi) hs

end Fn

end

end FunctionAlgebra
