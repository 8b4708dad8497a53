import FunctionAlgebra.Expression
import FunctionAlgebra.Proofs.SegmentLookup
import FunctionAlgebra.Proofs.WellFormed

/-!
# The meaning of formulas

A formula over exact numbers has a real value at a point or none, by the usual meaning of its
operations. The formula of a function means what the function evaluates to. Nothing in a formula is
skipped, not even what is multiplied by zero, so the formula has a value where all parts of the
function are defined.

## Main definitions

* `Condition.Holds` — whether a real number satisfies a condition.
* `Expression.value?` — the value of a formula.
* `Fn.DefinedThroughout` — all parts of a function are defined, whether they are visited or not.

## Main statements

* `Fn.value?_toExpression_eq_some_iff` — the formula of a function has its value.
* `Fn.toExpression_means_evaluation` — the formula has the value to which the function evaluates.
-/

namespace FunctionAlgebra

open Exact (real)
open LineScalar (toEReal)

noncomputable section

/-! ## Values of formulas -/

def Condition.Holds (x : ℝ) : Condition Exact → Prop
  | greater bound => Scalar.lt bound (real x) = true
  | greaterEqual bound => Scalar.le bound (real x) = true
  | less bound => Scalar.lt (real x) bound = true
  | lessEqual bound => Scalar.le (real x) bound = true
  | both first second => first.Holds x ∧ second.Holds x
  | always => True

namespace Expression

open Classical in
/-- A power is real but for poles at zero and roots of negative numbers; `0 ^ 0` is one. -/
def power? (y p : ℝ) : Option ℝ :=
  if (y = 0 → 0 ≤ p) ∧ (y < 0 → ∃ n : ℤ, p = n) then some (y ^ p) else none

open Classical in
mutual

@[simp] def value? (x : ℝ) : Expression Exact → Option ℝ
  | .integer n => some n
  | .number v => if v.IsReal then some v.toReal else none
  | .variable => some x
  | .undefined => none
  | .add terms => (values? x terms).map List.sum
  | .mul factors => (values? x factors).map List.prod
  | .pow base exponent => do power? (← base.value? x) (← exponent.value? x)
  | .sin a => (a.value? x).map Real.sin
  | .asin a => do
    let y ← a.value? x
    if -1 ≤ y ∧ y ≤ 1 then some (Real.arcsin y) else none
  | .atan a => (a.value? x).map Real.arctan
  | .exp a => (a.value? x).map Real.exp
  | .log a => do
    let y ← a.value? x
    if 0 < y then some (Real.log y) else none
  | .piecewise branches => branchValue? x branches

@[simp] def values? (x : ℝ) : List (Expression Exact) → Option (List ℝ)
  | [] => some []
  | e :: es => do
    let v ← e.value? x
    let vs ← values? x es
    return v :: vs

@[simp] def branchValue? (x : ℝ) : List (Expression Exact × Condition Exact) → Option ℝ
  | [] => none
  | (e, condition) :: rest => if condition.Holds x then e.value? x else branchValue? x rest

end

variable {x v : ℝ}

theorem values?_eq_some_iff {es : List (Expression Exact)} {vs : List ℝ} :
    values? x es = some vs ↔ List.Forall₂ (fun e v => e.value? x = some v) es vs := by
  induction es generalizing vs with
  | nil => cases vs <;> simp
  | cons e es ih => cases vs <;> simp [Option.bind_eq_some_iff, ih]

theorem value?_ofScalar {a : Exact} :
    (ofScalar a).value? x = some v ↔ a.IsReal ∧ a.toReal = v := by
  unfold ofScalar
  split_ifs with h
  · obtain ⟨hfinite, heq⟩ :
        Scalar.isFinite a = true ∧ (a == Scalar.ofInt (Scalar.floor a)) = true := by
      simpa [Scalar.isInteger] using h
    have hreal := Exact.isFinite_iff.1 hfinite
    have hvalue : a.toReal = (Scalar.floor a : ℤ) := congrArg Exact.toReal (Exact.beq_iff.1 heq).1
    simp [hreal, hvalue]
  · simp

/-- A sum of formulas, also of a single one. -/
theorem value?_sum {es : List (Expression Exact)} :
    (sum es).value? x = some v ↔
      ∃ vs, List.Forall₂ (fun e v => e.value? x = some v) es vs ∧ vs.sum = v := by
  unfold sum
  split
  · simp [List.forall₂_cons_left_iff]
  · simp [values?_eq_some_iff]

theorem value?_product {es : List (Expression Exact)} :
    (product es).value? x = some v ↔
      ∃ vs, List.Forall₂ (fun e v => e.value? x = some v) es vs ∧ vs.prod = v := by
  unfold product
  split
  · simp [List.forall₂_cons_left_iff]
  · simp [values?_eq_some_iff]

theorem value?_quotient {n d : Expression Exact} :
    (quotient n d).value? x = some v ↔
      ∃ a b, n.value? x = some a ∧ d.value? x = some b ∧ b ≠ 0 ∧ a / b = v := by
  have hpow {r : ℝ} : (pow d (integer (-1))).value? x = some r ↔
      ∃ b, d.value? x = some b ∧ b ≠ 0 ∧ b⁻¹ = r := by
    have hint : ∃ n : ℤ, (-1 : ℝ) = n := ⟨-1, by simp⟩
    have hle : ¬ (1 : ℝ) ≤ 0 := not_le.2 one_pos
    simp [power?, Option.bind_eq_some_iff, hint, hle, Real.rpow_neg_one]
  unfold quotient
  split_ifs with h
  · -- only the number one counts as numerator one
    obtain rfl : n = integer 1 := by
      cases n with
      | integer k => simpa [isOne] using h
      | _ => cases h
    rw [hpow]
    simp [div_eq_inv_mul]
  · simp only [value?, Option.map_eq_some_iff, values?_eq_some_iff]
    constructor
    · rintro ⟨_, _ | ⟨hn, _ | ⟨hd, ⟨⟩⟩⟩, rfl⟩
      obtain ⟨b, hb, hb0, rfl⟩ := hpow.1 hd
      exact ⟨_, b, hn, hb, hb0, by simp [div_eq_mul_inv]⟩
    · rintro ⟨a, b, ha, hb, hb0, rfl⟩
      exact ⟨[a, b⁻¹], .cons ha (.cons (hpow.2 ⟨b, hb, hb0, rfl⟩) .nil), by simp [div_eq_mul_inv]⟩

end Expression

namespace Kernel

variable {k : Kernel Exact} {s : Exact} {y e : Expression Exact} {x v : ℝ}

/-- A scaled standard function means what it means without its scale, times the scale. -/
theorem value?_scaled
    (he : ∀ w, e.value? x = some w ↔ ∃ r, y.value? x = some r ∧ k.DefinedAt r ∧ k.value r = w) :
    (Expression.mul [.ofScalar s, e]).value? x = some v ↔
      s.IsReal ∧ ∃ r, y.value? x = some r ∧ k.DefinedAt r ∧ s.toReal * k.value r = v := by
  simp [Option.bind_eq_some_iff, Expression.value?_ofScalar, he, and_assoc]

/-- The formula of a standard function has a value where its argument has one and the function is
defined there. -/
theorem value?_toExpression : (k.toExpression s y).value? x = some v ↔
    s.IsReal ∧ ∃ r, y.value? x = some r ∧ k.DefinedAt r ∧ s.toReal * k.value r = v := by
  cases k with
  | power p =>
    refine value?_scaled fun w => ?_
    simp [Option.bind_eq_some_iff, Expression.value?_ofScalar, Expression.power?, DefinedAt, value,
      and_assoc]
  | sine omega shift =>
    refine value?_scaled fun w => ?_
    simp [Option.bind_eq_some_iff, Expression.value?_ofScalar, DefinedAt, value, and_assoc,
      and_left_comm]
  | arcSine shift =>
    refine value?_scaled fun w => ?_
    simp only [Expression.value?, Expression.values?, Option.bind_eq_bind, Option.pure_def,
      Option.bind_some, Option.map_bind, Function.comp_apply, Option.map_some, List.sum_cons,
      List.sum_nil, add_zero, Option.bind_eq_some_iff, Option.ite_none_right_eq_some,
      Option.some.injEq, Expression.value?_ofScalar, ↓existsAndEq, and_true, DefinedAt, value]
    grind
  | arcTangent shift =>
    refine value?_scaled fun w => ?_
    simp [Option.bind_eq_some_iff, Expression.value?_ofScalar, DefinedAt, value]
  | exponential =>
    refine value?_scaled fun w => ?_
    simp [DefinedAt, value]
  | logarithm =>
    refine value?_scaled fun w => ?_
    simp [Option.bind_eq_some_iff, DefinedAt, value]

end Kernel

/-! ## Conditions -/

/-- The condition of a valid interval says what its points say. -/
theorem Interval.holds_toCondition {i : Interval Exact} (hi : i.isValid = true) {x : ℝ} :
    i.toCondition.Holds x ↔ toEReal (real x) ∈ i.points := by
  obtain ⟨hl, hh⟩ := isProper_of_isValid hi
  have hx : Scalar.isNaN (real x) = false := Exact.isNaN_real x
  have hlow : (if i.lowClosed then Condition.greaterEqual i.low else .greater i.low).Holds x ↔
      i.StartsBefore (toEReal (real x)) := by
    unfold StartsBefore
    split_ifs with h
    · simp [Condition.Holds, Scalar.le, LineScalar.lt_eq hl hx, LineScalar.beq_eq hl hx, h]
    · simp [Condition.Holds, LineScalar.lt_eq hl hx, h]
  have hhigh : (if i.highClosed then Condition.lessEqual i.high else .less i.high).Holds x ↔
      i.EndsAfter (toEReal (real x)) := by
    unfold EndsAfter
    split_ifs with h
    · simp [Condition.Holds, Scalar.le, LineScalar.lt_eq hx hh, LineScalar.beq_eq hx hh, h]
    · simp [Condition.Holds, LineScalar.lt_eq hx hh, h]
  exact and_congr hlow hhigh

namespace Fn

/-! ## Functions that are defined in all their parts -/

mutual

/-- All parts of a function have real values at a point, also those that are multiplied by zero. Of
a piecewise function, a segment that contains the point has a payload that does. -/
@[simp] def DefinedThroughout (x : ℝ) : Fn Exact → Prop
  | zero | one => True
  | const v => v.IsReal
  | undefined => False
  | unary k s none => s.IsReal ∧ k.DefinedAt x
  | unary k s (some f) => s.IsReal ∧ f.DefinedThroughout x ∧ k.DefinedAt (f.value x)
  | sum ts => AllDefinedThroughout x ts
  | product fs => AllDefinedThroughout x fs
  | quotient n d => n.DefinedThroughout x ∧ d.DefinedThroughout x ∧ d.value x ≠ 0
  | piecewise segments => SegmentDefinedThroughout x segments

@[simp] def AllDefinedThroughout (x : ℝ) : List (Fn Exact) → Prop
  | [] => True
  | f :: fs => f.DefinedThroughout x ∧ AllDefinedThroughout x fs

@[simp] def SegmentDefinedThroughout (x : ℝ) : List (Segment Exact (Fn Exact)) → Prop
  | [] => False
  | ⟨range, f⟩ :: rest =>
    range.contains (real x) = true ∧ f.DefinedThroughout x ∨ SegmentDefinedThroughout x rest

end

variable {x : ℝ}

theorem allDefinedThroughout_iff (fs : List (Fn Exact)) :
    AllDefinedThroughout x fs ↔ ∀ f ∈ fs, f.DefinedThroughout x := by
  induction fs with
  | nil => simp
  | cons f fs ih => simp [ih]

theorem segmentDefinedThroughout_iff (segments : List (Segment Exact (Fn Exact))) :
    SegmentDefinedThroughout x segments ↔
      ∃ s ∈ segments, s.range.contains (real x) = true ∧ s.payload.DefinedThroughout x := by
  induction segments with
  | nil => simp
  | cons s rest ih => simp [ih]

theorem contains_iff_of_tiles {segments : List (Segment Exact (Fn Exact))} (h : Tiles segments)
    {s : Segment Exact (Fn Exact)} (hs : s ∈ segments) :
    s.range.contains (real x) = true ↔ toEReal (real x) ∈ s.range.points :=
  Interval.contains_iff (Interval.isProper_of_isValid (h.valid s hs)) (Exact.isNaN_real x)

/-- The segment that contains a point is the one that is visited. -/
theorem exists_visited {segments : List (Segment Exact (Fn Exact))} (h : Tiles segments)
    {s : Segment Exact (Fn Exact)} (hs : s ∈ segments)
    (hx : toEReal (real x) ∈ s.range.points) :
    ∃ i, visited? segments (real x) = some i ∧ segments[i]? = some s := by
  obtain ⟨i, hi⟩ := List.mem_iff_getElem?.1 hs
  exact ⟨i, h.visited?_eq_some (Exact.isNaN_real x) hi hx, hi⟩

/-- What is defined throughout is defined as far as it is visited. -/
theorem DefinedThroughout.definedAt {f : Fn Exact} (hf : f.WellFormed)
    (h : f.DefinedThroughout x) : f.DefinedAt x := by
  induction hf with
  | @value f _ hv =>
    cases f with
    | zero | one => trivial
    | const v => exact h
    | _ => cases hv
  | undefined => exact h
  | plain => exact .inr h
  | chain _ ih => exact .inr ⟨h.1, ih h.2.1, h.2.2⟩
  | sum _ ih =>
    rw [DefinedThroughout, allDefinedThroughout_iff] at h
    exact (definedAt_sum _).2 fun t ht => ih t ht (h t ht)
  | product hne _ ih =>
    rw [DefinedThroughout, allDefinedThroughout_iff] at h
    exact (definedAt_product _).2 ⟨hne, fun f hf => ih f hf (h f hf)⟩
  | quotient _ _ ihn ihd => exact ⟨ihn h.1, ihd h.2.1, h.2.2⟩
  | piecewise htiles _ ih =>
    obtain ⟨s, hs, hcontains, hdefined⟩ := (segmentDefinedThroughout_iff _).1 h
    obtain ⟨i, hi, hget⟩ := exists_visited htiles hs ((contains_iff_of_tiles htiles hs).1 hcontains)
    exact (definedAt_piecewise _).2 ⟨i, s, hi, hget, ih s hs hdefined⟩

/-! ## The formula of a function -/

/-- Where each item has a value under a condition, all have their values if all meet it. -/
theorem forall₂_eq_some_iff {ts : List (Fn Exact)} {vs : List ℝ}
    (h : ∀ t ∈ ts, ∀ v, t.toExpression.value? x = some v ↔ t.DefinedThroughout x ∧ t.value x = v) :
    List.Forall₂ (fun e v => e.value? x = some v) (allToExpression ts) vs ↔
      AllDefinedThroughout x ts ∧ ts.map (value x) = vs := by
  induction ts generalizing vs with
  | nil => simp [allToExpression, eq_comm]
  | cons t ts ih =>
    rw [List.forall_mem_cons] at h
    rw [allToExpression, List.forall₂_cons_left_iff]
    simp only [h.1, ih h.2]
    constructor
    · rintro ⟨_, _, ⟨ht, rfl⟩, ⟨hts, rfl⟩, rfl⟩
      exact ⟨⟨ht, hts⟩, rfl⟩
    · rintro ⟨⟨ht, hts⟩, rfl⟩
      exact ⟨_, _, ⟨ht, rfl⟩, ⟨hts, rfl⟩, rfl⟩

/-- The first branch whose condition holds is that of the only segment that contains the point. -/
theorem branchValue?_eq_some_iff {segments : List (Segment Exact (Fn Exact))} {v : ℝ}
    (hvalid : ∀ s ∈ segments, s.range.isValid = true)
    (hbefore : segments.Pairwise fun s t => s.range.Before t.range) :
    Expression.branchValue? x (segmentsToExpression segments) = some v ↔
      ∃ s ∈ segments, toEReal (real x) ∈ s.range.points ∧
        s.payload.toExpression.value? x = some v := by
  induction segments with
  | nil => simp [segmentsToExpression, Condition.Holds]
  | cons s rest ih =>
    rw [List.forall_mem_cons] at hvalid
    rw [List.pairwise_cons] at hbefore
    rw [segmentsToExpression, Expression.branchValue?, Interval.holds_toCondition hvalid.1]
    split_ifs with hx
    · rw [List.exists_mem_cons_iff]
      simp only [hx, true_and]
      refine ⟨.inl, ?_⟩
      rintro (hv | ⟨t, ht, htx, -⟩)
      · exact hv
      · exact absurd (hbefore.1 t ht _ hx _ htx) (lt_irrefl _)
    · rw [ih hvalid.2 hbefore.2, List.exists_mem_cons_iff]
      simp [hx]

/-- The formula of a function has the value of the function, and has one if the function is defined
in all its parts. -/
theorem value?_toExpression_eq_some_iff {f : Fn Exact} (hf : f.WellFormed) {v : ℝ} :
    f.toExpression.value? x = some v ↔ f.DefinedThroughout x ∧ f.value x = v := by
  induction hf generalizing v with
  | @value f _ hv =>
    cases f with
    | zero | one | const v => simp [toExpression, Expression.value?_ofScalar]
    | _ => cases hv
  | undefined => simp [toExpression]
  | @plain k s =>
    rw [toExpression, Kernel.value?_toExpression]
    simp [value, and_assoc]
  | @chain k s f _ ih =>
    rw [toExpression, Kernel.value?_toExpression]
    simp only [ih, DefinedThroughout, value]
    constructor
    · rintro ⟨hs, _, ⟨hf, rfl⟩, hk, rfl⟩
      exact ⟨⟨hs, hf, hk⟩, rfl⟩
    · rintro ⟨⟨hs, hf, hk⟩, rfl⟩
      exact ⟨hs, _, ⟨hf, rfl⟩, hk, rfl⟩
  | sum _ ih =>
    rw [toExpression, Expression.value?_sum]
    simp [forall₂_eq_some_iff fun t ht v => ih t ht, and_assoc]
  | product _ _ ih =>
    rw [toExpression, Expression.value?_product]
    simp [forall₂_eq_some_iff fun f hf v => ih f hf, and_assoc]
  | quotient _ _ ihn ihd =>
    rw [toExpression, Expression.value?_quotient]
    simp only [ihn, ihd, DefinedThroughout, value_quotient]
    constructor
    · rintro ⟨_, _, ⟨hn, rfl⟩, ⟨hd, rfl⟩, h0, rfl⟩
      exact ⟨⟨hn, hd, h0⟩, rfl⟩
    · rintro ⟨⟨hn, hd, h0⟩, rfl⟩
      exact ⟨_, _, ⟨hn, rfl⟩, ⟨hd, rfl⟩, h0, rfl⟩
  | @piecewise segments htiles _ ih =>
    have hvalue {s : Segment Exact (Fn Exact)} (hs : s ∈ segments)
        (hx : toEReal (real x) ∈ s.range.points) :
        (piecewise segments).value x = s.payload.value x := by
      obtain ⟨i, hi, hget⟩ := exists_visited htiles hs hx
      exact value_piecewise hi hget
    rw [toExpression, Expression.value?,
      branchValue?_eq_some_iff htiles.valid htiles.pairwise_before, DefinedThroughout,
      segmentDefinedThroughout_iff]
    constructor
    · rintro ⟨s, hs, hx, hv⟩
      obtain ⟨hdefined, rfl⟩ := (ih s hs).1 hv
      exact ⟨⟨s, hs, (contains_iff_of_tiles htiles hs).2 hx, hdefined⟩, hvalue hs hx⟩
    · rintro ⟨⟨s, hs, hx, hdefined⟩, rfl⟩
      have hx := (contains_iff_of_tiles htiles hs).1 hx
      exact ⟨s, hs, hx, (ih s hs).2 ⟨hdefined, (hvalue hs hx).symm⟩⟩

/-- The formula of a function has a value exactly where all parts of the function are defined, and
then it is the number to which the function evaluates. -/
theorem toExpression_means_evaluation {f : Fn Exact} (hf : f.WellFormed) (x v : ℝ) :
    f.toExpression.value? x = some v ↔
      f.DefinedThroughout x ∧ f.evaluate (real x) = .ok (real v) := by
  rw [value?_toExpression_eq_some_iff hf, and_congr_right_iff]
  intro h
  rw [evaluate_eq_value (h.definedAt hf)]
  simp

theorem toExpression_means_evaluation_pieces :
    let f : Fn Exact := piecewise
      [⟨⟨0, true, 1, false⟩, identity⟩, ⟨⟨1, true, Exact.posInf, true⟩, quotient one identity⟩]
    f.WellFormed ∧ f.toExpression.value? 1 = some 1 ∧
      f.DefinedThroughout 1 ∧ f.evaluate (real 1) = .ok (real 1) := by
  intro f
  have hlow : Interval.isValid (⟨0, true, 1, false⟩ : Interval Exact) = true := by
    simp [Interval.isValid, Exact.zero_eq, Exact.one_eq]
  have hhigh : Interval.isValid (⟨1, true, Exact.posInf, true⟩ : Interval Exact) = true := by
    simp [Interval.isValid, Exact.one_eq, Scalar.lt, Exact.lt]
  have hf : f.WellFormed := by
    refine .piecewise ⟨by simp, by simp [hlow, hhigh], ?_⟩ ?_
    · simp only [List.isChain_cons_cons, List.isChain_singleton, and_true]
      exact ⟨rfl, rfl⟩
    · simp only [List.forall_mem_cons, List.not_mem_nil, false_imp_iff, implies_true, and_true]
      exact ⟨.plain, .quotient (.value rfl) .plain⟩
  have hidentity : (identity : Fn Exact).toExpression.value? 1 = some 1 := by
    rw [identity, toExpression, Kernel.value?_toExpression]
    simp [Kernel.DefinedAt, Kernel.value]
  have hreciprocal : (quotient one identity : Fn Exact).toExpression.value? 1 = some 1 := by
    rw [toExpression, Expression.value?_quotient]
    exact ⟨1, 1, by simp [toExpression, Expression.value?_ofScalar], hidentity, by simp, by simp⟩
  have hvalue : f.toExpression.value? 1 = some 1 := by
    rw [toExpression, Expression.value?]
    simp [segmentsToExpression, Interval.toCondition, Condition.Holds, Scalar.le, Exact.zero_eq,
      Exact.one_eq, Scalar.lt, Exact.lt, hreciprocal]
  exact ⟨hf, hvalue, (toExpression_means_evaluation hf 1 1).1 hvalue⟩

end Fn

end

end FunctionAlgebra
