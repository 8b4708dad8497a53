import FunctionAlgebra.Fn.Knots
import FunctionAlgebra.Proofs.DerivativeValues
import FunctionAlgebra.Proofs.SegmentLookup
import FunctionAlgebra.Proofs.WellFormed

/-!
# Reported knots are all there are

Where the knots of a function on an interval can be listed, the function is defined at every point
that is not listed, and inside the interval the rules of differentiation apply.

## Main definitions

* `Fn.listedKnots` — the knots that a part adds to the list of the whole.
* `Fn.ClearAt` — a function is defined at a point and smooth there, if the point lies inside.

## Main statements

* `Kernel.clearAt_of_knots` — standard functions list all their knots.
* `Fn.clearAt_of_listedKnots` — so do all functions.
* `Fn.knots_sound` — defined, with its derivative, wherever no knot is listed.
-/

namespace FunctionAlgebra

open Exact (real)
open LineScalar (toEReal lt_eq beq_eq)

variable {i : Interval Exact} {x : ℝ}

/-! ## Points of intervals -/

@[simp] theorem Exact.toEReal_real (r : ℝ) : LineScalar.toEReal (real r) = (r : EReal) := rfl

/-- Different exact numbers stand for different points. -/
theorem Exact.eq_of_toEReal {a c : Exact} (ha : Scalar.isNaN a = false)
    (hc : Scalar.isNaN c = false) (h : LineScalar.toEReal a = LineScalar.toEReal c) : a = c :=
  (Exact.beq_iff.1 (LineScalar.beq_iff_toEReal.2 ⟨ha, hc, h⟩)).1

/-- Only real numbers stand for real points. -/
theorem Exact.eq_real {a : Exact} (ha : Scalar.isNaN a = false)
    (h : LineScalar.toEReal a = (x : EReal)) : a = real x :=
  Exact.eq_of_toEReal ha (Exact.isNaN_real x) h

theorem Exact.isInteger_real {r : ℝ} : Scalar.isInteger (real r) = true ↔ ∃ n : ℤ, r = n := by
  have hfloor : Scalar.isInteger (real r) = decide (r = ⌊r⌋) := by
    simp [Scalar.isInteger, Scalar.floor, Scalar.ofInt]
  rw [hfloor, decide_eq_true_iff]
  refine ⟨fun h => ⟨⌊r⌋, h⟩, ?_⟩
  rintro ⟨n, rfl⟩
  simp

namespace Interval

def Inside (i : Interval Exact) (x : ℝ) : Prop :=
  Scalar.lt i.low (real x) = true ∧ Scalar.lt (real x) i.high = true

theorem inside_iff (hi : i.IsProper) :
    i.Inside x ↔ toEReal i.low < x ∧ (x : EReal) < toEReal i.high := by
  rw [Inside, lt_eq hi.1 (Exact.isNaN_real x), lt_eq (Exact.isNaN_real x) hi.2,
    decide_eq_true_iff, decide_eq_true_iff, Exact.toEReal_real]

theorem mem_points_of_inside (hi : i.isValid = true) (hx : i.Inside x) :
    (x : EReal) ∈ i.points := by
  obtain ⟨hl, hh⟩ := (inside_iff (isProper_of_isValid hi)).1 hx
  exact ⟨.inl hl, .inl hh⟩

theorem le_of_mem (hi : i.IsProper) (hx : (x : EReal) ∈ i.points) {r : ℝ}
    (h : Scalar.lt i.low (real r) = false) : r ≤ x := by
  rw [lt_eq hi.1 (Exact.isNaN_real r), decide_eq_false_iff_not, not_lt] at h
  exact EReal.coe_le_coe_iff.1 (h.trans (low_le_of_mem hx))

theorem lt_of_inside (hi : i.IsProper) (hx : i.Inside x) {r : ℝ}
    (h : Scalar.lt i.low (real r) = false) : r < x := by
  rw [lt_eq hi.1 (Exact.isNaN_real r), decide_eq_false_iff_not, not_lt] at h
  exact EReal.coe_lt_coe_iff.1 (h.trans_lt ((inside_iff hi).1 hx).1)

theorem ge_of_mem (hi : i.IsProper) (hx : (x : EReal) ∈ i.points) {r : ℝ}
    (h : Scalar.lt (real r) i.high = false) : x ≤ r := by
  rw [lt_eq (Exact.isNaN_real r) hi.2, decide_eq_false_iff_not, not_lt] at h
  exact EReal.coe_le_coe_iff.1 ((le_high_of_mem hx).trans h)

theorem gt_of_inside (hi : i.IsProper) (hx : i.Inside x) {r : ℝ}
    (h : Scalar.lt (real r) i.high = false) : x < r := by
  rw [lt_eq (Exact.isNaN_real r) hi.2, decide_eq_false_iff_not, not_lt] at h
  exact EReal.coe_lt_coe_iff.1 (((inside_iff hi).1 hx).2.trans_le h)

theorem inside_inter? {j k : Interval Exact} (hi : i.IsProper) (hj : j.IsProper)
    (hk : k.IsProper) (h : i.inter? j = some k) : k.Inside x ↔ i.Inside x ∧ j.Inside x := by
  obtain ⟨hlow, hhigh⟩ := between_inter? (p := x) hi hj h
  rw [inside_iff hi, inside_iff hj, inside_iff hk, hlow, hhigh]
  exact and_and_and_comm

theorem low_eq_of_isPoint (hi : i.isValid = true) (hx : (x : EReal) ∈ i.points)
    (h : i.isPoint = true) : i.low = real x := by
  have hip := isProper_of_isValid hi
  have heq := (LineScalar.beq_iff_toEReal.1 h).2.2
  exact Exact.eq_real hip.1 ((low_le_of_mem hx).antisymm (heq ▸ le_high_of_mem hx))

end Interval

/-- If the one point of an interval is reported, it is listed. -/
theorem mem_undefinedKnots (hi : i.isValid = true) (hx : (x : EReal) ∈ i.points)
    (h : (undefinedReport i).isFinite = true) : i.low = real x ∧ real x ∈ undefinedKnots i := by
  unfold undefinedReport at h
  split_ifs at h with hpoint
  · have hlow := i.low_eq_of_isPoint hi hx hpoint
    exact ⟨hlow, by simp [undefinedKnots, hpoint, hlow]⟩
  · cases h

theorem undefinedReport_ne {α : Type} [Scalar α] (i : Interval α) :
    undefinedReport i ≠ .noKnots := by
  unfold undefinedReport
  split_ifs <;> simp

/-! ## Standard functions -/

namespace Kernel

/-- Standard functions that report no knots list none. -/
theorem knots_eq_nil {α : Type} [Scalar α] {k : Kernel α} {i : Interval α}
    (h : k.knotReport i = .noKnots) : k.knots i = [] := by
  cases k with
  | power p =>
    simp only [knotReport, knots] at h ⊢
    split_ifs at h ⊢
    exacts [rfl, absurd h (undefinedReport_ne i), rfl]
  | arcSine shift =>
    simp only [knotReport, knots] at h ⊢
    split_ifs at h ⊢
    exacts [absurd h (undefinedReport_ne i), rfl]
  | logarithm =>
    simp only [knotReport, knots] at h ⊢
    split_ifs at h ⊢
    exacts [absurd h (undefinedReport_ne i), rfl]
  | sine | arcTangent | exponential => rfl

variable {k : Kernel Exact}

theorem isMonomial_power {r : ℝ} :
    (power (real r)).isMonomial = true ↔ (∃ n : ℤ, r = n) ∧ 0 ≤ r := by
  rw [isMonomial, Bool.and_eq_true, Exact.isInteger_real]
  refine and_congr_right fun _ => ?_
  simp [Scalar.le, Exact.zero_eq, le_iff_lt_or_eq]

/-- A power with an exponent 0, 1, 2, … is smooth everywhere, and so are sines, exponentials and the
inverse tangent. -/
theorem smoothAt_of_inheritsKnots (hk : ∀ p ∈ k.parameters, p.IsReal) (h : k.inheritsKnots = true)
    (y : ℝ) : k.SmoothAt y := by
  cases k with
  | power p =>
    obtain ⟨r, rfl⟩ := Exact.isReal_iff.1 (hk p (by simp [parameters]))
    obtain ⟨hint, hpos⟩ := isMonomial_power.1 h
    exact ⟨trivial, fun _ => hpos, fun hn => absurd hint hn⟩
  | sine omega shift => exact ⟨hk omega (by simp [parameters]), hk shift (by simp [parameters])⟩
  | arcTangent shift => exact hk shift (by simp [parameters])
  | exponential => trivial
  | arcSine | logarithm => cases h

/-- A power is clear where its exponent allows the base zero, and bases below zero or none. -/
theorem power_clearAt {r : ℝ} (hip : i.IsProper) (hx : (x : EReal) ∈ i.points)
    (hzero : x = 0 → 0 ≤ r)
    (hroot : ¬ (!Scalar.isInteger (real r) && Scalar.lt i.low 0) = true) :
    (power (real r)).DefinedAt x ∧ (i.Inside x → (power (real r)).SmoothAt x) := by
  rw [Bool.and_eq_true, Bool.not_eq_true', ← Bool.not_eq_true, Exact.isInteger_real, not_and,
    Bool.not_eq_true] at hroot
  refine ⟨⟨trivial, hzero, fun hneg => ?_⟩, fun hin => ⟨trivial, hzero, fun hint => ?_⟩⟩
  · by_contra hint
    exact hneg.not_ge (i.le_of_mem hip hx (hroot hint))
  · exact i.lt_of_inside hip hin (hroot hint)

theorem power_clearAt_of_knots {r : ℝ} (hi : i.isValid = true)
    (h : ((power (real r)).knotReport i).isFinite = true) (hx : (x : EReal) ∈ i.points)
    (hn : real x ∉ (power (real r)).knots i) :
    (power (real r)).DefinedAt x ∧ (i.Inside x → (power (real r)).SmoothAt x) := by
  have hip := Interval.isProper_of_isValid hi
  simp only [knotReport, knots] at h hn
  split_ifs at h hn with hmono hroot hpole
  · have := smoothAt_of_inheritsKnots (k := power (real r)) (by simp [parameters]) hmono x
    exact ⟨this.definedAt, fun _ => this⟩
  · exact absurd (mem_undefinedKnots hi hx h).2 hn
  · refine power_clearAt hip hx (fun h0 => ?_) hroot
    simp [h0, Exact.zero_eq] at hn
  · refine power_clearAt hip hx (fun h0 => ?_) hroot
    by_contra hneg
    subst h0
    have hcontains := (Interval.contains_iff hip (Exact.isNaN_real 0)).2 hx
    exact hpole (Bool.and_eq_true_iff.2 ⟨by simpa [Exact.zero_eq] using hneg, hcontains⟩)

theorem arcSine_clearAt_of_knots {shift : Exact} (hshift : shift.IsReal) (hi : i.isValid = true)
    (h : ((arcSine shift).knotReport i).isFinite = true) (hx : (x : EReal) ∈ i.points)
    (hn : real x ∉ (arcSine shift).knots i) :
    (arcSine shift).DefinedAt x ∧ (i.Inside x → (arcSine shift).SmoothAt x) := by
  have hip := Interval.isProper_of_isValid hi
  simp only [knotReport, knots] at h hn
  split_ifs at h hn with hout
  · exact absurd (mem_undefinedKnots hi hx h).2 hn
  · simp only [Bool.or_eq_true, not_or, Bool.not_eq_true] at hout
    exact ⟨⟨hshift, i.le_of_mem hip hx hout.1, i.ge_of_mem hip hx hout.2⟩, fun hin =>
      ⟨hshift, i.lt_of_inside hip hin hout.1, i.gt_of_inside hip hin hout.2⟩⟩

theorem logarithm_clearAt_of_knots (hi : i.isValid = true)
    (h : ((logarithm : Kernel Exact).knotReport i).isFinite = true) (hx : (x : EReal) ∈ i.points)
    (hn : real x ∉ (logarithm : Kernel Exact).knots i) :
    (logarithm : Kernel Exact).DefinedAt x ∧
      (i.Inside x → (logarithm : Kernel Exact).SmoothAt x) := by
  have hip := Interval.isProper_of_isValid hi
  simp only [knotReport, knots] at h hn
  split_ifs at h hn with hneg hpole
  · exact absurd (mem_undefinedKnots hi hx h).2 hn
  all_goals
    have hle : 0 ≤ x := i.le_of_mem hip hx (Bool.not_eq_true _ ▸ hneg)
    have hne : 0 ≠ x := by
      rintro rfl
      first
        | exact hn (List.mem_singleton_self _)
        | exact hpole ((Interval.contains_iff hip (Exact.isNaN_real 0)).2 hx)
    exact ⟨hle.lt_of_ne hne, fun _ => hle.lt_of_ne hne⟩

/-- A standard function is defined at every point that it does not list as knot, and smooth at the
points inside. -/
theorem clearAt_of_knots (hk : ∀ p ∈ k.parameters, p.IsReal) (hi : i.isValid = true)
    (h : (k.knotReport i).isFinite = true) (hx : (x : EReal) ∈ i.points)
    (hn : real x ∉ k.knots i) : k.DefinedAt x ∧ (i.Inside x → k.SmoothAt x) := by
  cases k with
  | power p =>
    obtain ⟨r, rfl⟩ := Exact.isReal_iff.1 (hk p (by simp [parameters]))
    exact power_clearAt_of_knots hi h hx hn
  | arcSine shift => exact arcSine_clearAt_of_knots (hk shift (by simp [parameters])) hi h hx hn
  | logarithm => exact logarithm_clearAt_of_knots hi h hx hn
  | sine | arcTangent | exponential =>
    have := smoothAt_of_inheritsKnots hk rfl x
    exact ⟨this.definedAt, fun _ => this⟩

end Kernel

/-! ## Lists of knots -/

/-- Only equal numbers are left out of a list of distinct numbers. -/
theorem mem_sortDistinct {xs : List Exact} (h : real x ∈ xs) : real x ∈ sortDistinct xs := by
  have hfold (kept : List Exact) (h : real x ∈ kept ∨ real x ∈ xs) :
      real x ∈ xs.foldl (fun kept x => if kept.any (x == ·) then kept else x :: kept) kept := by
    clear * - h
    induction xs generalizing kept with
    | nil => simpa using h
    | cons y ys ih =>
      rw [List.foldl_cons]
      refine ih _ ?_
      rcases h with h | h
      · left
        split_ifs
        exacts [h, List.mem_cons_of_mem y h]
      rcases List.mem_cons.1 h with rfl | h
      · left
        split_ifs with hany
        · obtain ⟨z, hz, heq⟩ := List.any_eq_true.1 hany
          rwa [(Exact.beq_iff.1 heq).1]
        · exact List.mem_cons_self
      · exact .inr h
  rw [sortDistinct, (sortStable_perm _ _).mem_iff, List.mem_reverse]
  exact hfold [] (.inr h)

namespace KnotReport

theorem combine_cons (r : KnotReport) (rs : List KnotReport) :
    combine (r :: rs) = r.combineWith (combine rs) := by
  have hfold (rs : List KnotReport) (r : KnotReport) :
      rs.foldl combineWith r = r.combineWith (combine rs) := by
    induction rs generalizing r with
    | nil => exact (combineWith_noKnots r).symm
    | cons s rs ih =>
      rw [combine, List.foldl_cons, List.foldl_cons, ih, ih, noKnots_combineWith,
        combineWith_assoc]
  rw [combine, List.foldl_cons, hfold, noKnots_combineWith]

theorem isFinite_combineWith (r s : KnotReport) :
    (r.combineWith s).isFinite = (r.isFinite && s.isFinite) := by
  cases r <;> cases s <;> rfl

theorem combineWith_eq_noKnots_iff {r s : KnotReport} :
    r.combineWith s = noKnots ↔ r = noKnots ∧ s = noKnots := by
  cases r <;> cases s <;> decide

/-- The knots of some parts can be listed if those of each part can. -/
theorem isFinite_combine {rs : List KnotReport} :
    (combine rs).isFinite = true ↔ ∀ r ∈ rs, r.isFinite = true := by
  induction rs with
  | nil => simp [combine, isFinite]
  | cons r rs ih => rw [combine_cons, isFinite_combineWith, Bool.and_eq_true, ih,
      List.forall_mem_cons]

theorem combine_eq_noKnots_iff {rs : List KnotReport} :
    combine rs = noKnots ↔ ∀ r ∈ rs, r = noKnots := by
  induction rs with
  | nil => simp [combine]
  | cons r rs ih => rw [combine_cons, combineWith_eq_noKnots_iff, ih, List.forall_mem_cons]

end KnotReport

namespace Fn

section Parts

variable {α : Type} [Scalar α] {i : Interval α} {fs : List (Fn α)}
  {segments : List (Segment α (Fn α))}

def listedKnots (f : Fn α) (i : Interval α) : List α :=
  if f.knotReport i = .noKnots then [] else f.knotPositions i

def pieces (segments : List (Segment α (Fn α))) (i : Interval α) : List (Segment α (Fn α)) :=
  segments.filterMap (·.clip? i)

theorem mem_pieces {piece : Segment α (Fn α)} : piece ∈ pieces segments i ↔
    ∃ s ∈ segments, s.range.inter? i = some piece.range ∧ s.payload = piece.payload := by
  obtain ⟨part, f⟩ := piece
  simp only [pieces, List.mem_filterMap, Segment.clip?, Option.map_eq_some_iff, Segment.mk.injEq]
  grind

/-- Parts that have no knots together list none. -/
theorem flatMap_listedKnots_eq_nil {β : Type} {parts : List β} {f : β → Fn α} {i : β → Interval α}
    (h : KnotReport.combine (parts.map fun p => (f p).knotReport (i p)) = .noKnots) :
    parts.flatMap (fun p => (f p).listedKnots (i p)) = [] :=
  List.flatMap_eq_nil_iff.2 fun _ hp =>
    if_pos (KnotReport.combine_eq_noKnots_iff.1 h _ (List.mem_map_of_mem hp))

theorem reportAll_eq (fs : List (Fn α)) (i : Interval α) :
    reportAll fs i = .combine (fs.map (knotReport · i)) := by
  induction fs with
  | nil => rfl
  | cons f fs ih =>
    rw [List.map_cons, KnotReport.combine_cons, ← ih]
    rfl

theorem positionsAll_eq (fs : List (Fn α)) (i : Interval α) :
    positionsAll fs i = fs.flatMap (listedKnots · i) := by
  induction fs with
  | nil => rfl
  | cons f fs ih =>
    rw [List.flatMap_cons, ← ih]
    rfl

theorem reportPieces_eq (segments : List (Segment α (Fn α))) (i : Interval α) :
    reportPieces segments i =
      .combine ((pieces segments i).map fun s => s.payload.knotReport s.range) := by
  induction segments with
  | nil => rfl
  | cons s rest ih =>
    obtain ⟨range, f⟩ := s
    rw [pieces] at ih ⊢
    cases h : range.inter? i <;>
      simp [reportPieces, h, Segment.clip?, KnotReport.combine_cons, ih]

theorem positionsInPieces_eq (segments : List (Segment α (Fn α))) (i : Interval α) :
    positionsInPieces segments i =
      (pieces segments i).flatMap fun s => s.payload.listedKnots s.range := by
  induction segments with
  | nil => rfl
  | cons s rest ih =>
    obtain ⟨range, f⟩ := s
    rw [pieces] at ih ⊢
    cases h : range.inter? i <;> simp [positionsInPieces, h, Segment.clip?, listedKnots, ih]

@[simp] theorem knotReport_undefined (i : Interval α) :
    (undefined : Fn α).knotReport i = undefinedReport i := rfl

@[simp] theorem knotReport_plain (k : Kernel α) (s : α) (i : Interval α) :
    (unary k s none).knotReport i = if s == 0 then .noKnots else k.knotReport i := rfl

@[simp] theorem knotReport_chain (k : Kernel α) (s : α) (f : Fn α) (i : Interval α) :
    (unary k s (some f)).knotReport i =
      if s == 0 then .noKnots else if k.inheritsKnots then f.knotReport i else .unknown := rfl

@[simp] theorem knotReport_sum (ts : List (Fn α)) (i : Interval α) :
    (sum ts).knotReport i = .combine (ts.map (knotReport · i)) := reportAll_eq ts i

@[simp] theorem knotReport_product (fs : List (Fn α)) (i : Interval α) :
    (product fs).knotReport i = .combine (fs.map (knotReport · i)) := reportAll_eq fs i

theorem knotReport_quotient {d : Fn α} {v : α} (hv : d.value? = some v) (n : Fn α)
    (i : Interval α) :
    (quotient n d).knotReport i = if v == 0 then undefinedReport i else n.knotReport i := by
  cases d <;> cases hv <;> rfl

/-- Zeros of a general denominator are not known. -/
theorem knotReport_quotient_of_none {d : Fn α} (hv : d.value? = none) (n : Fn α)
    (i : Interval α) : (quotient n d).knotReport i = .unknown := by
  cases d <;> first | rfl | cases hv

@[simp] theorem knotPositions_undefined (i : Interval α) :
    (undefined : Fn α).knotPositions i = [i.low] := rfl

@[simp] theorem knotPositions_plain (k : Kernel α) (s : α) (i : Interval α) :
    (unary k s none).knotPositions i = if s == 0 then [] else k.knots i := rfl

@[simp] theorem knotPositions_chain (k : Kernel α) (s : α) (f : Fn α) (i : Interval α) :
    (unary k s (some f)).knotPositions i = if s == 0 then [] else f.listedKnots i := rfl

@[simp] theorem knotPositions_sum (ts : List (Fn α)) (i : Interval α) :
    (sum ts).knotPositions i = ts.flatMap (listedKnots · i) := positionsAll_eq ts i

@[simp] theorem knotPositions_product (fs : List (Fn α)) (i : Interval α) :
    (product fs).knotPositions i = fs.flatMap (listedKnots · i) := positionsAll_eq fs i

theorem knotPositions_quotient {d : Fn α} {v : α} (hv : d.value? = some v) (n : Fn α)
    (i : Interval α) :
    (quotient n d).knotPositions i = if v == 0 then undefinedKnots i else n.listedKnots i := by
  cases d <;> cases hv <;> rfl

@[simp] theorem knotPositions_piecewise (segments : List (Segment α (Fn α))) (i : Interval α) :
    (piecewise segments).knotPositions i = (boundaries segments).filter i.contains ++
      (pieces segments i).flatMap fun s => s.payload.listedKnots s.range :=
  congrArg (_ ++ ·) (positionsInPieces_eq segments i)

/-- A standard function of `x` lists its own knots. -/
theorem listedKnots_plain {k : Kernel α} {s : α} (h0 : (s == 0) = false) :
    (unary k s none).listedKnots i = k.knots i := by
  simp +contextual [listedKnots, h0, Kernel.knots_eq_nil]

/-- A standard function that has no knots of its own lists those of its inner function. -/
theorem listedKnots_chain {k : Kernel α} {s : α} (h0 : (s == 0) = false)
    (hk : k.inheritsKnots = true) (f : Fn α) :
    (unary k s (some f)).listedKnots i = f.listedKnots i := by
  simp +contextual [listedKnots, h0, hk]

/-- A quotient by a number lists the knots of its numerator. -/
theorem listedKnots_quotient {d : Fn α} {v : α} (hv : d.value? = some v) (h0 : (v == 0) = false)
    (n : Fn α) : (quotient n d).listedKnots i = n.listedKnots i := by
  simp +contextual [listedKnots, knotReport_quotient hv, knotPositions_quotient hv, h0]

/-- A sum lists the knots of its terms. -/
theorem listedKnots_sum (ts : List (Fn α)) :
    (sum ts).listedKnots i = ts.flatMap (listedKnots · i) := by
  rw [listedKnots, knotReport_sum, knotPositions_sum]
  split_ifs with h
  exacts [(flatMap_listedKnots_eq_nil h).symm, rfl]

theorem listedKnots_product (fs : List (Fn α)) :
    (product fs).listedKnots i = fs.flatMap (listedKnots · i) := by
  rw [listedKnots, knotReport_product, knotPositions_product]
  split_ifs with h
  exacts [(flatMap_listedKnots_eq_nil h).symm, rfl]

/-- Inside its domain, a piecewise function reports its bounds and what its payloads report. -/
theorem knotReport_piecewise {domain : Interval α} (hd : hull? segments = some domain)
    (hcovers : domain.covers i = true) : (piecewise segments).knotReport i =
      (if (boundaries segments).any i.contains then KnotReport.finite else .noKnots).combineWith
        (.combine ((pieces segments i).map fun s => s.payload.knotReport s.range)) := by
  simp [knotReport, hd, hcovers, reportPieces_eq]

theorem isFinite_piecewise {domain : Interval α} (hd : hull? segments = some domain) :
    ((piecewise segments).knotReport i).isFinite = true ↔ domain.covers i = true ∧
      ∀ s ∈ pieces segments i, (s.payload.knotReport s.range).isFinite = true := by
  cases hcovers : domain.covers i with
  | false => simp [knotReport, hd, hcovers, KnotReport.isFinite]
  | true =>
    have hown : (if (boundaries segments).any i.contains then
        KnotReport.finite else .noKnots).isFinite = true := by
      split_ifs <;> rfl
    rw [knotReport_piecewise hd hcovers, KnotReport.isFinite_combineWith, hown, Bool.true_and,
      KnotReport.isFinite_combine, List.forall_mem_map]
    simp

/-- A piecewise function lists the bounds of its segments and the knots of its payloads. -/
theorem listedKnots_piecewise {domain : Interval α} (hd : hull? segments = some domain)
    (hcovers : domain.covers i = true) :
    (piecewise segments).listedKnots i = (boundaries segments).filter i.contains ++
      (pieces segments i).flatMap fun s => s.payload.listedKnots s.range := by
  rw [listedKnots, knotPositions_piecewise]
  split_ifs with hnone
  · rw [knotReport_piecewise hd hcovers, KnotReport.combineWith_eq_noKnots_iff] at hnone
    obtain ⟨hown, hpieces⟩ := hnone
    rw [flatMap_listedKnots_eq_nil hpieces, List.append_nil, eq_comm, List.filter_eq_nil_iff]
    split_ifs at hown with hany
    simpa using hany
  · rfl

end Parts

/-- The function is defined at the point, and the rules of differentiation apply if the point lies
inside the interval. -/
def ClearAt (i : Interval Exact) (x : ℝ) (f : Fn Exact) : Prop :=
  f.DefinedAt x ∧ (i.Inside x → f.SmoothAt x)

theorem ClearAt.of_smoothAt {f : Fn Exact} (h : f.SmoothAt x) : f.ClearAt i x :=
  ⟨h.definedAt, fun _ => h⟩

theorem smoothAt_of_value? {f : Fn Exact} {v : Exact} (hf : f.HasFiniteNumbers)
    (hv : f.value? = some v) : f.SmoothAt x := by
  cases f <;> cases hv
  · simp [SmoothAt]
  · simp [SmoothAt]
  · rw [smoothAt_const, ← Exact.isFinite_iff]
    exact (numbers_const v).1 hf

theorem mem_boundaries {segments : List (Segment Exact (Fn Exact))}
    {s : Segment Exact (Fn Exact)} (hs : s ∈ segments)
    (h : s.range.low = real x ∨ s.range.high = real x) : real x ∈ boundaries segments :=
  mem_sortDistinct (List.mem_flatMap.2 ⟨s, hs, by simpa [eq_comm] using h⟩)

/-- A point that is no bound lies inside a segment if it lies in the domain. -/
theorem exists_inside {segments : List (Segment Exact (Fn Exact))} (ht : Tiles segments)
    {domain : Interval Exact} (hd : hull? segments = some domain)
    (hx : (x : EReal) ∈ domain.points) (hb : real x ∉ boundaries segments) :
    ∃ s ∈ segments, s.range.Inside x := by
  have hlow {s} (hs : s ∈ segments) (h : toEReal s.range.low ≤ x) : toEReal s.range.low < x :=
    lt_of_le_of_ne h fun heq => hb <| mem_boundaries hs <| .inl <|
      Exact.eq_real (Interval.isProper_of_isValid (ht.valid s hs)).1 heq
  have hhigh {s} (hs : s ∈ segments) (h : (x : EReal) ≤ toEReal s.range.high) :
      (x : EReal) < toEReal s.range.high :=
    lt_of_le_of_ne h fun heq => hb <| mem_boundaries hs <| .inr <|
      Exact.eq_real (Interval.isProper_of_isValid (ht.valid s hs)).2 heq.symm
  obtain ⟨s, ⟨hs, hmem⟩, -⟩ : ∃! s, s ∈ segments ∧ (x : EReal) ∈ s.range.points := by
    refine ht.existsUnique_mem hd ?_ ?_
    all_goals obtain ⟨first, hfirst, last, hlast, rfl⟩ := hull?_eq_some_iff.1 hd
    · exact hlow (List.mem_of_head? hfirst) (Interval.low_le_of_mem hx :)
    · exact hhigh (List.mem_of_getLast? hlast) (Interval.le_high_of_mem hx :)
  exact ⟨s, hs, (Interval.inside_iff (Interval.isProper_of_isValid (ht.valid s hs))).2
    ⟨hlow hs (Interval.low_le_of_mem hmem), hhigh hs (Interval.le_high_of_mem hmem)⟩⟩

/-- Inside a segment, a piecewise function is as clear as the payload is. -/
theorem clearAt_of_payload {segments : List (Segment Exact (Fn Exact))} (ht : Tiles segments)
    {s : Segment Exact (Fn Exact)} (hs : s ∈ segments) (hx : s.range.Inside x)
    {part : Interval Exact} (hi : i.isValid = true) (hpart : s.range.inter? i = some part)
    (h : s.payload.ClearAt part x) : (piecewise segments).ClearAt i x := by
  have hsv := ht.valid s hs
  have hpv := (Interval.inter?_eq_some hsv hi hpart).1
  obtain ⟨k, hk⟩ := List.getElem?_of_mem hs
  have hmem : toEReal (real x) ∈ s.range.points := Interval.mem_points_of_inside hsv hx
  have hvisited := ht.visited?_eq_some (Exact.isNaN_real x) hk hmem
  refine ⟨(definedAt_piecewise _).2 ⟨k, s, hvisited, hk, h.1⟩, fun hin => ?_⟩
  have hinside : part.Inside x := (Interval.inside_inter? (Interval.isProper_of_isValid hsv)
    (Interval.isProper_of_isValid hi) (Interval.isProper_of_isValid hpv) hpart).2 ⟨hx, hin⟩
  exact (smoothAt_piecewise _).2 ⟨k, s, hvisited, hk, h.2 hinside, hx⟩

theorem clearAt_plain {k : Kernel Exact} {s : Exact} (hf : (unary k s none).HasFiniteNumbers)
    (hi : i.isValid = true) (h : ((unary k s none).knotReport i).isFinite = true)
    (hx : (x : EReal) ∈ i.points) (hn : real x ∉ (unary k s none).listedKnots i) :
    (unary k s none).ClearAt i x := by
  obtain ⟨hs, hk, -⟩ := (numbers_unary ..).1 hf
  by_cases h0 : s = 0
  · exact .of_smoothAt ((smoothAt_unary ..).2 (.inl h0))
  have h0' : ¬ (s == 0) = true := by simpa using h0
  rw [knotReport_plain, if_neg h0'] at h
  rw [listedKnots_plain (by simpa using h0)] at hn
  have hreal (p) (hp : p ∈ k.parameters) : p.IsReal := Exact.isFinite_iff.1 (hk p hp)
  obtain ⟨hdef, hsmooth⟩ := Kernel.clearAt_of_knots hreal hi h hx hn
  have hsreal := Exact.isFinite_iff.1 hs
  exact ⟨(definedAt_unary ..).2 (.inr ⟨hsreal, by simp [InnerDefinedAt], hdef⟩), fun hin =>
    (smoothAt_unary ..).2 (.inr ⟨hsreal, by simp, hsmooth hin⟩)⟩

/-- Inner functions matter only to standard functions that are smooth everywhere. -/
theorem clearAt_chain {k : Kernel Exact} {s : Exact} {f : Fn Exact}
    (hf : (unary k s (some f)).HasFiniteNumbers)
    (h : ((unary k s (some f)).knotReport i).isFinite = true)
    (hn : real x ∉ (unary k s (some f)).listedKnots i)
    (hclear : (f.knotReport i).isFinite = true → real x ∉ f.listedKnots i → f.ClearAt i x) :
    (unary k s (some f)).ClearAt i x := by
  obtain ⟨hs, hk, -⟩ := (numbers_unary ..).1 hf
  by_cases h0 : s = 0
  · exact .of_smoothAt ((smoothAt_unary ..).2 (.inl h0))
  have h0' : (s == 0) = false := by simpa using h0
  have hinherits : k.inheritsKnots = true := by
    by_contra hinherits
    simp [h0', hinherits, KnotReport.isFinite] at h
  rw [listedKnots_chain h0' hinherits] at hn
  obtain ⟨hdef, hsmooth⟩ := hclear (by simpa [h0', hinherits] using h) hn
  have hreal (p) (hp : p ∈ k.parameters) : p.IsReal := Exact.isFinite_iff.1 (hk p hp)
  have hks := Kernel.smoothAt_of_inheritsKnots hreal hinherits (f.value x)
  have hsreal := Exact.isFinite_iff.1 hs
  refine ⟨(definedAt_unary ..).2 (.inr ⟨hsreal, ?_, hks.definedAt⟩), fun hin =>
    (smoothAt_unary ..).2 (.inr ⟨hsreal, ?_, hks⟩)⟩
  · simpa [InnerDefinedAt] using hdef
  · simpa using hsmooth hin

/-- The knots of a quotient are known only if its denominator is a number. -/
theorem clearAt_quotient {n d : Fn Exact} (hd : d.HasFiniteNumbers) (hi : i.isValid = true)
    (h : ((quotient n d).knotReport i).isFinite = true) (hx : (x : EReal) ∈ i.points)
    (hn : real x ∉ (quotient n d).listedKnots i)
    (hclear : (n.knotReport i).isFinite = true → real x ∉ n.listedKnots i → n.ClearAt i x) :
    (quotient n d).ClearAt i x := by
  cases hv : d.value? with
  | none => simp [knotReport_quotient_of_none hv, KnotReport.isFinite] at h
  | some v =>
    by_cases h0 : v = 0
    · have hv0 : (v == 0) = true := by simpa using h0
      rw [knotReport_quotient hv, if_pos hv0] at h
      rw [listedKnots, knotReport_quotient hv, if_pos hv0, if_neg (undefinedReport_ne i),
        knotPositions_quotient hv, if_pos hv0] at hn
      exact absurd (mem_undefinedKnots hi hx h).2 hn
    · have hv0 : (v == 0) = false := by simpa using h0
      rw [listedKnots_quotient hv hv0] at hn
      obtain ⟨hdef, hsmooth⟩ := hclear (by simpa [knotReport_quotient hv, hv0] using h) hn
      have hd : d.SmoothAt x := smoothAt_of_value? hd hv
      have hne : d.value x ≠ 0 := by
        rwa [hd.definedAt.value_of_value? hv, Exact.real_eq_zero_iff] at h0
      exact ⟨(definedAt_quotient n d).2 ⟨hdef, hd.definedAt, hne⟩, fun hin =>
        (smoothAt_quotient n d).2 ⟨hsmooth hin, hd, hne⟩⟩

/-- A point that is no bound lies inside a segment, and there only the payload matters. -/
theorem clearAt_piecewise {segments : List (Segment Exact (Fn Exact))} (ht : Tiles segments)
    (hi : i.isValid = true) (h : ((piecewise segments).knotReport i).isFinite = true)
    (hx : (x : EReal) ∈ i.points) (hn : real x ∉ (piecewise segments).listedKnots i)
    (hclear : ∀ s ∈ segments, ∀ part : Interval Exact, part.isValid = true →
      (s.payload.knotReport part).isFinite = true → (x : EReal) ∈ part.points →
        real x ∉ s.payload.listedKnots part → s.payload.ClearAt part x) :
    (piecewise segments).ClearAt i x := by
  obtain ⟨domain, hdomain⟩ := ht.exists_hull
  obtain ⟨hcovers, hpieces⟩ := (isFinite_piecewise hdomain).1 h
  rw [listedKnots_piecewise hdomain hcovers, List.mem_append, not_or, List.mem_filter,
    List.mem_flatMap, not_exists] at hn
  have hip := Interval.isProper_of_isValid hi
  have hb : real x ∉ boundaries segments := fun hmem =>
    hn.1 ⟨hmem, (Interval.contains_iff hip (Exact.isNaN_real x)).2 hx⟩
  have hdx := Interval.points_subset_of_covers (ht.le_hull hdomain).1 hip hcovers hx
  obtain ⟨s, hmem, hin⟩ := exists_inside ht hdomain hdx hb
  have hsv := ht.valid s hmem
  have hsx : (x : EReal) ∈ s.range.points := Interval.mem_points_of_inside hsv hin
  obtain ⟨part, hpart⟩ := Interval.exists_inter? hsv hi hsx hx
  obtain ⟨hpv, hpoints⟩ := Interval.inter?_eq_some hsv hi hpart
  have hpiece : (⟨part, s.payload⟩ : Segment Exact (Fn Exact)) ∈ pieces segments i :=
    mem_pieces.2 ⟨s, hmem, hpart, rfl⟩
  refine clearAt_of_payload ht hmem hin hi hpart (hclear s hmem part hpv (hpieces _ hpiece) ?_
    fun hk => hn.2 _ ⟨hpiece, hk⟩)
  rw [hpoints]
  exact ⟨hsx, hx⟩

/-- A function is defined at every point that it does not list as knot, and smooth at the points
inside. -/
theorem clearAt_of_listedKnots {f : Fn Exact} (hw : f.WellFormed) (hf : f.HasFiniteNumbers)
    (hi : i.isValid = true) (h : (f.knotReport i).isFinite = true) (hx : (x : EReal) ∈ i.points)
    (hn : real x ∉ f.listedKnots i) : f.ClearAt i x := by
  induction hw generalizing i with
  | value hv => exact .of_smoothAt (smoothAt_of_value? hf hv)
  | undefined =>
    rw [knotReport_undefined] at h
    rw [listedKnots, knotReport_undefined, if_neg (undefinedReport_ne i), knotPositions_undefined,
      List.mem_singleton] at hn
    exact absurd (mem_undefinedKnots hi hx h).1.symm hn
  | plain => exact clearAt_plain hf hi h hx hn
  | chain _ ih =>
    have hinner := ((numbers_unary ..).1 hf).2.2 _ rfl
    exact clearAt_chain hf h hn fun hreport hlisted => ih hinner hi hreport hx hlisted
  | @sum ts _ ih =>
    have hterms := (numbers_sum ts).1 hf
    rw [knotReport_sum, KnotReport.isFinite_combine, List.forall_mem_map] at h
    rw [listedKnots_sum, List.mem_flatMap, not_exists] at hn
    have hclear (t) (ht : t ∈ ts) : t.ClearAt i x :=
      ih t ht (hterms t ht) hi (h t ht) hx fun hk => hn t ⟨ht, hk⟩
    exact ⟨(definedAt_sum ts).2 fun t ht => (hclear t ht).1,
      fun hin => (smoothAt_sum ts).2 fun t ht => (hclear t ht).2 hin⟩
  | @product fs hne _ ih =>
    have hfactors := (numbers_product fs).1 hf
    rw [knotReport_product, KnotReport.isFinite_combine, List.forall_mem_map] at h
    rw [listedKnots_product, List.mem_flatMap, not_exists] at hn
    have hclear (g) (hg : g ∈ fs) : g.ClearAt i x :=
      ih g hg (hfactors g hg) hi (h g hg) hx fun hk => hn g ⟨hg, hk⟩
    exact ⟨(definedAt_product fs).2 ⟨hne, fun g hg => (hclear g hg).1⟩,
      fun hin => (smoothAt_product fs).2 ⟨hne, fun g hg => (hclear g hg).2 hin⟩⟩
  | @quotient n d _ _ ihn =>
    obtain ⟨hnum, hden⟩ := (numbers_quotient n d).1 hf
    exact clearAt_quotient hden hi h hx hn fun hreport hlisted => ihn hnum hi hreport hx hlisted
  | @piecewise segments htiles _ ih =>
    have hsegments := (numbers_piecewise segments).1 hf
    exact clearAt_piecewise htiles hi h hx hn fun s hs part hpart hreport hmem hlisted =>
      ih s hs (hsegments s hs).2 hpart hreport hmem hlisted

/-- Knots are listed where the report promises it, and no knot is missing from the list. -/
theorem exists_knots {f : Fn Exact} (h : (f.knotReport i).isFinite = true) :
    ∃ ks, f.knots i = .ok ks ∧ ∀ y : ℝ, real y ∈ f.listedKnots i → real y ∈ ks := by
  unfold knots listedKnots
  cases hr : f.knotReport i with
  | noKnots => exact ⟨[], rfl, by simp⟩
  | finite => exact ⟨_, rfl, fun y hy => mem_sortDistinct (by simpa using hy)⟩
  | infinite | unknown =>
    rw [hr] at h
    cases h

/-- If there are no knots on an interval, or finitely many, a function is defined at all points of
the interval but the listed ones, and its derivative at all such points inside. -/
theorem knots_sound {f : Fn Exact} (hw : f.WellFormed) (hf : f.HasFiniteNumbers)
    (hi : i.isValid = true) (h : f.knotReport i = .noKnots ∨ f.knotReport i = .finite) :
    ∃ ks f', f.knots i = .ok ks ∧ f.derivative.outcome = .ok f' ∧
      ∀ x : ℝ, i.contains (real x) = true → real x ∉ ks →
        (f.DefinedAt x ∧ f.evaluate (real x) = .ok (real (f.value x))) ∧
        (Scalar.lt i.low (real x) = true → Scalar.lt (real x) i.high = true →
          f'.DefinedAt x ∧ f'.evaluate (real x) = .ok (real (f'.value x))) := by
  have hfinite : (f.knotReport i).isFinite = true := by
    rcases h with h | h <;> rw [h] <;> rfl
  obtain ⟨ks, hks, hmem⟩ := exists_knots hfinite
  obtain ⟨f', hf', -⟩ := (derivative_succeeds hf.kernels).exists_ok
  refine ⟨ks, f', hks, hf', fun x hx hn => ?_⟩
  have hpoint : (x : EReal) ∈ i.points :=
    (Interval.contains_iff (Interval.isProper_of_isValid hi) (Exact.isNaN_real x)).1 hx
  obtain ⟨hdef, hsmooth⟩ :=
    clearAt_of_listedKnots hw hf hi hfinite hpoint fun hk => hn (hmem x hk)
  refine ⟨⟨hdef, evaluate_eq_value hdef⟩, fun hlow hhigh => ?_⟩
  have hdef' := (derivative_yields (hsmooth ⟨hlow, hhigh⟩)).of_ok hf' |>.defined
  exact ⟨hdef', evaluate_eq_value hdef'⟩

/-- Zero is the one knot of `x⁻¹ + exp x` on the interval from -1 to 1. -/
theorem knots_sound_inverse_add_exponential :
    let i : Interval Exact := .closed (-1) 1
    let f : Fn Exact := sum [unary (.power (-1)) 1 none, unary .exponential 1 none]
    f.WellFormed ∧ f.HasFiniteNumbers ∧ i.isValid = true ∧ f.knotReport i = .finite ∧
      f.knots i = .ok [0] ∧ ∃ f', f.derivative.outcome = .ok f' ∧
        ∀ x : ℝ, -1 < x → x < 1 → x ≠ 0 → f.DefinedAt x ∧ f'.DefinedAt x := by
  intro i f
  have hw : f.WellFormed := .sum (by simpa using ⟨.plain, .plain⟩)
  have hf : f.HasFiniteNumbers := by
    simp [f, HasFiniteNumbers, Kernel.parameters, Exact.one_eq]
  have hi : i.isValid = true := by simp [i, Interval.isValid, Interval.closed, Exact.one_eq]
  have hone : ((1 : Exact) == 0) = false := by simp [Exact.one_eq, Exact.zero_eq]
  have hpower : (Kernel.power (-1)).knotReport i = .finite ∧ (Kernel.power (-1)).knots i = [0] := by
    have hmono : (Kernel.power (-1) : Kernel Exact).isMonomial = false := by
      rw [← Bool.not_eq_true, Exact.neg_one_eq, Kernel.isMonomial_power]
      norm_num
    have hinteger : Scalar.isInteger (-1 : Exact) = true :=
      Exact.isInteger_real.2 ⟨-1, by norm_num⟩
    have hpole : Scalar.lt (-1 : Exact) 0 = true ∧ i.contains 0 = true := by
      simp [i, Interval.contains, Interval.closed, Exact.one_eq, Exact.zero_eq]
    constructor <;> simp [Kernel.knotReport, Kernel.knots, hmono, hinteger, hpole]
  have hexponential : (Kernel.exponential : Kernel Exact).knotReport i = .noKnots := rfl
  have hreport : f.knotReport i = .finite := by
    simp [f, KnotReport.combine, hone, hpower.1, hexponential]
  have hknots : f.knots i = .ok [0] := by
    have hpositions : f.knotPositions i = [0] := by
      simp [f, listedKnots, hone, hpower, hexponential]
    simp only [knots, hreport, hpositions]
    exact congrArg Except.ok (List.perm_singleton.1 (sortStable_perm _ _))
  obtain ⟨ks, f', hks, hf', hsound⟩ := knots_sound hw hf hi (.inr hreport)
  obtain rfl : [0] = ks := Except.ok.inj (hknots.symm.trans hks)
  refine ⟨hw, hf, hi, hreport, hknots, f', hf', fun x hlow hhigh h0 => ?_⟩
  have hin : i.contains (real x) = true := by
    simp [i, Interval.contains, Interval.closed, Exact.one_eq, hlow.le, hhigh.le]
  obtain ⟨hx, hx'⟩ := hsound x hin (by simpa using h0)
  exact ⟨hx.1, (hx' (decide_eq_true hlow) (decide_eq_true hhigh)).1⟩

end Fn

end FunctionAlgebra
