import FunctionAlgebra.Proofs.Forget
import FunctionAlgebra.Proofs.KnotRestriction

/-!
# Functions within a bound for their knots

A bound tells how much may be reported about knots, and which ones may be listed. A function is
within the bound if its parts are. To be kept by simplification, this has to say something about
numbers as well: they are real, except where the function may be undefined.

## Main definitions

* `KnotBound` — what may be reported and listed at most.
* `Fn.Within` — a function stays within a bound, part by part.

## Main statements

* `Fn.Within.allows` — what such a function reports and lists is allowed.
* `Fn.within_of_allows` — all functions whose report and list are allowed are within the bound.
* `Fn.Within.scaleBy`, `Fn.Within.withScale` — scaled functions stay within the bound.
-/

namespace FunctionAlgebra

open Exact (real)

/-! ## Bounds -/

/-- What may be reported and listed at most. -/
structure KnotBound where
  report : KnotReport
  knots : List Exact

namespace KnotBound

variable {b : KnotBound} {r : KnotReport} {xs : List Exact} {i j : Interval Exact}
  {a v w x : Exact}

structure Allows (b : KnotBound) (r : KnotReport) (xs : List Exact) : Prop where
  rank : r.rank ≤ b.report.rank
  knots : b.report.isFinite = true → ∀ x ∈ xs, x ∈ b.knots

def AllowsUndefined (b : KnotBound) (i : Interval Exact) : Prop :=
  b.Allows (undefinedReport i) [i.low]

/-- Numbers are real, except where functions may be undefined. -/
def AllowsNumber (b : KnotBound) (i : Interval Exact) (a : Exact) : Prop :=
  a.IsReal ∨ b.AllowsUndefined i

theorem isFinite_of_infinite (h : KnotReport.infinite.rank ≤ b.report.rank) :
    b.report.isFinite = false := by
  revert h
  cases b.report <;> decide

theorem eq_unknown (h : KnotReport.unknown.rank ≤ b.report.rank) : b.report = .unknown := by
  revert h
  cases b.report <;> decide

theorem allows_noKnots (b : KnotBound) : b.Allows .noKnots [] := ⟨Nat.zero_le _, by simp⟩

theorem Allows.mono {ys : List Exact} (h : b.Allows r xs) (hys : ∀ y ∈ ys, y ∈ xs) :
    b.Allows r ys :=
  ⟨h.rank, fun hb y hy => h.knots hb y (hys y hy)⟩

/-- Only the knots of a point are listed. -/
theorem allowsUndefined_iff :
    b.Allows (undefinedReport i) (undefinedKnots i) ↔ b.AllowsUndefined i := by
  by_cases hpoint : i.isPoint = true
  · simp [AllowsUndefined, undefinedKnots, hpoint]
  · rw [AllowsUndefined, undefinedReport, undefinedKnots, if_neg hpoint, if_neg hpoint]
    constructor
    · exact fun h => ⟨h.rank, by simp [isFinite_of_infinite h.rank]⟩
    · exact fun h => ⟨h.rank, by simp⟩

/-- On a part of an interval nothing else may be undefined. -/
theorem AllowsUndefined.mono (h : b.AllowsUndefined i) (hi : i.isValid = true)
    (hj : j.isValid = true) (hij : j.points ⊆ i.points) : b.AllowsUndefined j := by
  by_cases hpoint : i.isPoint = true
  · obtain ⟨hlow, -, hpoint'⟩ := Interval.eq_of_subset_point hi hj hij hpoint
    have hjp := Interval.isProper_of_isValid hj
    have hip := Interval.isProper_of_isValid hi
    have : j.low = i.low := Exact.eq_of_toEReal hjp.1 hip.1 hlow
    rw [AllowsUndefined, undefinedReport, if_pos hpoint] at h
    rwa [AllowsUndefined, undefinedReport, if_pos hpoint', this]
  · obtain ⟨hrank, -⟩ := h
    rw [undefinedReport, if_neg hpoint] at hrank
    refine ⟨le_trans ?_ hrank, by simp [isFinite_of_infinite hrank]⟩
    unfold undefinedReport
    split_ifs <;> decide

/-- Where functions may be undefined, each point may be a knot. -/
theorem AllowsUndefined.allows_knot (h : b.AllowsUndefined i) (hi : i.isValid = true)
    (hx : Scalar.isNaN x = false) (hin : i.contains x = true) : b.Allows .finite [x] := by
  have hip := Interval.isProper_of_isValid hi
  obtain ⟨hrank, hknots⟩ := h
  by_cases hpoint : i.isPoint = true
  · rw [undefinedReport, if_pos hpoint] at hrank
    have hmem := (Interval.contains_iff hip hx).1 hin
    have hlow : LineScalar.toEReal x = LineScalar.toEReal i.low := by
      have hsame := (Interval.isPoint_iff hip).1 hpoint
      exact (hsame ▸ Interval.le_high_of_mem hmem).antisymm (Interval.low_le_of_mem hmem)
    rw [Exact.eq_of_toEReal hx hip.1 hlow]
    exact ⟨hrank, hknots⟩
  · rw [undefinedReport, if_neg hpoint] at hrank
    exact ⟨le_trans (by decide) hrank, by simp [isFinite_of_infinite hrank]⟩

namespace AllowsNumber

theorem mono (h : b.AllowsNumber i a) (hi : i.isValid = true) (hj : j.isValid = true)
    (hij : j.points ⊆ i.points) : b.AllowsNumber j a :=
  h.imp_right fun h => h.mono hi hj hij

theorem add (hv : b.AllowsNumber i v) (hw : b.AllowsNumber i w) : b.AllowsNumber i (v + w) := by
  rcases hv with hv | hv
  · exact hw.imp_left hv.add
  · exact .inr hv

theorem mul (hv : b.AllowsNumber i v) (hw : b.AllowsNumber i w) : b.AllowsNumber i (v * w) := by
  rcases hv with hv | hv
  · exact hw.imp_left hv.mul
  · exact .inr hv

theorem div (hv : b.AllowsNumber i v) (hw : b.AllowsNumber i w) (h0 : w ≠ 0) :
    b.AllowsNumber i (v / w) := by
  rcases hv with hv | hv
  · exact hw.imp_left fun hw => hv.div hw h0
  · exact .inr hv

theorem zero : b.AllowsNumber i 0 := .inl Exact.isReal_zero

theorem one : b.AllowsNumber i 1 := .inl Exact.isReal_one

end AllowsNumber

end KnotBound

/-! ## Standard functions -/

/-- Sums of numbers that are not below zero are not below zero. -/
theorem Exact.lt_zero_add {a b : Exact} (ha : Scalar.lt a 0 = false) (hb : Scalar.lt b 0 = false) :
    Scalar.lt (a + b) 0 = false := by
  cases a with
  | real r =>
    cases b with
    | real s =>
      simp only [Exact.zero_eq, Exact.lt_real, decide_eq_false_iff_not, not_lt, Exact.real_add]
        at ha hb ⊢
      exact add_nonneg ha hb
    | _ => exact hb
  | posInf => cases b <;> exact ha
  | negInf => cases ha
  | nan => cases b <;> rfl

theorem Exact.mul_ne_zero {a c : Exact} (ha : a ≠ 0) (hc : c ≠ 0) : a * c ≠ 0 := by
  have hinf (r : ℝ) : infinityOf r ≠ 0 := by
    unfold infinityOf
    split_ifs <;> simp [zero_eq]
  cases a with
  | real r =>
    cases c with
    | real s => simp_all
    | posInf => exact hinf r
    | negInf => exact hinf (-r)
    | nan => exact nofun
  | posInf =>
    cases c with
    | real s => exact hinf s
    | _ => exact nofun
  | negInf =>
    cases c with
    | real s => exact hinf (-s)
    | _ => exact nofun
  | nan => exact nofun

namespace Kernel

variable {b : KnotBound} {i : Interval Exact} {k : Kernel Exact} {p q : Exact}

/-- A standard function of `x` is within a bound if it may be undefined where it leaves its domain,
and if its pole may be a knot. -/
theorem allows_iff (hi : i.isValid = true) : b.Allows (k.knotReport i) (k.knots i) ↔
    (k.leavesDomain i = true → b.AllowsUndefined i) ∧
      (k.hasPole = true → i.contains 0 = true → b.Allows .finite [0]) := by
  rw [knotReport_eq, knots_eq]
  by_cases hleaves : k.leavesDomain i = true
  · rw [if_pos hleaves, if_pos hleaves]
    rw [KnotBound.allowsUndefined_iff]
    refine ⟨fun h => ⟨fun _ => h, fun _ hin => ?_⟩, fun h => h.1 hleaves⟩
    exact h.allows_knot hi LawfulScalar.isNaN_zero hin
  · rw [if_neg hleaves, if_neg hleaves]
    by_cases hpole : (k.hasPole && i.contains 0) = true
    · rw [if_pos hpole, if_pos hpole]
      rw [Bool.and_eq_true] at hpole
      exact ⟨fun h => ⟨fun h => absurd h hleaves, fun _ _ => h⟩, fun h => h.2 hpole.1 hpole.2⟩
    · rw [if_neg hpole, if_neg hpole]
      rw [Bool.and_eq_true, not_and] at hpole
      exact iff_of_true b.allows_noKnots
        ⟨fun h => absurd h hleaves, fun h hin => absurd hin (hpole h)⟩

theorem isMonomial_iff : (power p).isMonomial = true ↔ ∃ n : ℕ, p = real n := by
  cases p with
  | real r =>
    rw [isMonomial_power]
    constructor
    · rintro ⟨⟨n, rfl⟩, hn⟩
      obtain ⟨m, rfl⟩ := Int.eq_ofNat_of_zero_le (Int.cast_nonneg_iff.1 hn)
      exact ⟨m, rfl⟩
    · rintro ⟨n, hn⟩
      obtain rfl : r = n := by simpa using hn
      exact ⟨⟨n, rfl⟩, n.cast_nonneg⟩
  | posInf | negInf | nan => simp [isMonomial, Scalar.isInteger, Scalar.isFinite]

theorem inheritsKnots_power_add (hp : (power p).inheritsKnots = true)
    (hq : (power q).inheritsKnots = true) : (power (p + q)).inheritsKnots = true := by
  obtain ⟨m, rfl⟩ := isMonomial_iff.1 hp
  obtain ⟨n, rfl⟩ := isMonomial_iff.1 hq
  exact isMonomial_iff.2 ⟨m + n, by simp⟩

/-- A standard function that only has the knots of an inner function is defined everywhere. -/
theorem allows_of_inheritsKnots (h : k.inheritsKnots = true) :
    b.Allows (k.knotReport i) (k.knots i) := by
  have hk : k.leavesDomain i = false ∧ k.hasPole = false := by
    cases k with
    | power p =>
      have h : (power p).isMonomial = true := h
      simp [leavesDomain, hasPole, h]
    | sine | arcTangent | exponential => exact ⟨rfl, rfl⟩
    | arcSine | logarithm => cases h
  rw [knotReport_eq, knots_eq, hk.1, hk.2]
  exact b.allows_noKnots

theorem isInteger_iff {a : Exact} : Scalar.isInteger a = true ↔ ∃ n : ℤ, a = real n := by
  cases a with
  | real r => simp [Exact.isInteger_real]
  | posInf | negInf | nan => simp [Scalar.isInteger, Scalar.isFinite]

theorem isInteger_add {a b : Exact} (ha : Scalar.isInteger a = true)
    (hb : Scalar.isInteger b = true) : Scalar.isInteger (a + b) = true := by
  obtain ⟨m, rfl⟩ := isInteger_iff.1 ha
  obtain ⟨n, rfl⟩ := isInteger_iff.1 hb
  exact isInteger_iff.2 ⟨m + n, by simp⟩

/-- Natural exponents are integers that are not below zero. -/
theorem isMonomial_eq_false (h : Scalar.isInteger p = false ∨ Scalar.lt p 0 = true) :
    (power p).isMonomial = false := by
  by_contra hmonomial
  obtain ⟨n, rfl⟩ := isMonomial_iff.1 (Bool.eq_true_of_not_eq_false hmonomial)
  rcases h with hint | hneg
  · have hn : Scalar.isInteger (real n) = true := isInteger_iff.2 ⟨n, by simp⟩
    exact absurd (hint.symm.trans hn) Bool.false_ne_true
  · exact absurd n.cast_nonneg (not_le.2 (by simpa [Exact.zero_eq] using hneg))

theorem leavesDomain_power_iff : (power p).leavesDomain i = true ↔
    Scalar.isInteger p = false ∧ Scalar.lt i.low 0 = true := by
  cases hint : Scalar.isInteger p with
  | false => simp [leavesDomain, hint, isMonomial_eq_false (.inl hint)]
  | true => simp [leavesDomain, hint]

theorem hasPole_power_iff : (power p).hasPole = true ↔ Scalar.lt p 0 = true := by
  cases hneg : Scalar.lt p 0 with
  | false => simp [hasPole, hneg]
  | true => simp [hasPole, hneg, isMonomial_eq_false (.inr hneg)]

/-- A sum of exponents has no root or pole that neither exponent has. -/
theorem allows_power_add (hi : i.isValid = true)
    (hp : b.Allows ((power p).knotReport i) ((power p).knots i))
    (hq : b.Allows ((power q).knotReport i) ((power q).knots i)) :
    b.Allows ((power (p + q)).knotReport i) ((power (p + q)).knots i) := by
  rw [allows_iff hi, leavesDomain_power_iff, hasPole_power_iff] at *
  constructor
  · rintro ⟨hint, hlow⟩
    cases hpint : Scalar.isInteger p with
    | false => exact hp.1 ⟨hpint, hlow⟩
    | true =>
      refine hq.1 ⟨Bool.eq_false_iff.2 fun hqint => ?_, hlow⟩
      rw [isInteger_add hpint hqint] at hint
      cases hint
  · intro hneg hin
    cases hpneg : Scalar.lt p 0 with
    | true => exact hp.2 hpneg hin
    | false =>
      refine hq.2 (Bool.eq_true_of_not_eq_false fun hqneg => ?_) hin
      rw [Exact.lt_zero_add hpneg hqneg] at hneg
      cases hneg

end Kernel

/-! ## Functions -/

namespace KnotReport

theorem rank_le_unknown (r : KnotReport) : r.rank ≤ unknown.rank := by
  cases r <;> decide

theorem isFinite_of_rank_le {r s : KnotReport} (h : r.rank ≤ s.rank) (hs : s.isFinite = true) :
    r.isFinite = true := by
  revert h hs
  cases r <;> cases s <;> decide

theorem rank_combine_le {rs : List KnotReport} {n : Nat} :
    (combine rs).rank ≤ n ↔ ∀ r ∈ rs, r.rank ≤ n := by
  induction rs with
  | nil => simp [combine, rank]
  | cons r rs ih => rw [combine_cons, rank_combineWith, Nat.max_le, ih, List.forall_mem_cons]

end KnotReport

/-- Parts are together within a bound if each of them is. -/
theorem KnotBound.allows_combine_iff {b : KnotBound} {β : Type} {parts : List β}
    {r : β → KnotReport} {xs : β → List Exact} :
    b.Allows (.combine (parts.map r)) (parts.flatMap xs) ↔
      ∀ p ∈ parts, b.Allows (r p) (xs p) := by
  constructor
  · intro h p hp
    refine ⟨KnotReport.rank_combine_le.1 h.rank _ (List.mem_map_of_mem hp), fun hb x hx => ?_⟩
    exact h.knots hb x (List.mem_flatMap.2 ⟨p, hp, hx⟩)
  · intro h
    refine ⟨KnotReport.rank_combine_le.2 ?_, fun hb x hx => ?_⟩
    · rw [List.forall_mem_map]
      exact fun p hp => (h p hp).rank
    · obtain ⟨p, hp, hx⟩ := List.mem_flatMap.1 hx
      exact (h p hp).knots hb x hx

/-- Two parts are together within a bound if both are. -/
theorem KnotBound.allows_combineWith_iff {b : KnotBound} {r s : KnotReport} {xs ys : List Exact} :
    b.Allows (r.combineWith s) (xs ++ ys) ↔ b.Allows r xs ∧ b.Allows s ys := by
  constructor
  · rintro ⟨hrank, hknots⟩
    rw [KnotReport.rank_combineWith, Nat.max_le] at hrank
    exact ⟨⟨hrank.1, fun hb x hx => hknots hb x (List.mem_append_left _ hx)⟩,
      ⟨hrank.2, fun hb x hx => hknots hb x (List.mem_append_right _ hx)⟩⟩
  · rintro ⟨hr, hs⟩
    refine ⟨?_, fun hb x hx => (List.mem_append.1 hx).elim (hr.knots hb x) (hs.knots hb x)⟩
    rw [KnotReport.rank_combineWith]
    exact Nat.max_le.2 ⟨hr.rank, hs.rank⟩

/-- Some knots, if there are any, are within a bound if each of them is. -/
theorem KnotBound.allows_filter_iff {b : KnotBound} {p : Exact → Bool} {xs : List Exact} :
    b.Allows (if xs.any p then .finite else .noKnots) (xs.filter p) ↔
      ∀ x ∈ xs, p x = true → b.Allows .finite [x] := by
  constructor
  · intro h x hx hp
    have hany : xs.any p = true := List.any_eq_true.2 ⟨x, hx, hp⟩
    rw [if_pos hany] at h
    exact h.mono (by simp [hx, hp])
  · intro h
    refine ⟨?_, fun hb x hx => ?_⟩
    · split_ifs with hany
      · obtain ⟨x, hx, hp⟩ := List.any_eq_true.1 hany
        exact (h x hx hp).rank
      · exact Nat.zero_le _
    · obtain ⟨hx, hp⟩ := List.mem_filter.1 hx
      exact (h x hx hp).knots hb x (by simp)

namespace Fn

def AllowsNumbers (b : KnotBound) (i : Interval Exact) (k : Kernel Exact) (s : Exact) : Prop :=
  s.IsReal ∧ (∀ p ∈ k.parameters, p.IsReal) ∨ b.AllowsUndefined i

/-- What a function reports and lists on an interval is within a bound, part by part. Inner
functions only occur in standard functions that have no knots of their own, and denominators are
numbers, because else nothing is known about knots. Standard functions with scale zero, which
report nothing, whatever they contain, only occur if `zeros` holds. -/
inductive Within (b : KnotBound) (zeros : Prop) : Interval Exact → Fn Exact → Prop where
  | value {i f v} (hv : f.value? = some v) (h : b.AllowsNumber i v) : Within b zeros i f
  | undefined {i} (h : b.AllowsUndefined i) : Within b zeros i undefined
  | vanishing {i k inner} (hz : zeros) : Within b zeros i (unary k 0 inner)
  | standard {i k s} {inner : Option (Fn Exact)} (hs : s ≠ 0) (hn : AllowsNumbers b i k s)
    (hk : b.Allows (k.knotReport i) (k.knots i)) (hc : ∀ f ∈ inner, k.inheritsKnots = true)
    (hf : ∀ f ∈ inner, Within b zeros i f) : Within b zeros i (unary k s inner)
  | sum {i} {ts : List (Fn Exact)} (ht : ∀ t ∈ ts, Within b zeros i t) : Within b zeros i (sum ts)
  | product {i} {fs : List (Fn Exact)} (hf : ∀ f ∈ fs, Within b zeros i f) :
    Within b zeros i (product fs)
  | pole {i n d} (hd : d.value? = some 0) (h : b.AllowsUndefined i) : Within b zeros i (quotient n d)
  | quotient {i n d v} (hd : d.value? = some v) (h0 : v ≠ 0) (hv : b.AllowsNumber i v)
    (hn : Within b zeros i n) : Within b zeros i (quotient n d)
  | outside {i segments domain} (hd : hull? segments = some domain)
    (hc : domain.covers i = false) (h : KnotReport.infinite.rank ≤ b.report.rank) :
    Within b zeros i (piecewise segments)
  | piecewise {i} {segments : List (Segment Exact (Fn Exact))} {domain}
    (hv : ∀ s ∈ segments, s.range.isValid = true) (hd : hull? segments = some domain)
    (hc : domain.covers i = true)
    (hb : ∀ x ∈ boundaries segments, i.contains x = true → b.Allows .finite [x])
    (hs : ∀ s ∈ pieces segments i, Within b zeros s.range s.payload) :
    Within b zeros i (piecewise segments)

variable {b : KnotBound} {zeros : Prop} {i : Interval Exact} {f g : Fn Exact}
  {segments : List (Segment Exact (Fn Exact))}

theorem within_sum_iff {ts : List (Fn Exact)} :
    (sum ts).Within b zeros i ↔ ∀ t ∈ ts, t.Within b zeros i := by
  constructor
  · intro h
    cases h with
    | value hv => cases hv
    | sum ht => exact ht
  · exact .sum

theorem within_product_iff {fs : List (Fn Exact)} :
    (product fs).Within b zeros i ↔ ∀ f ∈ fs, f.Within b zeros i := by
  constructor
  · intro h
    cases h with
    | value hv => cases hv
    | product hf => exact hf
  · exact .product

theorem listedKnots_of_noKnots {α : Type} [Scalar α] {f : Fn α} {i : Interval α}
    (h : f.knotReport i = .noKnots) : f.listedKnots i = [] := if_pos h

theorem knotReport_of_value {α : Type} [Scalar α] {f : Fn α} {v : α} (hv : f.value? = some v)
    (i : Interval α) : f.knotReport i = .noKnots := by
  cases f <;> first | rfl | cases hv

/-- A piecewise function has knots at the ends of its segments and those of its payloads. -/
theorem allows_piecewise_iff {domain : Interval Exact} (hd : hull? segments = some domain)
    (hc : domain.covers i = true) :
    b.Allows ((piecewise segments).knotReport i) ((piecewise segments).listedKnots i) ↔
      (∀ x ∈ boundaries segments, i.contains x = true → b.Allows .finite [x]) ∧
        ∀ s ∈ pieces segments i, b.Allows (s.payload.knotReport s.range)
          (s.payload.listedKnots s.range) := by
  rw [knotReport_piecewise hd hc, listedKnots_piecewise hd hc, KnotBound.allows_combineWith_iff,
    KnotBound.allows_filter_iff, KnotBound.allows_combine_iff]

/-- What is reported and listed of a function within a bound is allowed. -/
theorem Within.allows (h : f.Within b zeros i) : b.Allows (f.knotReport i) (f.listedKnots i) := by
  induction h with
  | value hv =>
    rw [listedKnots_of_noKnots (knotReport_of_value hv _), knotReport_of_value hv]
    exact b.allows_noKnots
  | undefined h =>
    rw [listedKnots, knotReport_undefined, if_neg (undefinedReport_ne _), knotPositions_undefined]
    exact h
  | @vanishing i k inner =>
    have hreport : (unary k 0 inner).knotReport i = .noKnots := by
      cases inner <;> simp
    rw [listedKnots_of_noKnots hreport, hreport]
    exact b.allows_noKnots
  | @standard i k s inner hs hn hk hc hf ih =>
    rw [← Exact.beq_zero_eq_false_iff] at hs
    cases inner with
    | none =>
      rw [listedKnots_plain hs, knotReport_plain, hs]
      exact hk
    | some f =>
      have hinherits := hc f rfl
      rw [listedKnots_chain hs hinherits, knotReport_chain, hs, hinherits]
      exact ih f rfl
  | sum ht ih =>
    rw [knotReport_sum, listedKnots_sum]
    exact KnotBound.allows_combine_iff.2 ih
  | product hf ih =>
    rw [knotReport_product, listedKnots_product]
    exact KnotBound.allows_combine_iff.2 ih
  | pole hd h =>
    rw [listedKnots, knotReport_quotient hd, knotPositions_quotient hd,
      if_pos LawfulScalar.zero_beq_zero, if_pos LawfulScalar.zero_beq_zero,
      if_neg (undefinedReport_ne _)]
    exact KnotBound.allowsUndefined_iff.2 h
  | quotient hd h0 hv hn ih =>
    rw [← Exact.beq_zero_eq_false_iff] at h0
    rw [listedKnots_quotient hd h0, knotReport_quotient hd, h0]
    exact ih
  | @outside i segments domain hd hc h =>
    have hreport : (Fn.piecewise segments).knotReport i = .infinite := by
      simp [knotReport, hd, hc]
    rw [hreport]
    exact ⟨h, by simp [KnotBound.isFinite_of_infinite h]⟩
  | @piecewise i segments domain hv hd hc hb hs ih =>
    exact (allows_piecewise_iff hd hc).2 ⟨hb, ih⟩

/-! ### Functions of which something is known -/

theorem within_plain {k : Kernel Exact} {s : Exact} (hf : (unary k s none).HasFiniteNumbers)
    (h : b.Allows ((unary k s none).knotReport i) ((unary k s none).listedKnots i)) :
    (unary k s none).Within b True i := by
  obtain ⟨hs, hk, -⟩ := (numbers_unary ..).1 hf
  by_cases h0 : s = 0
  · exact h0 ▸ .vanishing trivial
  have hs0 : (s == 0) = false := Exact.beq_zero_eq_false_iff.2 h0
  rw [knotReport_plain, listedKnots_plain hs0, hs0, if_neg Bool.false_ne_true] at h
  exact .standard h0 (.inl ⟨Exact.isFinite_iff.1 hs, fun p hp => Exact.isFinite_iff.1 (hk p hp)⟩) h
    nofun nofun

theorem within_chain (hb : b.report ≠ .unknown) {k : Kernel Exact} {s : Exact}
    (hf : (unary k s (some f)).HasFiniteNumbers)
    (h : b.Allows ((unary k s (some f)).knotReport i) ((unary k s (some f)).listedKnots i))
    (ih : b.Allows (f.knotReport i) (f.listedKnots i) → f.Within b True i) :
    (unary k s (some f)).Within b True i := by
  obtain ⟨hs, hk, -⟩ := (numbers_unary ..).1 hf
  by_cases h0 : s = 0
  · exact h0 ▸ .vanishing trivial
  have hs0 : (s == 0) = false := Exact.beq_zero_eq_false_iff.2 h0
  cases hinherits : k.inheritsKnots with
  | false =>
    rw [knotReport_chain, hs0, hinherits] at h
    exact absurd (KnotBound.eq_unknown h.rank) hb
  | true =>
    rw [knotReport_chain, listedKnots_chain hs0 hinherits, hs0, hinherits] at h
    refine .standard h0 (.inl ⟨Exact.isFinite_iff.1 hs, fun p hp => Exact.isFinite_iff.1 (hk p hp)⟩)
      (Kernel.allows_of_inheritsKnots hinherits) (fun _ _ => hinherits) ?_
    simpa using ih h

theorem within_quotient (hb : b.report ≠ .unknown) {n d : Fn Exact} (hf : d.HasFiniteNumbers)
    (h : b.Allows ((quotient n d).knotReport i) ((quotient n d).listedKnots i))
    (ih : b.Allows (n.knotReport i) (n.listedKnots i) → n.Within b True i) :
    (quotient n d).Within b True i := by
  cases hv : d.value? with
  | none =>
    rw [knotReport_quotient_of_none hv] at h
    exact absurd (KnotBound.eq_unknown h.rank) hb
  | some v =>
    by_cases h0 : v = 0
    · have h0' : (v == 0) = true := Exact.beq_zero_iff.2 h0
      rw [listedKnots, knotReport_quotient hv, knotPositions_quotient hv, if_pos h0', if_pos h0',
        if_neg (undefinedReport_ne i), KnotBound.allowsUndefined_iff] at h
      exact .pole (h0 ▸ hv) h
    · have h0' : (v == 0) = false := Exact.beq_zero_eq_false_iff.2 h0
      rw [knotReport_quotient hv, listedKnots_quotient hv h0', h0', if_neg Bool.false_ne_true] at h
      exact .quotient hv h0 (.inl (hf.isReal_value hv)) (ih h)

theorem within_piecewise (ht : Tiles segments)
    (h : b.Allows ((piecewise segments).knotReport i) ((piecewise segments).listedKnots i))
    (ih : ∀ piece ∈ pieces segments i, b.Allows (piece.payload.knotReport piece.range)
      (piece.payload.listedKnots piece.range) → piece.payload.Within b True piece.range) :
    (piecewise segments).Within b True i := by
  obtain ⟨domain, hdomain⟩ := ht.exists_hull
  cases hcovers : domain.covers i with
  | false =>
    have hreport : (piecewise segments).knotReport i = .infinite := by
      simp [knotReport, hdomain, hcovers]
    exact .outside hdomain hcovers (hreport ▸ h.rank)
  | true =>
    obtain ⟨hb, hparts⟩ := (allows_piecewise_iff hdomain hcovers).1 h
    exact .piecewise ht.valid hdomain hcovers hb fun piece hpiece =>
      ih piece hpiece (hparts piece hpiece)

/-- A function of which it is known what its knots are is within a bound that allows them. -/
theorem within_of_allows (hw : f.WellFormed) (hf : f.HasFiniteNumbers) (hi : i.isValid = true)
    (hb : b.report ≠ .unknown) (h : b.Allows (f.knotReport i) (f.listedKnots i)) :
    f.Within b True i := by
  induction hw generalizing i with
  | @value f v hv =>
    exact .value hv (.inl (hf.isReal_value hv))
  | undefined =>
    rw [listedKnots, knotReport_undefined, if_neg (undefinedReport_ne i),
      knotPositions_undefined] at h
    exact .undefined h
  | plain => exact within_plain hf h
  | chain _ ih =>
    have hinner := ((numbers_unary ..).1 hf).2.2 _ rfl
    exact within_chain hb hf h fun h => ih hinner hi h
  | @sum ts _ ih =>
    have hterms := (numbers_sum ts).1 hf
    rw [knotReport_sum, listedKnots_sum, KnotBound.allows_combine_iff] at h
    exact .sum fun t ht => ih t ht (hterms t ht) hi (h t ht)
  | @product fs _ _ ih =>
    have hfactors := (numbers_product fs).1 hf
    rw [knotReport_product, listedKnots_product, KnotBound.allows_combine_iff] at h
    exact .product fun g hg => ih g hg (hfactors g hg) hi (h g hg)
  | @quotient n d _ _ ihn =>
    obtain ⟨hnum, hden⟩ := (numbers_quotient n d).1 hf
    exact within_quotient hb hden h fun h => ihn hnum hi h
  | @piecewise segments htiles _ ih =>
    have hsegments := (numbers_piecewise segments).1 hf
    refine within_piecewise htiles h fun piece hpiece h => ?_
    have hpv := (pieces_subset htiles.valid hi hpiece).1
    obtain ⟨s, hs, -, hpayload⟩ := mem_pieces.1 hpiece
    rw [← hpayload] at h ⊢
    exact ih s hs (hsegments s hs).2 hpv h

/-! ### Functions with other parts -/

/-- The more may vanish, the more functions are within a bound. -/
theorem Within.mono {zeros' : Prop} (h : f.Within b zeros i) (hz : zeros → zeros') :
    f.Within b zeros' i := by
  induction h with
  | value hv h => exact .value hv h
  | undefined h => exact .undefined h
  | vanishing h => exact .vanishing (hz h)
  | standard hs hn hk hc _ ih => exact .standard hs hn hk hc ih
  | sum _ ih => exact .sum ih
  | product _ ih => exact .product ih
  | pole hd h => exact .pole hd h
  | quotient hd h0 hv _ ih => exact .quotient hd h0 hv ih
  | outside hd hc h => exact .outside hd hc h
  | piecewise hv hd hc hb _ ih => exact .piecewise hv hd hc hb ih

theorem hull?_congr {ss ts : List (Segment Exact (Fn Exact))}
    (h : ss.map (·.range) = ts.map (·.range)) : hull? ss = hull? ts := by
  have hrange (l : List (Segment Exact (Fn Exact))) : hull? l =
      (l.map (·.range)).head?.bind fun first =>
        (l.map (·.range)).getLast?.map fun last => .closed first.low last.high := by
    rw [hull?, List.head?_map, List.getLast?_map]
    cases l.head? <;> cases l.getLast? <;> rfl
  rw [hrange, hrange, h]

theorem boundaries_congr {ss ts : List (Segment Exact (Fn Exact))}
    (h : ss.map (·.range) = ts.map (·.range)) : boundaries ss = boundaries ts := by
  have hrange (l : List (Segment Exact (Fn Exact))) : boundaries l =
      sortDistinct ((l.map (·.range)).flatMap fun r => [r.low, r.high]) := by
    rw [List.flatMap_map, boundaries]
  rw [hrange, hrange, h]

/-- A piecewise function stays within a bound if its payloads do on every part of the interval. -/
theorem Within.of_payloads {zeros' : Prop} {ss ts : List (Segment Exact (Fn Exact))}
    (h : (Fn.piecewise ss).Within b zeros i) (hi : i.isValid = true)
    (hall : List.Forall₂ (fun s t => s.range = t.range ∧ ∀ part : Interval Exact,
      part.isValid = true → part.points ⊆ i.points → s.payload.Within b zeros part →
        t.payload.Within b zeros' part) ss ts) : (Fn.piecewise ts).Within b zeros' i := by
  have hranges : ss.map (·.range) = ts.map (·.range) := by
    rw [← List.forall₂_eq_eq_eq, List.forall₂_map_left_iff, List.forall₂_map_right_iff]
    exact hall.imp fun s t h => h.1
  cases h with
  | value hv => cases hv
  | outside hd hc h => exact .outside (hull?_congr hranges ▸ hd) hc h
  | piecewise hv hd hc hb hs =>
    refine .piecewise (fun t ht => ?_) (hull?_congr hranges ▸ hd) hc
      (boundaries_congr hranges ▸ hb) fun piece hpiece => ?_
    · obtain ⟨s, hs, hrange, -⟩ := exists_mem_of_forall₂ hall ht
      exact hrange ▸ hv s hs
    · obtain ⟨t, ht, hpart, hpayload⟩ := mem_pieces.1 hpiece
      obtain ⟨s, hmem, hrange, hst⟩ := exists_mem_of_forall₂ hall ht
      have hpiece' : ⟨piece.range, s.payload⟩ ∈ pieces ss i :=
        mem_pieces.2 ⟨s, hmem, hrange ▸ hpart, rfl⟩
      obtain ⟨hpv, hsub⟩ := pieces_subset hv hi hpiece'
      exact hpayload ▸ hst piece.range hpv hsub (hs _ hpiece')

/-- Which constants are canonical does not matter for knots. -/
theorem Within.congr (h : f.Within b zeros i) (hi : i.isValid = true)
    (hg : f.forget = g.forget) : g.Within b zeros i := by
  induction f generalizing g i with
  | zero | one | const v =>
    cases h with
    | value hv hn => exact .value (value?_congr hg ▸ hv) hn
  | undefined => exact eq_undefined_of_forget hg ▸ h
  | plain k s =>
    obtain ⟨inner, rfl, hinner⟩ := exists_unary_of_forget hg
    obtain rfl : inner = none := by simpa using hinner.symm
    exact h
  | chain k s f ih =>
    obtain ⟨inner, rfl, hinner⟩ := exists_unary_of_forget hg
    obtain ⟨f', rfl, hf'⟩ := Option.map_eq_some_iff.1 hinner.symm
    cases h with
    | value hv => cases hv
    | vanishing hz => exact .vanishing hz
    | standard hs hn hk hc hf =>
      refine .standard hs hn hk (fun _ _ => hc f rfl) ?_
      simpa using ih (hf f rfl) hi hf'.symm
  | sum ts ih =>
    obtain ⟨us, rfl, hus⟩ := exists_sum_of_forget hg
    rw [within_sum_iff] at h ⊢
    intro u hu
    obtain ⟨t, ht, htu⟩ := exists_mem_of_forall₂ (map_forget_eq_iff.1 hus) hu
    exact ih t ht (h t ht) hi htu
  | product fs ih =>
    obtain ⟨gs, rfl, hgs⟩ := exists_product_of_forget hg
    rw [within_product_iff] at h ⊢
    intro g hg
    obtain ⟨f, hf, hfg⟩ := exists_mem_of_forall₂ (map_forget_eq_iff.1 hgs) hg
    exact ih f hf (h f hf) hi hfg
  | quotient n d ihn =>
    obtain ⟨n', d', rfl, hn', hd'⟩ := exists_quotient_of_forget hg
    cases h with
    | value hv => cases hv
    | pole hd h => exact .pole (value?_congr hd' ▸ hd) h
    | quotient hd h0 hv hn => exact .quotient (value?_congr hd' ▸ hd) h0 hv (ihn hn hi hn')
  | piecewise segments ih =>
    obtain ⟨ts, rfl, hts⟩ := exists_piecewise_of_forget hg
    refine h.of_payloads hi ((forall₂_and_of_forall_mem hts ih fun _ _ => trivial).imp ?_)
    rintro s t ⟨⟨hrange, hpayload⟩, ih, -⟩
    exact ⟨hrange, fun part hpv _ hs => ih hs hpv hpayload⟩

/-! ### Scaled functions -/

theorem within_ofValue {v : Exact} (h : b.AllowsNumber i v) : (ofValue v).Within b zeros i := by
  unfold ofValue
  split_ifs with h0 h1 hnan
  · exact .value rfl .zero
  · exact .value rfl .one
  · refine .undefined (h.resolve_left fun hreal => ?_)
    rw [Exact.isNaN_iff.1 hnan] at hreal
    exact hreal
  · exact .value rfl h

theorem AllowsNumbers.scale {k : Kernel Exact} {s t : Exact} (h : AllowsNumbers b i k s)
    (ht : b.AllowsNumber i t) : AllowsNumbers b i k t := by
  rcases h with ⟨-, hk⟩ | h
  · exact ht.imp_left fun ht => ⟨ht, hk⟩
  · exact .inr h

theorem AllowsNumbers.number {k : Kernel Exact} {s : Exact} (h : AllowsNumbers b i k s) :
    b.AllowsNumber i s := h.imp_left And.left

/-- What is asked of a standard function that does not vanish. -/
theorem within_unary_iff {k : Kernel Exact} {s : Exact} {inner : Option (Fn Exact)} :
    (unary k s inner).Within b False i ↔ s ≠ 0 ∧ AllowsNumbers b i k s ∧
      b.Allows (k.knotReport i) (k.knots i) ∧
        ∀ f ∈ inner, k.inheritsKnots = true ∧ f.Within b False i := by
  constructor
  · intro h
    cases h with
    | value hv => cases hv
    | vanishing h => exact h.elim
    | standard hs hn hk hc hf => exact ⟨hs, hn, hk, fun f hmem => ⟨hc f hmem, hf f hmem⟩⟩
  · rintro ⟨hs, hn, hk, hf⟩
    exact .standard hs hn hk (fun f hmem => (hf f hmem).1) fun f hmem => (hf f hmem).2

/-- Standard functions with scale zero vanish. -/
theorem Within.scaled {k : Kernel Exact} {s t : Exact} {inner : Option (Fn Exact)}
    (h : (unary k s inner).Within b False i) (ht : b.AllowsNumber i t) :
    (Fn.scaled k t inner).Within b (t = 0) i := by
  by_cases h0 : t = 0
  · rw [Fn.scaled, h0]
    exact .vanishing rfl
  · rw [Fn.scaled, Kernel.atScale_of_ne_zero h0]
    obtain ⟨-, hn, hk, hf⟩ := within_unary_iff.1 h
    exact (within_unary_iff.2 ⟨h0, hn.scale ht, hk, hf⟩).mono False.elim

theorem Within.value_allowed (h : f.Within b zeros i) {v : Exact} (hv : f.value? = some v) :
    b.AllowsNumber i v := by
  cases h with
  | value hw hn => exact Option.some.inj (hw.symm.trans hv) ▸ hn
  | _ => cases hv

/-- Functions within a bound stay there if they are multiplied. -/
theorem Within.scaleBy {c : Exact} (h : f.Within b False i) (hi : i.isValid = true)
    (hc : b.AllowsNumber i c) : (f.scaleBy c).Within b False i := by
  refine scaleBy_induct (motive := fun f g => ∀ i : Interval Exact, i.isValid = true →
    b.AllowsNumber i c → f.Within b False i → g.Within b False i) c
    (fun f _ _ _ h => h) (fun f i _ _ _ => .value rfl .zero) (fun f v hv i _ hc h => ?_)
    (fun h0 k s inner i _ hc h => ?_) (fun ts ih i hi hc h => ?_) (fun f fs ih i hi hc h => ?_)
    (fun n d ih i hi hc h => ?_) (fun segments ih i hi hc h => ?_) f i hi hc h
  · exact within_ofValue ((h.value_allowed hv).mul hc)
  · obtain ⟨hs0, hn, -⟩ := within_unary_iff.1 h
    have hsc : s * c ≠ 0 := Exact.mul_ne_zero hs0 (Exact.beq_zero_eq_false_iff.1 h0)
    exact (h.scaled (hn.number.mul hc)).mono hsc
  · rw [within_sum_iff] at h ⊢
    exact List.forall_mem_map.2 fun t ht => ih t ht i hi hc (h t ht)
  · rw [within_product_iff, List.forall_mem_cons] at h ⊢
    exact ⟨ih i hi hc h.1, h.2⟩
  · cases h with
    | value hv => cases hv
    | pole hd h => exact .pole hd h
    | quotient hd h0 hv hn => exact .quotient hd h0 hv (ih i hi hc hn)
  · refine h.of_payloads hi ?_
    rw [List.forall₂_map_right_iff, List.forall₂_same]
    exact fun s hs => ⟨rfl, fun part hpv hsub h => ih s hs part hpv (hc.mono hi hpv hsub) h⟩

/-- The leading coefficient is a number that the bound allows. -/
theorem Within.scale (h : f.Within b False i) : b.AllowsNumber i f.scale := by
  induction f with
  | zero => exact .zero
  | one => exact .one
  | const v => exact h.value_allowed rfl
  | plain k s | chain k s f => exact (within_unary_iff.1 h).2.1.number
  | quotient n d ihn =>
    cases h with
    | value hv => cases hv
    | pole hd h => exact .inr h
    | quotient hd h0 hv hn => exact ihn hn
  | undefined | sum | product | piecewise => exact .one

/-- Functions within a bound stay there with another leading coefficient. If it is zero, they may
vanish. -/
theorem Within.withScale {c : Exact} (h : f.Within b False i) (hi : i.isValid = true)
    (hc : b.AllowsNumber i c) : (f.withScale c).Within b (c = 0) i := by
  refine withScale_induct (motive := fun f g => f.Within b False i → g.Within b (c = 0) i) c
    (fun f h => h.mono False.elim) (fun f v _ _ => within_ofValue hc)
    (fun k s inner h => h.scaled hc) (fun n d ih h => ?_) (fun f h => ?_) f h
  · cases h with
    | value hv => cases hv
    | pole hd h => exact .pole hd h
    | quotient hd h0 hv hn => exact .quotient hd h0 hv (ih hn)
  · exact (h.scaleBy hi (hc.div .one (by simp [Exact.one_eq]))).mono False.elim

theorem Within.unit (h : f.Within b False i) (hi : i.isValid = true) : f.unit.Within b False i := by
  unfold Fn.unit
  split_ifs
  · exact h
  · exact (h.withScale hi .one).mono (by simp [Exact.one_eq])

end Fn

end FunctionAlgebra
