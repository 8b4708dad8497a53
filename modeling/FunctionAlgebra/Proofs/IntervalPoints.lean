import FunctionAlgebra.Fn.Piecewise
import FunctionAlgebra.Interval.Checked
import FunctionAlgebra.Proofs.Comparison
import FunctionAlgebra.Proofs.Line

/-!
# Intervals as sets of points

What is told by the bounds of intervals is what their points say: whether there are any, which are
common to two intervals, and which lie between them.

## Main definitions

* `Interval.points` — the points of the extended line in an interval.
* `Interval.Before` — all points of one interval lie before those of another.
* `Interval.Adjoins` — one interval begins where another ends.

## Main statements

* `Interval.disjoint_iff` — intervals are disjoint if they have no point in common.
* `Interval.inter?_eq_some` — the common part of two intervals has their common points.
* `Interval.covers_iff` — an interval covers another one if it has all its points.
* `Interval.before_of_compare` — of two disjoint intervals the one that is sorted first lies before
  the other.
* `Interval.gap?_eq_some`, `Interval.gap?_eq_none` — the gap between two intervals adjoins both of
  them, and there is none if they adjoin each other.
* `Segment.operations_agree_with_points` — the operations on segments, the checked ones included,
  are those on sets of points.
-/

namespace FunctionAlgebra

open LineScalar (toEReal lt_eq beq_eq)

variable {α : Type} [Scalar α] [LineScalar α] {i j k : Interval α} {p q : EReal}

namespace Interval

def StartsBefore (i : Interval α) (p : EReal) : Prop :=
  toEReal i.low < p ∨ i.lowClosed = true ∧ toEReal i.low = p

def EndsAfter (i : Interval α) (p : EReal) : Prop :=
  p < toEReal i.high ∨ i.highClosed = true ∧ p = toEReal i.high

def points (i : Interval α) : Set EReal := {p | i.StartsBefore p ∧ i.EndsAfter p}

theorem mem_points : p ∈ i.points ↔ i.StartsBefore p ∧ i.EndsAfter p := Iff.rfl

theorem StartsBefore.mono (h : i.StartsBefore p) (hpq : p ≤ q) : i.StartsBefore q := by
  unfold StartsBefore at *
  grind

theorem low_le_of_mem (h : p ∈ i.points) : toEReal i.low ≤ p := by
  obtain ⟨h | ⟨-, h⟩, -⟩ := h
  exacts [h.le, h.le]

theorem le_high_of_mem (h : p ∈ i.points) : p ≤ toEReal i.high := by
  obtain ⟨-, h | ⟨-, h⟩⟩ := h
  exacts [h.le, h.le]

/-! ## Valid intervals -/

theorem isValid_iff : i.isValid = true ↔ i.IsProper ∧
    (toEReal i.low < toEReal i.high ∨
      toEReal i.low = toEReal i.high ∧ i.lowClosed = true ∧ i.highClosed = true) := by
  simp only [isValid, Bool.or_eq_true, Bool.and_eq_true, LineScalar.lt_iff,
    LineScalar.beq_iff_toEReal, IsProper]
  grind

theorem isProper_of_isValid (h : i.isValid = true) : i.IsProper := (isValid_iff.1 h).1

/-- Checked bounds make valid intervals, and all of them. -/
theorem make_eq_ok_iff {low high : α} {lowClosed highClosed : Bool} :
    make low lowClosed high highClosed = .ok i ↔
      i = ⟨low, lowClosed, high, highClosed⟩ ∧ i.isValid = true := by
  unfold make
  split_ifs with hnan hreversed hopen
  · refine iff_of_false (by simp) ?_
    rintro ⟨rfl, h⟩
    simp_all [isValid_iff, IsProper]
  all_goals
    obtain ⟨hl, hh⟩ : Scalar.isNaN low = false ∧ Scalar.isNaN high = false := by simpa using hnan
    simp only [lt_eq hh hl, decide_eq_true_eq, not_lt] at hreversed
  · refine iff_of_false (by simp) ?_
    rintro ⟨rfl, h⟩
    have := (isValid_iff.1 h).2
    grind
  all_goals simp only [beq_eq hl hh] at hopen
  · refine iff_of_false (by simp) ?_
    rintro ⟨rfl, h⟩
    have := (isValid_iff.1 h).2
    grind
  · rw [Except.ok.injEq, eq_comm, iff_self_and]
    rintro rfl
    refine isValid_iff.2 ⟨⟨hl, hh⟩, ?_⟩
    grind

theorem points_nonempty (h : i.isValid = true) : i.points.Nonempty := by
  obtain ⟨-, h | ⟨h, hl, hh⟩⟩ := isValid_iff.1 h
  · obtain ⟨p, hp⟩ := exists_between h
    exact ⟨p, .inl hp.1, .inl hp.2⟩
  · exact ⟨toEReal i.low, .inr ⟨hl, rfl⟩, .inr ⟨hh, h⟩⟩

theorem contains_iff (hi : i.IsProper) {x : α} (hx : Scalar.isNaN x = false) :
    i.contains x = true ↔ toEReal x ∈ i.points := by
  simp only [contains, lt_eq hx hi.1, lt_eq hi.2 hx, beq_eq hx hi.1, beq_eq hx hi.2, mem_points,
    StartsBefore, EndsAfter]
  simp
  grind

theorem low_le_high (h : i.isValid = true) : toEReal i.low ≤ toEReal i.high := by
  obtain ⟨p, hp⟩ := points_nonempty h
  exact (low_le_of_mem hp).trans (le_high_of_mem hp)

/-! ## Common points -/

theorem disjoint_eq_true_iff (hi : i.IsProper) (hj : j.IsProper) : i.disjoint j = true ↔
    toEReal i.high < toEReal j.low ∨ toEReal j.high < toEReal i.low ∨
      toEReal i.high = toEReal j.low ∧ ¬ (i.highClosed = true ∧ j.lowClosed = true) ∨
      toEReal i.high ≠ toEReal j.low ∧ toEReal i.low = toEReal j.high ∧
        ¬ (i.lowClosed = true ∧ j.highClosed = true) := by
  simp only [disjoint, lt_eq hi.2 hj.1, lt_eq hj.2 hi.1, beq_eq hi.2 hj.1, beq_eq hi.1 hj.2]
  simp
  grind

theorem startsBefore_tighterLow (hi : i.IsProper) (hj : j.IsProper) {high : α} {closed : Bool} :
    StartsBefore ⟨(i.tighterLow j).1, (i.tighterLow j).2, high, closed⟩ p ↔
      i.StartsBefore p ∧ j.StartsBefore p := by
  simp only [tighterLow, lt_eq hj.1 hi.1, lt_eq hi.1 hj.1, decide_eq_true_eq, StartsBefore]
  split_ifs
  · grind
  · grind
  · grind

theorem endsAfter_tighterHigh (hi : i.IsProper) (hj : j.IsProper) {low : α} {closed : Bool} :
    EndsAfter ⟨low, closed, (i.tighterHigh j).1, (i.tighterHigh j).2⟩ p ↔
      i.EndsAfter p ∧ j.EndsAfter p := by
  simp only [tighterHigh, lt_eq hj.2 hi.2, lt_eq hi.2 hj.2, decide_eq_true_eq, EndsAfter]
  split_ifs
  · grind
  · grind
  · grind

/-- A point lies between the ends of the common part if it lies between the ends of both. -/
theorem between_inter? (hi : i.IsProper) (hj : j.IsProper) (h : i.inter? j = some k) :
    (toEReal k.low < p ↔ toEReal i.low < p ∧ toEReal j.low < p) ∧
      (p < toEReal k.high ↔ p < toEReal i.high ∧ p < toEReal j.high) := by
  unfold inter? at h
  split_ifs at h
  obtain rfl := Option.some.inj h
  simp only [tighterLow, tighterHigh, lt_eq hj.1 hi.1, lt_eq hi.1 hj.1, lt_eq hj.2 hi.2,
    lt_eq hi.2 hj.2, decide_eq_true_eq]
  constructor
  · split_ifs <;> grind
  · split_ifs <;> grind

/-- The common part of two intervals is valid and has their common points. -/
theorem inter?_eq_some (hi : i.isValid = true) (hj : j.isValid = true)
    (h : i.inter? j = some k) : k.isValid = true ∧ k.points = i.points ∩ j.points := by
  obtain ⟨hip, hi⟩ := isValid_iff.1 hi
  obtain ⟨hjp, hj⟩ := isValid_iff.1 hj
  unfold inter? at h
  split_ifs at h with hd
  obtain rfl := Option.some.inj h
  constructor
  · rw [disjoint_eq_true_iff hip hjp] at hd
    rw [isValid_iff]
    simp only [IsProper, tighterLow, tighterHigh, lt_eq hjp.1 hip.1, lt_eq hip.1 hjp.1,
      lt_eq hjp.2 hip.2, lt_eq hip.2 hjp.2, decide_eq_true_eq]
    constructor
    · constructor
      · split_ifs
        exacts [hip.1, hjp.1, hip.1]
      · split_ifs
        exacts [hip.2, hjp.2, hip.2]
    · split_ifs <;> grind
  · ext p
    simp only [Set.mem_inter_iff, mem_points, startsBefore_tighterLow hip hjp,
      endsAfter_tighterHigh hip hjp]
    grind

/-- Intervals are disjoint if they have no common point. -/
theorem disjoint_iff (hi : i.isValid = true) (hj : j.isValid = true) :
    i.disjoint j = true ↔ Disjoint i.points j.points := by
  constructor
  · intro h
    rw [disjoint_eq_true_iff (isProper_of_isValid hi) (isProper_of_isValid hj)] at h
    refine Set.disjoint_left.2 fun p hpi hpj => ?_
    simp only [mem_points, StartsBefore, EndsAfter] at hpi hpj
    grind
  · intro h
    by_contra hd
    obtain ⟨hk, hpoints⟩ := inter?_eq_some hi hj (if_neg hd)
    obtain ⟨p, hp⟩ := points_nonempty hk
    rw [hpoints] at hp
    exact Set.disjoint_left.1 h hp.1 hp.2

/-- Intervals with a common point have a common part. -/
theorem exists_inter? (hi : i.isValid = true) (hj : j.isValid = true) (hpi : p ∈ i.points)
    (hpj : p ∈ j.points) : ∃ k, i.inter? j = some k := by
  refine ⟨_, if_neg fun hd => ?_⟩
  exact Set.disjoint_left.1 ((disjoint_iff hi hj).1 hd) hpi hpj

/-! ## Inclusion -/

theorem covers_eq_true_iff (hi : i.IsProper) (hj : j.IsProper) : i.covers j = true ↔
    (toEReal i.low ≤ toEReal j.low ∧ toEReal j.high ≤ toEReal i.high) ∧
      (toEReal j.low = toEReal i.low → j.lowClosed = true → i.lowClosed = true) ∧
      (toEReal j.high = toEReal i.high → j.highClosed = true → i.highClosed = true) := by
  simp only [covers, lt_eq hj.1 hi.1, lt_eq hi.2 hj.2, beq_eq hj.1 hi.1, beq_eq hj.2 hi.2]
  simp
  grind

/-- An interval that is covered, as told by the bounds, lies inside with all its points. -/
theorem points_subset_of_covers (hi : i.IsProper) (hj : j.IsProper) (h : i.covers j = true) :
    j.points ⊆ i.points := by
  rw [covers_eq_true_iff hi hj] at h
  intro p hp
  simp only [mem_points, StartsBefore, EndsAfter] at hp ⊢
  grind

theorem low_mem_points (hi : i.isValid = true) (h : i.lowClosed = true) :
    toEReal i.low ∈ i.points := by
  obtain ⟨-, hi⟩ := isValid_iff.1 hi
  exact ⟨.inr ⟨h, rfl⟩, hi.imp id fun hpoint => ⟨hpoint.2.2, hpoint.1⟩⟩

theorem high_mem_points (hi : i.isValid = true) (h : i.highClosed = true) :
    toEReal i.high ∈ i.points := by
  obtain ⟨-, hi⟩ := isValid_iff.1 hi
  exact ⟨hi.imp id fun hpoint => ⟨hpoint.2.1, hpoint.1⟩, .inr ⟨h, rfl⟩⟩

theorem bounds_of_subset (hj : j.isValid = true) (h : j.points ⊆ i.points) :
    toEReal i.low ≤ toEReal j.low ∧ toEReal j.high ≤ toEReal i.high := by
  obtain ⟨p, hp⟩ := points_nonempty hj
  have hlow := low_le_of_mem (h hp)
  have hhigh := le_high_of_mem (h hp)
  constructor
  · by_contra hlt
    obtain ⟨q, hq, hqi⟩ := exists_between (not_le.1 hlt)
    have hend : q < toEReal j.high := hqi.trans_le (hlow.trans (le_high_of_mem hp))
    exact (low_le_of_mem (h ⟨.inl hq, .inl hend⟩)).not_gt hqi
  · by_contra hlt
    obtain ⟨q, hiq, hq⟩ := exists_between (not_le.1 hlt)
    have hstart : toEReal j.low < q := ((low_le_of_mem hp).trans hhigh).trans_lt hiq
    exact (le_high_of_mem (h ⟨.inl hstart, .inl hq⟩)).not_gt hiq

/-- An interval covers another one if it has all its points. -/
theorem covers_iff (hi : i.isValid = true) (hj : j.isValid = true) :
    i.covers j = true ↔ j.points ⊆ i.points := by
  have hip := isProper_of_isValid hi
  have hjp := isProper_of_isValid hj
  refine ⟨points_subset_of_covers hip hjp, fun h => (covers_eq_true_iff hip hjp).2 ?_⟩
  refine ⟨bounds_of_subset hj h, fun heq hclosed => ?_, fun heq hclosed => ?_⟩
  · obtain ⟨hlt | ⟨hi, -⟩, -⟩ := h (low_mem_points hj hclosed)
    · exact absurd heq.symm hlt.ne
    · exact hi
  · obtain ⟨-, hlt | ⟨hi, -⟩⟩ := h (high_mem_points hj hclosed)
    · exact absurd heq hlt.ne
    · exact hi

/-! ## Single points -/

theorem points_point (x : α) : (point x).points = {toEReal x} := by
  ext p
  simp only [mem_points, StartsBefore, EndsAfter, point, closed, Set.mem_singleton_iff]
  grind

theorem isValid_point {x : α} (hx : Scalar.isNaN x = false) : (point x).isValid = true :=
  isValid_iff.2 ⟨⟨hx, hx⟩, .inr ⟨rfl, rfl, rfl⟩⟩

theorem points_eq_singleton_iff (hi : i.isValid = true) :
    i.points = {p} ↔ toEReal i.low = p ∧ toEReal i.high = p := by
  constructor
  · intro h
    have hp : p ∈ i.points := h ▸ rfl
    have hq : ∀ q ∈ i.points, q = p := fun q hq => by rwa [h] at hq
    obtain ⟨-, hlt | ⟨heq, hl, hh⟩⟩ := isValid_iff.1 hi
    · -- Between the bounds there would be two points.
      obtain ⟨q, hlq, hqh⟩ := exists_between hlt
      obtain ⟨r, hlr, hrq⟩ := exists_between hlq
      have hqp := hq q ⟨.inl hlq, .inl hqh⟩
      have hrp := hq r ⟨.inl hlr, .inl (hrq.trans hqh)⟩
      exact absurd (hrp.trans hqp.symm) hrq.ne
    · have hlow := hq _ (low_mem_points hi hl)
      exact ⟨hlow, heq ▸ hlow⟩
  · rintro ⟨hlow, hhigh⟩
    refine Set.Subset.antisymm (fun q hq => ?_) ?_
    · exact le_antisymm (hhigh ▸ le_high_of_mem hq) (hlow ▸ low_le_of_mem hq)
    · obtain ⟨q, hq⟩ := points_nonempty hi
      have : q = p := le_antisymm (hhigh ▸ le_high_of_mem hq) (hlow ▸ low_le_of_mem hq)
      rintro _ rfl
      exact this ▸ hq

/-! ## Intervals in order -/

def Before (i j : Interval α) : Prop := ∀ p ∈ i.points, ∀ q ∈ j.points, p < q

theorem Before.disjoint (h : i.Before j) : Disjoint i.points j.points :=
  Set.disjoint_left.2 fun p hi hj => (h p hi p hj).false

theorem Before.trans (hij : i.Before j) (hj : j.isValid = true) (hjk : j.Before k) :
    i.Before k := by
  intro p hp q hq
  obtain ⟨r, hr⟩ := points_nonempty hj
  exact (hij p hp r hr).trans (hjk r hr q hq)

theorem Before.mono {k l : Interval α} (h : i.Before j) (hk : k.points ⊆ i.points)
    (hl : l.points ⊆ j.points) : k.Before l := fun p hp q hq => h p (hk hp) q (hl hq)

/-- Behind an interval there are only points above its lower bound. -/
theorem Before.low_lt (h : i.Before j) (hi : i.isValid = true) (hp : p ∈ j.points) :
    toEReal i.low < p := by
  obtain ⟨q, hq⟩ := points_nonempty hi
  exact (low_le_of_mem hq).trans_lt (h q hq p hp)

theorem Before.lt_high (h : i.Before j) (hj : j.isValid = true) (hp : p ∈ i.points) :
    p < toEReal j.high := by
  obtain ⟨q, hq⟩ := points_nonempty hj
  exact (h p hp q hq).trans_le (le_high_of_mem hq)

theorem Before.asymm (hij : i.Before j) (hi : i.isValid = true) (hj : j.isValid = true) :
    ¬ j.Before i := by
  intro hji
  obtain ⟨p, hp⟩ := points_nonempty hi
  obtain ⟨q, hq⟩ := points_nonempty hj
  exact (hij p hp q hq).asymm (hji q hq p hp)

/-- An interval that is not sorted behind another does not start behind it. -/
theorem starts_of_compare (hi : i.IsProper) (hj : j.IsProper) (h : i.compare j ≠ .gt) :
    toEReal i.low < toEReal j.low ∨
      toEReal i.low = toEReal j.low ∧ (j.lowClosed = true → i.lowClosed = true) := by
  simp only [Interval.compare, Scalar.cmp, lt_eq hj.1 hi.1, lt_eq hi.1 hj.1,
    decide_eq_true_eq] at h
  rcases lt_trichotomy (toEReal i.low) (toEReal j.low) with hlt | heq | hgt
  · exact .inl hlt
  · refine .inr ⟨heq, fun hclosed => ?_⟩
    cases hopen : i.lowClosed with
    | true => rfl
    | false => simp [heq, hclosed, hopen, Ord.compare] at h
  · simp [hgt] at h

/-- Of two disjoint intervals, the one that is not sorted behind the other lies before it. -/
theorem before_of_compare (hi : i.isValid = true) (hj : j.isValid = true)
    (hd : i.disjoint j = true) (h : i.compare j ≠ .gt) : i.Before j := by
  obtain ⟨hip, hi⟩ := isValid_iff.1 hi
  obtain ⟨hjp, hj⟩ := isValid_iff.1 hj
  rw [disjoint_eq_true_iff hip hjp] at hd
  have hstart := starts_of_compare hip hjp h
  intro p hp q hq
  simp only [mem_points, StartsBefore, EndsAfter] at hp hq
  grind

/-- An interval that lies before another is sorted before it. -/
theorem Before.compare (h : i.Before j) (hi : i.isValid = true) (hj : j.isValid = true) :
    i.compare j = .lt := by
  have hd : j.disjoint i = true := (disjoint_iff hj hi).2 h.disjoint.symm
  by_contra hlt
  refine h.asymm hi hj (before_of_compare hj hi hd fun hgt => hlt ?_)
  rw [compare_swap j i, hgt]
  rfl

theorem Before.high_le_low (h : i.Before j) (hi : i.isValid = true) (hj : j.isValid = true) :
    toEReal i.high ≤ toEReal j.low := by
  have hcompare : i.compare j ≠ .gt := by simp [h.compare hi hj]
  have hd := (disjoint_iff hi hj).2 h.disjoint
  obtain ⟨hip, hi⟩ := isValid_iff.1 hi
  obtain ⟨hjp, hj⟩ := isValid_iff.1 hj
  rw [disjoint_eq_true_iff hip hjp] at hd
  have hstart := starts_of_compare hip hjp hcompare
  grind

/-! ## Neighbours -/

/-- The interval `j` begins where `i` ends: the common bound belongs to one of them. -/
structure Adjoins (i j : Interval α) : Prop where
  bound : toEReal i.high = toEReal j.low
  closed : i.highClosed = !j.lowClosed

theorem Adjoins.endsAfter_iff (h : i.Adjoins j) : i.EndsAfter p ↔ ¬ j.StartsBefore p := by
  have hbound := h.bound
  have hclosed := h.closed
  unfold EndsAfter StartsBefore
  grind

theorem Adjoins.before (h : i.Adjoins j) : i.Before j := by
  intro p hp q hq
  by_contra hle
  exact h.endsAfter_iff.1 hp.2 (hq.1.mono (not_lt.1 hle))

/-- There is no part between intervals that adjoin each other. -/
theorem Adjoins.gap? (h : i.Adjoins j) (hi : i.IsProper) (hj : j.IsProper) : i.gap? j = none := by
  rw [Interval.gap?, lt_eq hi.2 hj.1, beq_eq hi.2 hj.1, h.bound, h.closed]
  simp

/-- The part between two intervals adjoins both of them. -/
theorem gap?_eq_some (hi : i.isValid = true) (hj : j.isValid = true) (h : i.gap? j = some k) :
    k.isValid = true ∧ i.Adjoins k ∧ k.Adjoins j := by
  have hip := isProper_of_isValid hi
  have hjp := isProper_of_isValid hj
  unfold gap? at h
  rw [lt_eq hip.2 hjp.1, beq_eq hip.2 hjp.1] at h
  split_ifs at h with hlt htouch
  · obtain rfl := Option.some.inj h
    refine ⟨isValid_iff.2 ⟨⟨hip.2, hjp.1⟩, .inl (by simpa using hlt)⟩, ⟨rfl, ?_⟩, ⟨rfl, rfl⟩⟩
    simp
  · obtain rfl := Option.some.inj h
    simp only [Bool.and_eq_true, decide_eq_true_eq, Bool.not_eq_true', Bool.or_eq_false_iff]
      at htouch
    obtain ⟨hbound, hopen, hopen'⟩ := htouch
    exact ⟨isValid_iff.2 ⟨⟨hip.2, hjp.1⟩, .inr ⟨hbound, rfl, rfl⟩⟩, ⟨rfl, hopen⟩,
      ⟨rfl, by simp [hopen']⟩⟩

/-- Intervals in order with no part between them adjoin each other. -/
theorem gap?_eq_none (hi : i.isValid = true) (hj : j.isValid = true) (hij : i.Before j)
    (h : i.gap? j = none) : i.Adjoins j := by
  have hle := hij.high_le_low hi hj
  have hd := (disjoint_iff hi hj).2 hij.disjoint
  obtain ⟨hip, hi⟩ := isValid_iff.1 hi
  obtain ⟨hjp, hj⟩ := isValid_iff.1 hj
  rw [disjoint_eq_true_iff hip hjp] at hd
  unfold gap? at h
  rw [lt_eq hip.2 hjp.1, beq_eq hip.2 hjp.1] at h
  split_ifs at h with hlt htouch
  have hbound : toEReal i.high = toEReal j.low := by grind
  refine ⟨hbound, ?_⟩
  cases hclosed : i.highClosed <;> cases hclosed' : j.lowClosed <;> grind

end Interval

/-! ## Segments -/

namespace Segment

variable {β γ : Type} {s part : Segment α β}

omit [LineScalar α] in
theorem clip?_eq_none_iff : s.clip? i = none ↔ s.range.disjoint i = true := by
  unfold clip? Interval.inter?
  split_ifs with h <;> simp [h]

/-- The part of a segment has the payload of the segment. -/
theorem clip?_eq_some (hs : s.range.isValid = true) (hi : i.isValid = true)
    (h : s.clip? i = some part) : part.range.isValid = true ∧ part.payload = s.payload ∧
      part.range.points = s.range.points ∩ i.points := by
  obtain ⟨range, hrange, rfl⟩ := Option.map_eq_some_iff.1 h
  obtain ⟨hvalid, hpoints⟩ := Interval.inter?_eq_some hs hi hrange
  exact ⟨hvalid, rfl, hpoints⟩

/-- The bounds of the part of a segment pass the check. -/
theorem checkedClip_eq (hs : s.range.isValid = true) (hi : i.isValid = true) :
    s.checkedClip i = .ok (s.clip? i) := by
  unfold checkedClip
  split_ifs with hd
  · rw [clip?_eq_none_iff.2 hd]
  · have hinter : s.range.inter? i = some _ := if_neg hd
    have hvalid := (Interval.inter?_eq_some hs hi hinter).1
    simp only [Interval.make_eq_ok_iff.2 ⟨rfl, hvalid⟩, clip?, hinter]
    rfl

/-- Whether an interval has a point, covers another interval or is disjoint from it is what the
sets of points say. The common part with the payload of the first interval can be built whenever
the intervals are not disjoint, and has just the points of both. -/
theorem operations_agree_with_points {t : Segment α γ} (hs : s.range.isValid = true)
    (ht : t.range.isValid = true) :
    (∀ x : α, Scalar.isNaN x = false →
      (s.range.contains x = true ↔ toEReal x ∈ s.range.points)) ∧
    (s.range.covers t.range = true ↔ t.range.points ⊆ s.range.points) ∧
    (s.range.disjoint t.range = true ↔ Disjoint s.range.points t.range.points) ∧
    ∃ common, s.checkedClip t.range = .ok common ∧
      (common = none ↔ s.range.disjoint t.range = true) ∧
      ∀ part ∈ common, part.range.isValid = true ∧ part.payload = s.payload ∧
        part.range.points = s.range.points ∩ t.range.points ∧
        ∀ x : α, Scalar.isNaN x = false → (part.range.contains x = true ↔
          s.range.contains x = true ∧ t.range.contains x = true) := by
  have hsp := Interval.isProper_of_isValid hs
  have htp := Interval.isProper_of_isValid ht
  refine ⟨fun x hx => Interval.contains_iff hsp hx, Interval.covers_iff hs ht,
    Interval.disjoint_iff hs ht, s.clip? t.range, checkedClip_eq hs ht, clip?_eq_none_iff,
    fun part hpart => ?_⟩
  obtain ⟨hvalid, hpayload, hpoints⟩ := clip?_eq_some hs ht hpart
  refine ⟨hvalid, hpayload, hpoints, fun x hx => ?_⟩
  rw [Interval.contains_iff (Interval.isProper_of_isValid hvalid) hx, Interval.contains_iff hsp hx,
    Interval.contains_iff htp hx, hpoints, Set.mem_inter_iff]

/-- Two half-open intervals of doubles, none of which covers the other. -/
theorem operations_agree_with_points_half_open :
    let s : Segment Float String := ⟨⟨0, true, 2, false⟩, "first"⟩
    let t : Segment Float Unit := ⟨⟨1, false, 2, true⟩, ()⟩
    s.range.isValid = true ∧ t.range.isValid = true ∧ ¬ t.range.points ⊆ s.range.points ∧
      ∃ part, s.checkedClip t.range = .ok (some part) ∧ part.payload = "first" ∧
        part.range.points = s.range.points ∩ t.range.points := by
  intro s t
  have hs : s.range.isValid = true := by decide +kernel
  have ht : t.range.isValid = true := by decide +kernel
  have hcovers : s.range.covers t.range = false := by decide +kernel
  have hdisjoint : s.range.disjoint t.range = false := by decide +kernel
  obtain ⟨-, hsubset, -, common, hcommon, hnone, hpart⟩ := operations_agree_with_points hs ht
  obtain ⟨part, rfl⟩ : ∃ part, common = some part := by
    rw [← Option.ne_none_iff_exists', Ne, hnone, hdisjoint]
    exact Bool.false_ne_true
  obtain ⟨-, hpayload, hpoints, -⟩ := hpart part rfl
  refine ⟨hs, ht, ?_, part, hcommon, hpayload, hpoints⟩
  rw [← hsubset, hcovers]
  exact Bool.false_ne_true

end Segment

end FunctionAlgebra
