import FunctionAlgebra.Interval.Order
import FunctionAlgebra.Proofs.IntervalPoints
import FunctionAlgebra.Proofs.Sorting

/-!
# The order of segments

Intervals are compared by their bounds, the lower ones first. This is a total order of all
intervals, and where intervals have no point in common it is the order of their positions.

## Main statements

* `Interval.compare_eq_lt_iff` — of two disjoint intervals, the smaller one lies before the other.
* `Segment.orders_isProper` — segments are ordered by their ranges.
* `Segment.sort_pairwise_before` — sorted segments without common points lie one before the other.
* `Interval.compare_orders_by_position` — the laws of the order, and what it says about positions.
-/

namespace FunctionAlgebra

variable {α β : Type} [Scalar α] [LineScalar α]

theorem Interval.compare_eq_lt_iff {i j : Interval α} (hi : i.isValid = true)
    (hj : j.isValid = true) (hd : Disjoint i.points j.points) :
    i.compare j = .lt ↔ i.Before j := by
  constructor
  · intro hlt
    exact before_of_compare hi hj ((disjoint_iff hi hj).2 hd) (by simp [hlt])
  · intro hbefore
    exact hbefore.compare hi hj

namespace Segment

variable {s t : Segment α β} {segments : List (Segment α β)}

/-- Segments are ordered by their ranges. -/
theorem orders_isProper :
    Orders (less : Segment α β → Segment α β → Bool) fun s => s.range.IsProper :=
  orders_of_consistent (fun s t => Interval.compare_swap s.range t.range)
    Interval.compare_consistent

/-- Of two disjoint segments, the one that is not sorted behind the other lies before it. -/
theorem before_of_less (hs : s.range.isValid = true) (ht : t.range.isValid = true)
    (hd : s.range.disjoint t.range = true) (h : t.less s = false) : s.range.Before t.range := by
  refine Interval.before_of_compare hs ht hd fun hgt => ?_
  rw [less, Interval.compare_swap s.range, hgt] at h
  cases h

/-! ## Sorting -/

omit [LineScalar α] in
theorem sort_valid (hv : ∀ s ∈ segments, s.range.isValid = true) :
    ∀ s ∈ sort segments, s.range.isValid = true :=
  fun s hs => hv s ((sortStable_perm less segments).mem_iff.1 hs)

theorem sort_pairwise_less (hv : ∀ s ∈ segments, s.range.isValid = true) :
    (sort segments).Pairwise fun s t => t.less s = false :=
  (sortStable_ascending orders_isProper
    fun s hs => Interval.isProper_of_isValid (hv s hs)).pairwise

/-- Sorted segments without common points lie one before the other. -/
theorem sort_pairwise_before (hv : ∀ s ∈ segments, s.range.isValid = true)
    (hd : segments.Pairwise fun s t => Disjoint s.range.points t.range.points) :
    (sort segments).Pairwise fun s t => s.range.Before t.range := by
  have hvs := sort_valid hv
  have hds := ((sortStable_perm less segments).pairwise_iff fun h => Disjoint.symm h).2 hd
  refine List.Pairwise.imp_of_mem ?_ ((sort_pairwise_less hv).and hds)
  rintro s t hs ht ⟨hless, hdisjoint⟩
  exact before_of_less (hvs s hs) (hvs t ht)
    ((Interval.disjoint_iff (hvs s hs) (hvs t ht)).2 hdisjoint) hless

/-- Segments that lie one before the other have only one order. -/
theorem eq_of_perm_of_before {others : List (Segment α β)} (hperm : others.Perm segments)
    (hv : ∀ s ∈ segments, s.range.isValid = true)
    (h : others.Pairwise fun s t => s.range.Before t.range)
    (h' : segments.Pairwise fun s t => s.range.Before t.range) : others = segments := by
  refine List.Perm.eq_of_pairwise (fun s t hs ht hst hts => ?_) h h' hperm
  exact absurd hts (hst.asymm (hv s (hperm.mem_iff.1 hs)) (hv t ht))

/-- Segments that lie one before the other are sorted. -/
theorem sort_eq_of_before (hv : ∀ s ∈ segments, s.range.isValid = true)
    (h : segments.Pairwise fun s t => s.range.Before t.range) : sort segments = segments :=
  eq_of_perm_of_before (sortStable_perm _ _) hv
    (sort_pairwise_before hv (h.imp fun hst => hst.disjoint)) h

end Segment

namespace Interval

/-- Comparison totally orders intervals: it finds two of them equal if all their bounds agree, it
is reversed when they change places, and it is transitive, strictly so unless all are equal. Where
there are no common points it is the order of position, and sorting puts segments into this
order. -/
theorem compare_orders_by_position {i j k : Interval α} (hi : i.isValid = true)
    (hj : j.isValid = true) (hk : k.isValid = true) {segments : List (Segment α β)}
    (hv : ∀ s ∈ segments, s.range.isValid = true)
    (hd : segments.Pairwise fun s t => Disjoint s.range.points t.range.points) :
    (i.compare j = .eq ↔ (i.low == j.low) = true ∧ i.lowClosed = j.lowClosed ∧
      (i.high == j.high) = true ∧ i.highClosed = j.highClosed) ∧
    j.compare i = (i.compare j).swap ∧
    ((i.compare j).isLE = true → (j.compare k).isLE = true →
      (i.compare k).isLE = true ∧
      (i.compare k = .eq → i.compare j = .eq ∧ j.compare k = .eq)) ∧
    (Disjoint i.points j.points → (i.compare j = .lt ↔ i.Before j)) ∧
    (Segment.sort segments).Perm segments ∧
    (Segment.sort segments).Pairwise fun s t => s.range.Before t.range := by
  have hip := isProper_of_isValid hi
  have hjp := isProper_of_isValid hj
  have hconsistent := compare_consistent hip hjp (isProper_of_isValid hk)
  refine ⟨?_, compare_swap i j, fun hij hjk => ⟨hconsistent.isLE hij hjk, fun heq => ?_⟩,
    compare_eq_lt_iff hi hj, sortStable_perm _ _, Segment.sort_pairwise_before hv hd⟩
  · rw [compare_eq_iff hip hjp, beq_iff_bounds]
  · rw [hconsistent hij hjk] at heq
    exact Ordering.then_eq_eq.1 heq

/-- Three intervals of doubles around a common bound. The one in the middle is a single point. -/
theorem compare_orders_by_position_touching :
    let i : Interval Float := ⟨0, true, 1, false⟩
    let j : Interval Float := point 1
    let k : Interval Float := ⟨1, false, 2, true⟩
    let segments : List (Segment Float String) := [⟨k, "third"⟩, ⟨i, "first"⟩, ⟨j, "second"⟩]
    i.Before j ∧ (i.compare k).isLE = true ∧ (Segment.sort segments).Perm segments ∧
      (Segment.sort segments).Pairwise fun s t => s.range.Before t.range := by
  intro i j k segments
  have hi : i.isValid = true := by decide +kernel
  have hj : j.isValid = true := by decide +kernel
  have hk : k.isValid = true := by decide +kernel
  have hv : ∀ s ∈ segments, s.range.isValid = true := by decide +kernel
  have hd : segments.Pairwise fun s t => s.range.disjoint t.range = true := by decide +kernel
  obtain ⟨-, -, htrans, hbefore, hperm, hsorted⟩ := compare_orders_by_position hi hj hk hv
    (hd.imp_of_mem fun hs ht h => (disjoint_iff (hv _ hs) (hv _ ht)).1 h)
  have hij : i.disjoint j = true ∧ i.compare j = .lt := by decide +kernel
  have hjk : (j.compare k).isLE = true := by decide +kernel
  exact ⟨(hbefore ((disjoint_iff hi hj).1 hij.1)).1 hij.2,
    (htrans (by simp [hij.2]) hjk).1, hperm, hsorted⟩

end Interval

end FunctionAlgebra
