import FunctionAlgebra.Proofs.Galloping
import FunctionAlgebra.Proofs.Tiling
import FunctionAlgebra.Proofs.Value

/-!
# Segments are found

A point is looked for among the last two segments that begin at or before it. With tiles this finds
the segment which contains it: the segment behind begins no later than the point only if both share
that bound, and then the next but one begins later.

## Main statements

* `Tiles.startedBefore` — how many tiles begin at or before a point.
* `Tiles.visited?_eq_some` — the tile that contains a point is the one that is visited.
-/

namespace FunctionAlgebra

open LineScalar (toEReal lt_eq)

variable {α β : Type} [Scalar α] [LineScalar α] {segments : List (Segment α β)} {x : α} {k : Nat}
  {s : Segment α β}

namespace Tiles

theorem before_of_lt (h : Tiles segments) {i j : Nat} {s t : Segment α β}
    (hs : segments[i]? = some s)
    (ht : segments[j]? = some t) (hij : i < j) : s.range.Before t.range := by
  obtain ⟨hi, rfl⟩ := List.getElem?_eq_some_iff.1 hs
  obtain ⟨hj, rfl⟩ := List.getElem?_eq_some_iff.1 ht
  exact List.pairwise_iff_getElem.1 h.pairwise_before i j hi hj hij

theorem valid_getElem? (h : Tiles segments) (hs : segments[k]? = some s) :
    s.range.isValid = true :=
  h.valid s (List.mem_of_getElem? hs)

/-- Of the tiles behind one that contains a point, only the next may begin at the point. -/
theorem lt_low (h : Tiles segments) {t : Segment α β} {j : Nat} {p : EReal}
    (hs : segments[k]? = some s) (hp : p ∈ s.range.points) (ht : segments[j]? = some t)
    (hkj : k + 1 < j) : p < toEReal t.range.low := by
  obtain ⟨m, hm⟩ : ∃ m, segments[k + 1]? = some m := by
    have := (List.getElem?_eq_some_iff.1 ht).1
    exact ⟨_, List.getElem?_eq_getElem (by omega)⟩
  have hmv := h.valid_getElem? hm
  have hsm := h.before_of_lt hs hm (by omega)
  have hmt := h.before_of_lt hm ht hkj
  have hpm := (Interval.le_high_of_mem hp).trans (hsm.high_le_low (h.valid_getElem? hs) hmv)
  have hmlow := Interval.low_le_high hmv
  have hmhigh := hmt.high_le_low hmv (h.valid_getElem? ht)
  refine lt_of_le_of_ne (hpm.trans (hmlow.trans hmhigh)) fun heq => ?_
  -- the next tile would be the point itself, which is in the tile before
  have hmem : p ∈ m.range.points := by
    obtain ⟨-, hlt | ⟨-, hl, hh⟩⟩ := Interval.isValid_iff.1 hmv
    · exact absurd hlt (not_lt.2 (hmhigh.trans (heq ▸ hpm)))
    · exact ⟨.inr ⟨hl, (hmlow.trans (hmhigh.trans heq.ge)).antisymm hpm⟩,
        .inr ⟨hh, (hpm.trans hmlow).antisymm (hmhigh.trans heq.ge)⟩⟩
  exact (hsm p hp p hmem).false

/-- The tiles up to the one that contains a point begin at or before it, and perhaps one more. -/
theorem startedBefore_bounds (h : Tiles segments) (hx : Scalar.isNaN x = false)
    (hs : segments[k]? = some s) (hmem : toEReal x ∈ s.range.points) :
    k < startedBefore (segments.map (·.range)).toArray x ∧
      startedBefore (segments.map (·.range)).toArray x ≤ k + 2 := by
  set ranges := (segments.map (·.range)).toArray with hranges
  let behind (i : Nat) : Bool := ranges[i]?.any fun r => Scalar.lt x r.low
  have hbehind {i : Nat} {t : Segment α β} (ht : segments[i]? = some t) :
      behind i = decide (toEReal x < toEReal t.range.low) := by
    have htv := Interval.isProper_of_isValid (h.valid_getElem? ht)
    simp [behind, hranges, ht, lt_eq hx htv.1]
  have hsize : ranges.size = segments.length := by simp [hranges]
  have hget (i : Nat) (hi : i < ranges.size) : ∃ t, segments[i]? = some t :=
    ⟨_, List.getElem?_eq_getElem (by omega)⟩
  have hmono (i j) (_ : 0 ≤ i) (hij : i ≤ j) (hj : j < ranges.size) (hi : behind i = true) :
      behind j = true := by
    rcases hij.eq_or_lt with rfl | hij
    · exact hi
    obtain ⟨t, ht⟩ := hget i (by omega)
    obtain ⟨u, hu⟩ := hget j hj
    rw [hbehind ht, decide_eq_true_iff] at hi
    rw [hbehind hu, decide_eq_true_iff]
    have htv := h.valid_getElem? ht
    calc toEReal x < toEReal t.range.low := hi
      _ ≤ toEReal t.range.high := Interval.low_le_high htv
      _ ≤ toEReal u.range.low :=
        (h.before_of_lt ht hu hij).high_le_low htv (h.valid_getElem? hu)
  obtain ⟨hlow, hhigh⟩ := partitionPoint_spec behind 0 ranges.size hmono
  have hle := partitionPoint_le behind (Nat.zero_le ranges.size)
  change k < partitionPoint behind 0 ranges.size ∧ partitionPoint behind 0 ranges.size ≤ k + 2
  have hk := (List.getElem?_eq_some_iff.1 hs).1
  constructor
  · by_contra hn
    have := hhigh k (by omega) (by omega)
    rw [hbehind hs, decide_eq_true_iff] at this
    exact this.not_ge (Interval.low_le_of_mem hmem)
  · by_contra hn
    obtain ⟨t, ht⟩ := hget (k + 2) (by omega)
    have := hlow (k + 2) (by omega) (by omega)
    rw [hbehind ht, decide_eq_false_iff_not] at this
    exact this (h.lt_low hs hmem ht (by omega))

/-- The tile that contains a point is the one that is visited. -/
theorem visited?_eq_some (h : Tiles segments) (hx : Scalar.isNaN x = false)
    (hs : segments[k]? = some s) (hmem : toEReal x ∈ s.range.points) :
    visited? segments x = some k := by
  have hcontains {j : Nat} {t : Segment α β} (ht : segments[j]? = some t) :
      t.range.contains x = true ↔ toEReal x ∈ t.range.points :=
    Interval.contains_iff (Interval.isProper_of_isValid (h.valid_getElem? ht)) hx
  have hlocate : locate? (segments.map (·.range)).toArray x = some k := by
    obtain ⟨hlow, hhigh⟩ := h.startedBefore_bounds hx hs hmem
    rw [locate?]
    cases hfind : List.find? _ _ with
    | none =>
      have := List.find?_eq_none.1 hfind k (by simp; omega)
      simp [hs, (hcontains hs).2 hmem] at this
    | some j =>
      have hj := List.find?_some hfind
      cases ht : segments[j]? with
      | none => simp [ht] at hj
      | some t =>
        have hmem' := (hcontains ht).1 (by simpa [ht] using hj)
        rcases lt_trichotomy j k with hlt | rfl | hlt
        · exact absurd (h.before_of_lt ht hs hlt _ hmem' _ hmem) (lt_irrefl _)
        · rfl
        · exact absurd (h.before_of_lt hs ht hlt _ hmem _ hmem') (lt_irrefl _)
  obtain ⟨domain, hdomain⟩ := h.exists_hull
  obtain ⟨hproper, hle⟩ := h.le_hull hdomain
  obtain ⟨hlow, hhigh⟩ := hle s (List.mem_of_getElem? hs)
  rw [visited?, hdomain]
  dsimp only
  rw [lt_eq hx hproper.1, lt_eq hproper.2 hx, if_neg, hlocate]
  simpa using ⟨hlow.trans (Interval.low_le_of_mem hmem), (Interval.le_high_of_mem hmem).trans hhigh⟩

end Tiles

end FunctionAlgebra
