import FunctionAlgebra.Proofs.Attempt
import FunctionAlgebra.Proofs.WellFormed

/-!
# Irregular points of piecewise functions

Segments are scanned from left to right. An undefined segment is reported with its part inside the
interval, and the bound between two defined segments with the one point that it is. The reports are
in order, and no point is reported twice, with one exception: a defined segment that is a single
point has two bounds there, and both are reported if the neighbours are defined as well.

## Main definitions

* `Fn.FrontReport` — what is reported of one segment.
* `Fn.Scans` — the reports that a scan of segments yields.
* `Fn.IsLonePoint` — a point that is a segment, between defined segments.

## Main statements

* `Fn.scans_of_discontinuitiesIn` — the reports are those of a scan.
* `Fn.FrontReport.before`, `Fn.Scans.ordered` — the order of reports.
* `Fn.Scans.countP_contains` — the number of reports at a point.
* `Fn.discontinuities_report_points` — order, number and range of the reports.
-/

namespace FunctionAlgebra

open LineScalar (toEReal)

variable {α : Type} [Scalar α]

namespace Fn

/-! ## Scans -/

/-- What is reported of a segment, told from it and the one behind it: the part of an undefined
segment inside the interval, or the bound between two defined segments if it lies there. -/
inductive FrontReport (i : Interval α) (s : Segment α (Fn α)) :
    Option (Segment α (Fn α)) → Option (Segment α Discontinuity) → Prop where
  | gap {next part} (hs : s.payload.isUndefined = true) (hpart : s.range.inter? i = some part) :
    FrontReport i s next (some ⟨part, .gap⟩)
  | outside {next} (hs : s.payload.isUndefined = true) (hpart : s.range.inter? i = none) :
    FrontReport i s next none
  | bound {t kind} (hs : s.payload.isUndefined = false) (ht : t.payload.isUndefined = false)
    (hx : i.contains s.range.high = true) (hkind : kind = .knot ∨ kind = .jump) :
    FrontReport i s (some t) (some ⟨.point s.range.high, kind⟩)
  | silent {next} (hs : s.payload.isUndefined = false)
    (hnext : ∀ t ∈ next, t.payload.isUndefined = false → i.contains s.range.high = false) :
    FrontReport i s next none

inductive Scans (i : Interval α) :
    List (Segment α (Fn α)) → List (Segment α Discontinuity) → Prop where
  | nil : Scans i [] []
  | cons {s rest own ds} (hown : FrontReport i s rest.head? own) (later : Scans i rest ds) :
    Scans i (s :: rest) (own.toList ++ ds)

/-- The reports are those of a scan. -/
theorem scans_of_discontinuitiesIn {i : Interval α} {tolerance : α}
    {segments : List (Segment α (Fn α))} {ds : List (Segment α Discontinuity)}
    (h : discontinuitiesIn i tolerance segments = .ok ds) : Scans i segments ds := by
  induction segments generalizing ds with
  | nil =>
    obtain rfl := Except.ok.inj h
    exact .nil
  | cons s rest ih =>
    unfold discontinuitiesIn at h
    split_ifs at h with hs
    · obtain ⟨later, hlater, h⟩ := exceptBind_eq_ok_iff.1 h
      cases hpart : s.range.inter? i with
      | none =>
        rw [hpart] at h
        obtain rfl := Except.ok.inj h
        exact .cons (.outside hs hpart) (ih hlater)
      | some part =>
        rw [hpart] at h
        obtain rfl := Except.ok.inj h
        exact .cons (.gap hs hpart) (ih hlater)
    rw [Bool.not_eq_true] at hs
    cases rest with
    | nil =>
      obtain rfl := Except.ok.inj h
      exact .cons (.silent hs (by simp)) .nil
    | cons t rest =>
      dsimp only at h
      split_ifs at h with hnext
      · refine .cons (.silent hs fun u hu hdefined => ?_) (ih h)
        obtain rfl := Option.some.inj hu
        simpa [hdefined] using hnext
      · obtain ⟨a, -, h⟩ := exceptBind_eq_ok_iff.1 h
        obtain ⟨b, -, h⟩ := exceptBind_eq_ok_iff.1 h
        obtain ⟨later, hlater, h⟩ := exceptBind_eq_ok_iff.1 h
        obtain rfl := Except.ok.inj h
        obtain ⟨ht, hx⟩ : t.payload.isUndefined = false ∧ i.contains s.range.high = true := by
          simpa using hnext
        refine .cons (.bound hs ht hx ?_) (ih hlater)
        split_ifs <;> simp

def Reported (i : Interval α) (segments : List (Segment α (Fn α)))
    (d : Segment α Discontinuity) : Prop :=
  ∃ s rest, s :: rest <:+ segments ∧ FrontReport i s rest.head? (some d)

section Reports

variable {i : Interval α} {s t : Segment α (Fn α)} {segments rest : List (Segment α (Fn α))}
  {d e : Segment α Discontinuity} {ds : List (Segment α Discontinuity)} {part : Interval α}
  {p : EReal}

theorem Reported.cons (h : Reported i rest d) : Reported i (s :: rest) d := by
  obtain ⟨t, later, hsuffix, hown⟩ := h
  exact ⟨t, later, hsuffix.trans (List.suffix_cons s rest), hown⟩

theorem Scans.reported (h : Scans i segments ds) : ∀ d ∈ ds, Reported i segments d := by
  induction h with
  | nil => simp
  | @cons s rest own ds hown later ih =>
    intro d hd
    rcases List.mem_append.1 hd with hd | hd
    · obtain rfl : own = some d := Option.mem_toList.1 hd
      exact ⟨s, rest, List.suffix_rfl, hown⟩
    · exact (ih d hd).cons

/-- The scan asks every segment for a report. -/
theorem Scans.exists_own (h : Scans i segments ds) (hs : s :: rest <:+ segments) :
    ∃ own : Option (Segment α Discontinuity),
      FrontReport i s rest.head? own ∧ ∀ d ∈ own, d ∈ ds := by
  induction h with
  | nil => simp at hs
  | @cons t later own ds hown hlater ih =>
    rcases List.suffix_cons_iff.1 hs with heq | hs
    · obtain ⟨rfl, rfl⟩ := List.cons.inj heq
      exact ⟨own, hown, fun d hd => List.mem_append_left _ (Option.mem_toList.2 hd)⟩
    · obtain ⟨own, hown, hmem⟩ := ih hs
      exact ⟨own, hown, fun d hd => List.mem_append_right _ (hmem d hd)⟩

/-- Every undefined segment is reported as far as it lies in the interval. -/
theorem Scans.gap_mem (h : Scans i segments ds) (hmem : s ∈ segments)
    (hs : s.payload.isUndefined = true) (hpart : s.range.inter? i = some part) :
    ⟨part, .gap⟩ ∈ ds := by
  obtain ⟨init, rest, rfl⟩ := List.append_of_mem hmem
  obtain ⟨own, hown, hmem⟩ := h.exists_own (List.suffix_append init (s :: rest))
  generalize rest.head? = next at hown
  cases hown with
  | gap _ hpart' =>
    rw [hpart] at hpart'
    obtain rfl := Option.some.inj hpart'
    exact hmem _ rfl
  | outside _ hpart' =>
    rw [hpart] at hpart'
    cases hpart'
  | bound hs' => simp [hs] at hs'
  | silent hs' => simp [hs] at hs'

/-- Every bound between defined segments is reported if it lies in the interval. -/
theorem Scans.bound_mem (h : Scans i segments ds) (hst : s :: t :: rest <:+ segments)
    (hs : s.payload.isUndefined = false) (ht : t.payload.isUndefined = false)
    (hx : i.contains s.range.high = true) :
    ∃ d ∈ ds, d.range = .point s.range.high ∧ (d.payload = .knot ∨ d.payload = .jump) := by
  obtain ⟨own, hown, hmem⟩ := h.exists_own hst
  rw [List.head?_cons] at hown
  cases hown with
  | gap hs' => simp [hs] at hs'
  | outside hs' => simp [hs] at hs'
  | bound _ _ _ hkind => exact ⟨_, hmem _ rfl, rfl, hkind⟩
  | silent _ hnext => simp [hnext t rfl ht] at hx

variable [LineScalar α]

/-- Reports are valid intervals inside the interval. -/
theorem Reported.covered (h : Reported i segments d) (hi : i.isValid = true)
    (hv : ∀ s ∈ segments, s.range.isValid = true) :
    d.range.isValid = true ∧ d.range.points ⊆ i.points := by
  obtain ⟨s, rest, hsuffix, hown⟩ := h
  have hs := hv s (hsuffix.subset List.mem_cons_self)
  generalize rest.head? = next at hown
  cases hown with
  | gap _ hpart =>
    obtain ⟨hvalid, hpoints⟩ := Interval.inter?_eq_some hs hi hpart
    exact ⟨hvalid, hpoints ▸ Set.inter_subset_right⟩
  | bound _ _ hx _ =>
    have hhigh := (Interval.isProper_of_isValid hs).2
    refine ⟨Interval.isValid_point hhigh, ?_⟩
    rw [Interval.points_point, Set.singleton_subset_iff]
    exact (Interval.contains_iff (Interval.isProper_of_isValid hi) hhigh).1 hx

/-! ## Order -/

/-- A segment lies before what is reported of those behind it. -/
theorem Reported.behind (he : Reported i rest e) (hi : i.isValid = true)
    (h : Tiles (s :: rest)) : s.range.Before e.range := by
  obtain ⟨u, later, hsuffix, hown⟩ := he
  have hu : u ∈ rest := hsuffix.subset List.mem_cons_self
  have huv := h.valid u (List.mem_cons_of_mem s hu)
  have hbefore : s.range.Before u.range := List.rel_of_pairwise_cons h.pairwise_before hu
  generalize later.head? = next at hown
  cases hown with
  | gap _ hpart =>
    have hpoints := (Interval.inter?_eq_some huv hi hpart).2
    exact hbefore.mono subset_rfl (hpoints ▸ Set.inter_subset_left)
  | bound =>
    intro p hp q hq
    rw [Interval.points_point, Set.mem_singleton_iff] at hq
    exact hq ▸ hbefore.lt_high huv hp

/-- The point is a defined segment, and so are both neighbours of this segment. -/
def IsLonePoint (segments : List (Segment α (Fn α))) (p : EReal) : Prop :=
  ∃ r s t rest, r :: s :: t :: rest <:+ segments ∧ r.payload.isUndefined = false ∧
    s.payload.isUndefined = false ∧ t.payload.isUndefined = false ∧ s.range.points = {p}

theorem IsLonePoint.cons (h : IsLonePoint rest p) : IsLonePoint (s :: rest) p := by
  obtain ⟨r, t, u, later, hsuffix, hdefined⟩ := h
  exact ⟨r, t, u, later, hsuffix.trans (List.suffix_cons s rest), hdefined⟩

/-- A bound between defined segments lies before what is reported behind it, unless the second of
these segments is this point alone, and its upper bound is reported as well. -/
theorem Reported.behind_bound (he : Reported i (t :: rest) e) (hi : i.isValid = true)
    (h : Tiles (s :: t :: rest)) (hs : s.payload.isUndefined = false)
    (ht : t.payload.isUndefined = false) :
    (Interval.point s.range.high).Before e.range ∨
      e.range.points = {toEReal s.range.high} ∧
        IsLonePoint (s :: t :: rest) (toEReal s.range.high) := by
  have hbound : toEReal s.range.high = toEReal t.range.low :=
    (List.isChain_cons_cons.1 h.adjoins).1.bound
  have htv := h.valid t (by simp)
  have hrest : Tiles (t :: rest) := ⟨by simp, (List.forall_mem_cons.1 h.valid).2, h.adjoins.tail⟩
  have hpoint {j : Interval α} (hlt : ∀ q ∈ j.points, toEReal t.range.low < q) :
      (Interval.point s.range.high).Before j := by
    intro p hp q hq
    rw [Interval.points_point, Set.mem_singleton_iff] at hp
    exact hp ▸ hbound ▸ hlt q hq
  obtain ⟨u, later, hsuffix, hown⟩ := he
  rcases List.suffix_cons_iff.1 hsuffix with heq | hsuffix
  · obtain ⟨rfl, rfl⟩ := List.cons.inj heq
    cases later with
    | nil =>
      rw [List.head?_nil] at hown
      cases hown with
      | gap hu => simp [ht] at hu
    | cons v later =>
      rw [List.head?_cons] at hown
      cases hown with
      | gap hu => simp [ht] at hu
      | bound _ hv _ _ =>
        rw [Interval.points_point]
        rcases (Interval.low_le_high htv).lt_or_eq with hlt | heq
        · refine .inl (hpoint fun q hq => ?_)
          rw [Interval.points_point, Set.mem_singleton_iff] at hq
          exact hq ▸ hlt
        · refine .inr ⟨by rw [← heq, hbound], s, u, v, later, List.suffix_rfl, hs, ht, hv, ?_⟩
          exact (Interval.points_eq_singleton_iff htv).2 ⟨hbound.symm, by rw [← heq, hbound]⟩
  · have hbefore : t.range.Before e.range := Reported.behind ⟨u, later, hsuffix, hown⟩ hi hrest
    exact .inl (hpoint fun q hq => hbefore.low_lt htv hq)

/-- What is reported of a segment lies before what is reported of those behind it, unless both
reports are the bounds of a lone point. -/
theorem FrontReport.before (hown : FrontReport i s rest.head? (some d)) (he : Reported i rest e)
    (hi : i.isValid = true) (h : Tiles (s :: rest)) : d.range.Before e.range ∨
      ∃ p, IsLonePoint (s :: rest) p ∧ d.range.points = {p} ∧ e.range.points = {p} := by
  cases rest with
  | nil =>
    obtain ⟨u, later, hsuffix, -⟩ := he
    simp at hsuffix
  | cons t rest =>
    rw [List.head?_cons] at hown
    cases hown with
    | gap _ hpart =>
      have hpoints := (Interval.inter?_eq_some (h.valid s (by simp)) hi hpart).2
      exact .inl ((he.behind hi h).mono (hpoints ▸ Set.inter_subset_left) subset_rfl)
    | bound hs ht _ _ =>
      refine (he.behind_bound hi h hs ht).imp_right fun ⟨hpoints, hlone⟩ => ?_
      exact ⟨_, hlone, Interval.points_point _, hpoints⟩

/-- Reports are in order, except that a lone point is reported once more. -/
theorem Scans.ordered (h : Scans i segments ds) (hi : i.isValid = true)
    (hv : ∀ s ∈ segments, s.range.isValid = true)
    (hadjoins : segments.IsChain fun s t => s.range.Adjoins t.range) :
    ds.Pairwise fun d e => d.range.Before e.range ∨
      ∃ p, IsLonePoint segments p ∧ d.range.points = {p} ∧ e.range.points = {p} := by
  induction h with
  | nil => exact .nil
  | @cons s rest own ds hown later ih =>
    have htiles : Tiles (s :: rest) := ⟨by simp, hv, hadjoins⟩
    have hrest : ds.Pairwise fun d e => d.range.Before e.range ∨
        ∃ p, IsLonePoint (s :: rest) p ∧ d.range.points = {p} ∧ e.range.points = {p} := by
      refine (ih (List.forall_mem_cons.1 hv).2 hadjoins.tail).imp fun h => h.imp_right ?_
      rintro ⟨p, hlone, hpoints⟩
      exact ⟨p, hlone.cons, hpoints⟩
    cases own with
    | none => exact hrest
    | some d => exact hrest.cons fun e he => hown.before (later.reported e he) hi htiles

/-! ## Number of reports -/

section Count

variable {x : α} {own : Option (Segment α Discontinuity)}

/-- A lone point behind a segment is not on a bound of this segment. -/
theorem IsLonePoint.not_mem (h : IsLonePoint rest p) (htiles : Tiles (s :: rest))
    (hown : FrontReport i s rest.head? (some d)) (hi : i.isValid = true) : p ∉ d.range.points := by
  obtain ⟨r, u, t, later, hsuffix, -, -, -, hu⟩ := h
  have hpu : p ∈ u.range.points := hu ▸ rfl
  have humem : u ∈ rest := hsuffix.subset (by simp)
  intro hp
  cases rest with
  | nil => cases humem
  | cons v rest =>
    rw [List.head?_cons] at hown
    cases hown with
    | gap _ hpart =>
      have hpoints := (Interval.inter?_eq_some (htiles.valid s (by simp)) hi hpart).2
      have hsp : p ∈ s.range.points := (hpoints ▸ Set.inter_subset_left : _ ⊆ s.range.points) hp
      have hbefore : s.range.Before u.range :=
        List.rel_of_pairwise_cons htiles.pairwise_before humem
      exact (hbefore p hsp p hpu).false
    | bound =>
      -- The segment of the lone point is not the next one, which has the bound as its lower bound.
      have humem' : u ∈ rest := by
        have htail : u :: t :: later <:+ rest := by
          rcases List.suffix_cons_iff.1 hsuffix with heq | hsuffix
          · rw [← (List.cons.inj heq).2]
          · exact (List.suffix_cons r _).trans hsuffix
        exact htail.subset List.mem_cons_self
      have hrest := (List.pairwise_cons.1 htiles.pairwise_before).2
      have hbefore : v.range.Before u.range := List.rel_of_pairwise_cons hrest humem'
      have hbound := (List.isChain_cons_cons.1 htiles.adjoins).1.bound
      rw [Interval.points_point, Set.mem_singleton_iff] at hp
      have hlt := hbefore.low_lt (htiles.valid v (by simp)) hpu
      exact hlt.ne (hbound.symm.trans hp.symm)

/-- A lone point in the interval is on the bound of the segment before it. -/
theorem FrontReport.of_lone_next (hown : FrontReport i s (some t) own) (hip : i.IsProper)
    (hs : s.payload.isUndefined = false) (ht : t.payload.isUndefined = false)
    (hsv : s.range.isValid = true) (hp : toEReal s.range.high ∈ i.points) :
    ∃ d ∈ own, d.range = .point s.range.high := by
  have hcontains : i.contains s.range.high = true :=
    (Interval.contains_iff hip (Interval.isProper_of_isValid hsv).2).2 hp
  cases hown with
  | gap hs' => simp [hs] at hs'
  | outside hs' => simp [hs] at hs'
  | bound => exact ⟨_, rfl, rfl⟩
  | silent _ hnext => simp [hnext t rfl ht] at hcontains

/-- A lone point that is not reported of the first segment lies behind it. -/
theorem IsLonePoint.of_cons (h : IsLonePoint (s :: rest) p) (htiles : Tiles (s :: rest))
    (hown : FrontReport i s rest.head? own) (hip : i.IsProper) (hp : p ∈ i.points)
    (hnot : ∀ d ∈ own, p ∉ d.range.points) : IsLonePoint rest p := by
  obtain ⟨r, u, t, later, hsuffix, hr, hu, ht, hpoints⟩ := h
  rcases List.suffix_cons_iff.1 hsuffix with heq | hsuffix
  · obtain ⟨rfl, rfl⟩ := List.cons.inj heq
    have hbound := (List.isChain_cons_cons.1 htiles.adjoins).1.bound
    have hlow := ((Interval.points_eq_singleton_iff (htiles.valid u (by simp))).1 hpoints).1
    have hhigh : toEReal r.range.high = p := hbound.trans hlow
    obtain ⟨d, hd, hrange⟩ :=
      hown.of_lone_next hip hr hu (htiles.valid r (by simp)) (hhigh ▸ hp)
    refine absurd ?_ (hnot d hd)
    rw [hrange, Interval.points_point, hhigh]
    rfl
  · exact ⟨r, u, t, later, hsuffix, hr, hu, ht, hpoints⟩

/-- A point that is reported of the first segment is reported again if it is a lone point. -/
theorem Scans.reported_again_iff (later : Scans i rest ds)
    (hown : FrontReport i s rest.head? (some d)) (hi : i.isValid = true)
    (htiles : Tiles (s :: rest)) (hp : p ∈ d.range.points) (hpi : p ∈ i.points) :
    (∃ e ∈ ds, p ∈ e.range.points) ↔ IsLonePoint (s :: rest) p := by
  constructor
  · rintro ⟨e, he, hpe⟩
    rcases hown.before (later.reported e he) hi htiles with hbefore | ⟨q, hlone, hdq, -⟩
    · exact absurd (hbefore p hp p hpe) (lt_irrefl p)
    · rw [hdq, Set.mem_singleton_iff] at hp
      exact hp ▸ hlone
  · rintro ⟨r, u, t, rest', hsuffix, hr, hu, ht, hpoints⟩
    rcases List.suffix_cons_iff.1 hsuffix with heq | hsuffix
    · obtain ⟨rfl, rfl⟩ := List.cons.inj heq
      have huv := htiles.valid u (by simp)
      have hhigh := ((Interval.points_eq_singleton_iff huv).1 hpoints).2
      have hcontains : i.contains u.range.high = true :=
        (Interval.contains_iff (Interval.isProper_of_isValid hi)
          (Interval.isProper_of_isValid huv).2).2 (hhigh ▸ hpi)
      obtain ⟨e, he, hrange, -⟩ := later.bound_mem List.suffix_rfl hu ht hcontains
      refine ⟨e, he, ?_⟩
      rw [hrange, Interval.points_point, hhigh]
      rfl
    · have hlone : IsLonePoint rest p := ⟨r, u, t, rest', hsuffix, hr, hu, ht, hpoints⟩
      exact absurd hp (hlone.not_mem htiles hown hi)

/-- A number lies in two reports at most, and in two if it is a lone point in the interval. -/
theorem Scans.countP_contains (h : Scans i segments ds) (hi : i.isValid = true)
    (hv : ∀ s ∈ segments, s.range.isValid = true)
    (hadjoins : segments.IsChain fun s t => s.range.Adjoins t.range)
    (hx : Scalar.isNaN x = false) :
    ds.countP (·.range.contains x) ≤ 2 ∧
      (ds.countP (·.range.contains x) = 2 ↔
        i.contains x = true ∧ IsLonePoint segments (toEReal x)) := by
  have hip := Interval.isProper_of_isValid hi
  induction h with
  | nil =>
    refine ⟨by simp, iff_of_false (by simp) ?_⟩
    rintro ⟨-, r, s, t, rest, hsuffix, -⟩
    simp at hsuffix
  | @cons s rest own ds hown later ih =>
    have htiles : Tiles (s :: rest) := ⟨by simp, hv, hadjoins⟩
    have hrest := (List.forall_mem_cons.1 hv).2
    obtain ⟨hle, htwo⟩ := ih hrest hadjoins.tail
    have hcontains {d : Segment α Discontinuity} (hd : Reported i (s :: rest) d) :
        d.range.contains x = true ↔ toEReal x ∈ d.range.points :=
      Interval.contains_iff (Interval.isProper_of_isValid (hd.covered hi hv).1) hx
    -- Nothing is reported of the first segment at this number.
    have hskip (hnot : ∀ d ∈ own, toEReal x ∉ d.range.points) :
        i.contains x = true ∧ IsLonePoint rest (toEReal x) ↔
          i.contains x = true ∧ IsLonePoint (s :: rest) (toEReal x) := by
      refine and_congr_right fun hix => ⟨IsLonePoint.cons, fun hlone => ?_⟩
      exact hlone.of_cons htiles hown hip ((Interval.contains_iff hip hx).1 hix) hnot
    cases own with
    | none => exact ⟨hle, htwo.trans (hskip (by simp))⟩
    | some d =>
      have hd : Reported i (s :: rest) d := ⟨s, rest, List.suffix_rfl, hown⟩
      rw [Option.toList_some, List.singleton_append, List.countP_cons]
      by_cases hp : toEReal x ∈ d.range.points
      · have hpi := (hd.covered hi hv).2 hp
        have hix := (Interval.contains_iff hip hx).2 hpi
        have hlone : ¬ IsLonePoint rest (toEReal x) := fun h => h.not_mem htiles hown hi hp
        have hagain := later.reported_again_iff hown hi htiles hp hpi
        have hpos : 0 < ds.countP (·.range.contains x) ↔ IsLonePoint (s :: rest) (toEReal x) := by
          rw [List.countP_pos_iff, ← hagain]
          exact exists_congr fun e => and_congr_right fun he =>
            hcontains (later.reported e he).cons
        rw [if_pos ((hcontains hd).2 hp)]
        simp only [hix, true_and, hlone, iff_false] at htwo ⊢
        rw [← hpos]
        omega
      · rw [if_neg fun h => hp ((hcontains hd).1 h), add_zero]
        exact ⟨hle, htwo.trans (hskip (by simpa using hp))⟩

end Count

/-! ## Reports on an interval -/

/-- The reports of gaps have the points of undefined segments in the interval. -/
theorem Scans.gaps (h : Scans i segments ds) (hi : i.isValid = true)
    (hv : ∀ s ∈ segments, s.range.isValid = true) :
    (∃ d ∈ ds, d.payload = .gap ∧ p ∈ d.range.points) ↔
      p ∈ i.points ∧ ∃ s ∈ segments, s.payload.isUndefined = true ∧ p ∈ s.range.points := by
  constructor
  · rintro ⟨d, hd, hgap, hp⟩
    obtain ⟨s, rest, hsuffix, hown⟩ := h.reported d hd
    have hs : s ∈ segments := hsuffix.subset List.mem_cons_self
    generalize rest.head? = next at hown
    cases hown with
    | gap hu hpart =>
      rw [(Interval.inter?_eq_some (hv s hs) hi hpart).2] at hp
      exact ⟨hp.2, s, hs, hu, hp.1⟩
    | @bound t kind _ _ _ hkind =>
      obtain rfl : kind = .gap := hgap
      simp at hkind
  · rintro ⟨hpi, s, hs, hu, hps⟩
    obtain ⟨part, hpart⟩ := Interval.exists_inter? (hv s hs) hi hps hpi
    refine ⟨_, h.gap_mem hs hu hpart, rfl, ?_⟩
    rw [(Interval.inter?_eq_some (hv s hs) hi hpart).2]
    exact ⟨hps, hpi⟩

/-- The irregular points of a piecewise function are reported in order on an interval, by default on
the domain. All reports lie in the interval, those of gaps have the points of undefined segments
there, and each bound in it between two defined segments is among the others. No point is reported
twice, except that a lone point is reported once for each of the two bounds that it is. -/
theorem discontinuities_report_points {interval : Option (Interval α)} {tolerance : Option α}
    (hw : (piecewise segments).WellFormed) (hi : ∀ i ∈ interval, i.isValid = true)
    (h : (piecewise segments).discontinuities interval tolerance = .ok ds) :
    ∃ i, (interval <|> hull? segments) = some i ∧
      (ds.Pairwise fun d e => d.range.Before e.range ∨
        ∃ p, IsLonePoint segments p ∧ d.range.points = {p} ∧ e.range.points = {p}) ∧
      (∀ x, Scalar.isNaN x = false → ds.countP (·.range.contains x) ≤ 2 ∧
        (ds.countP (·.range.contains x) = 2 ↔
          i.contains x = true ∧ IsLonePoint segments (toEReal x))) ∧
      (∀ d ∈ ds, d.range.isValid = true ∧ i.covers d.range = true) ∧
      (∀ p, (∃ d ∈ ds, d.payload = .gap ∧ p ∈ d.range.points) ↔
        p ∈ i.points ∧ ∃ s ∈ segments, s.payload.isUndefined = true ∧ p ∈ s.range.points) ∧
      ∀ s t rest, s :: t :: rest <:+ segments → s.payload.isUndefined = false →
        t.payload.isUndefined = false → i.contains s.range.high = true →
        ∃ d ∈ ds, d.range = .point s.range.high ∧ (d.payload = .knot ∨ d.payload = .jump) := by
  have htiles : Tiles segments := by
    cases hw with
    | value hv => cases hv
    | piecewise htiles => exact htiles
  obtain ⟨domain, hdomain⟩ := htiles.exists_hull
  obtain ⟨i, hinterval, hi⟩ : ∃ i, (interval <|> hull? segments) = some i ∧ i.isValid = true := by
    cases interval with
    | some i => exact ⟨i, rfl, hi i rfl⟩
    | none => exact ⟨domain, hdomain, htiles.isValid_hull hdomain⟩
  have hscan : Scans i segments ds := by
    rw [discontinuities, hinterval] at h
    exact scans_of_discontinuitiesIn h
  refine ⟨i, hinterval, hscan.ordered hi htiles.valid htiles.adjoins,
    fun x hx => hscan.countP_contains hi htiles.valid htiles.adjoins hx, fun d hd => ?_,
    fun p => hscan.gaps hi htiles.valid, fun s t rest => hscan.bound_mem⟩
  obtain ⟨hvalid, hsubset⟩ := (hscan.reported d hd).covered hi htiles.valid
  exact ⟨hvalid, (Interval.covers_iff hi hvalid).2 hsubset⟩

end Reports

/-- One is a lone point, and the gap is cut by the interval. -/
theorem discontinuities_report_points_cut :
    let segments : List (Segment Float (Fn Float)) := [⟨⟨0, true, 1, false⟩, zero⟩,
      ⟨.point 1, one⟩, ⟨⟨1, false, 2, true⟩, zero⟩, ⟨⟨2, false, 4, false⟩, undefined⟩,
      ⟨⟨4, true, 5, true⟩, zero⟩]
    let i : Interval Float := .closed 0 3
    (piecewise segments).WellFormed ∧ i.isValid = true ∧
      ∃ ds, (piecewise segments).discontinuities (some i) none = .ok ds ∧
        ds.countP (·.range.contains 1) = 2 ∧ (∀ d ∈ ds, i.covers d.range = true) ∧
        ∃ d ∈ ds, d.payload = .gap ∧ toEReal (3 : Float) ∈ d.range.points := by
  intro segments i
  have hw : (piecewise segments).WellFormed := by
    refine .piecewise ⟨by simp [segments], by decide +kernel, ?_⟩ ?_
    · exact .cons_cons ⟨rfl, rfl⟩ <| .cons_cons ⟨rfl, rfl⟩ <| .cons_cons ⟨rfl, rfl⟩ <|
        .cons_cons ⟨rfl, rfl⟩ (.singleton _)
    · simpa [segments] using ⟨.value rfl, .value rfl, .value rfl, .undefined, .value rfl⟩
  have hi : i.isValid = true := by decide +kernel
  have hok : ((piecewise segments).discontinuities (some i) none).isOk = true := by decide +kernel
  obtain ⟨ds, hds⟩ : ∃ ds, (piecewise segments).discontinuities (some i) none = .ok ds := by
    cases h : (piecewise segments).discontinuities (some i) none with
    | ok ds => exact ⟨ds, rfl⟩
    | error e => simp [h, Except.isOk, Except.toBool] at hok
  obtain ⟨j, hj, -, hcount, hcovers, hgaps, -⟩ :=
    discontinuities_report_points hw (by simpa using hi) hds
  obtain rfl : i = j := Option.some.inj hj
  have hlone : IsLonePoint segments (toEReal (1 : Float)) :=
    ⟨_, _, _, _, List.suffix_rfl, rfl, rfl, rfl, Interval.points_point 1⟩
  refine ⟨hw, hi, ds, hds, (hcount 1 (by decide +kernel)).2.2 ⟨by decide +kernel, hlone⟩,
    fun d hd => (hcovers d hd).2, (hgaps _).2 ⟨?_, ⟨⟨2, false, 4, false⟩, undefined⟩, ?_, rfl, ?_⟩⟩
  · rw [← Interval.contains_iff (Interval.isProper_of_isValid hi) (by decide +kernel)]
    decide +kernel
  · simp [segments]
  · rw [← Interval.contains_iff ⟨by decide +kernel, by decide +kernel⟩ (by decide +kernel)]
    decide +kernel

/-- The bounds of a lone point are reported one by one. -/
theorem discontinuities_repeat_lone_point :
    let segments : List (Segment Float (Fn Float)) :=
      [⟨⟨0, true, 1, false⟩, zero⟩, ⟨.point 1, one⟩, ⟨⟨1, false, 2, true⟩, zero⟩]
    (piecewise segments).WellFormed ∧
      ∃ ds, (piecewise segments).discontinuities none none = .ok ds ∧
        ¬ ds.Pairwise fun d e => Disjoint d.range.points e.range.points := by
  intro segments
  refine ⟨.piecewise ⟨by simp [segments], by decide +kernel, ?_⟩ ?_,
    [⟨.point 1, .jump⟩, ⟨.point 1, .jump⟩], by with_unfolding_all rfl, ?_⟩
  · exact .cons_cons ⟨rfl, rfl⟩ <| .cons_cons ⟨rfl, rfl⟩ (.singleton _)
  · simpa [segments] using ⟨.value rfl, .value rfl, .value rfl⟩
  · simp [Interval.points_point]

end Fn

end FunctionAlgebra
