import FunctionAlgebra.Proofs.Indistinguishable
import FunctionAlgebra.Proofs.Scaling
import FunctionAlgebra.Proofs.SegmentLookup
import FunctionAlgebra.Proofs.WellFormed

/-!
# Interpolation

The piecewise linear function through points in exact arithmetic. Points may be given in any order
and more than once: what counts is the strictly ascending list of all of them.

## Main definitions

* `Fn.SingleValued` — no two points have the same `x` and different `y`.
* `Fn.Gathered` — the points of a list without repetitions, each `x` once.
* `Fn.Samples` — the strictly ascending list of the points in another list.
* `Fn.chord` — the value of the line through two points.

## Main statements

* `Fn.foldlM_insertPoint` — points are gathered if no two of them contradict each other.
* `Fn.interpolate_eq` — the function that is made depends only on the samples.
* `Fn.evaluate_chord` — between neighbouring samples the values are those of a line.
* `Constructor.piecewiseLinear_interpolates` — when a flat list of numbers makes a function, and
  which.
-/

namespace FunctionAlgebra

open Exact (real)
open scoped List

/-! ## Numbers as arguments -/

section Arguments

variable {β γ : Type}

theorem Fn.pairUp_map (f : β → γ) (values : List β) :
    pairUp (values.map f) = (pairUp values).map (Prod.map f f) := by
  induction values using pairUp.induct with
  | case1 x y rest ih => simp [pairUp, ih]
  | case2 values hshort =>
    match values with
    | [] => rfl
    | [x] => rfl
    | x :: y :: rest => exact (hshort x y rest rfl).elim

variable {α : Type} [Scalar α]

/-- Numbers as arguments of the constructor are the numbers of a flat list. -/
theorem Constructor.apply_piecewiseLinear (values : List α) :
    piecewiseLinear.apply (values.map .number) none = Fn.interpolateFlat values := by
  have hinsert (points : List (α × α)) (known : List (α × α)) :
      (points.map (Prod.map Argument.number Argument.number)).foldlM insertSample known =
        points.foldlM Fn.insertPoint known := by
    induction points generalizing known with
    | nil => rfl
    | cons p points ih =>
      rw [List.map_cons, List.foldlM_cons, List.foldlM_cons]
      exact bind_congr fun known => ih known
  rw [Fn.interpolateFlat]
  simp only [apply, Option.isSome_none, Bool.false_eq_true, if_false, Fn.samplePairs,
    List.length_map, Fn.pairUp_map]
  split_ifs
  · rfl
  · rfl
  · change interpolateArguments _ = Fn.interpolate _
    rw [interpolateArguments, hinsert]
    rfl

end Arguments

namespace Fn

/-! ## Points are gathered -/

noncomputable def exactPoint (p : ℝ × ℝ) : Exact × Exact := (real p.1, real p.2)

theorem exactPoint_injective : Function.Injective exactPoint := by
  intro p q h
  simp only [exactPoint, Prod.mk.injEq, Exact.real.injEq] at h
  exact Prod.ext h.1 h.2

def SingleValued (points : List (ℝ × ℝ)) : Prop :=
  ∀ p ∈ points, ∀ q ∈ points, p.1 = q.1 → p.2 = q.2

/-- The points of a list without repetitions, no two of them with the same `x`. -/
structure Gathered (points known : List (ℝ × ℝ)) : Prop where
  distinct : known.Pairwise fun p q => p.1 ≠ q.1
  mem_iff (p : ℝ × ℝ) : p ∈ known ↔ p ∈ points

variable {points known sorted : List (ℝ × ℝ)}

theorem SingleValued.mono {others : List (ℝ × ℝ)} (h : SingleValued others)
    (hsub : ∀ p ∈ points, p ∈ others) : SingleValued points :=
  fun p hp q hq => h p (hsub p hp) q (hsub q hq)

theorem Gathered.eq_of_fst (h : Gathered points known) {p q : ℝ × ℝ} (hp : p ∈ known)
    (hq : q ∈ known) (hpq : p.1 = q.1) : p = q := by
  by_contra hne
  have : Std.Symm fun p q : ℝ × ℝ => p.1 ≠ q.1 := ⟨fun _ _ h => h.symm⟩
  exact h.distinct.forall hp hq hne hpq

theorem Gathered.singleValued (h : Gathered points known) : SingleValued points := by
  intro p hp q hq hpq
  rw [h.eq_of_fst ((h.mem_iff p).2 hp) ((h.mem_iff q).2 hq) hpq]

/-- The outcome of gathering points: all of them, unless two contradict each other. -/
def Gathers (points : List (ℝ × ℝ)) (r : Except (Failure Exact) (List (Exact × Exact))) : Prop :=
  (∃ known, r = .ok (known.map exactPoint) ∧ Gathered points known) ∨
    (∃ x y z, r = .error (.contradiction x y z)) ∧ ¬ SingleValued points

/-- A point is added, or it is known already, or it contradicts a known one. -/
theorem insertPoint_gathers (h : Gathered points known) (p : ℝ × ℝ) :
    Gathers (points ++ [p]) (insertPoint (known.map exactPoint) (exactPoint p)) := by
  have hfind : (known.map exactPoint).find? (·.1 == real p.1) =
      (known.find? (·.1 = p.1)).map exactPoint := by
    rw [List.find?_map]
    rfl
  simp only [insertPoint, exactPoint, Exact.isFinite_real, Bool.and_self, Bool.not_true,
    Bool.false_eq_true, if_false, hfind]
  cases hq : known.find? (·.1 = p.1) with
  | none =>
    simp only [List.find?_eq_none, decide_eq_true_eq] at hq
    refine .inl ⟨known ++ [p], by simp [exactPoint], ?_, by simp [h.mem_iff]⟩
    refine List.pairwise_append.2 ⟨h.distinct, by simp, fun q hmem r hr => ?_⟩
    exact List.mem_singleton.1 hr ▸ hq q hmem
  | some q =>
    have hmem := List.mem_of_find?_eq_some hq
    have hfst : q.1 = p.1 := by simpa using List.find?_some hq
    simp only [Option.map_some, exactPoint, Exact.real_beq, decide_eq_true_eq]
    split_ifs with hsnd
    · obtain rfl : q = p := Prod.ext hfst hsnd
      refine .inl ⟨known, ?_, h.distinct, fun r => ?_⟩
      · rw [List.map_map]
        refine congrArg _ (List.map_congr_left fun r hr => ?_)
        simp only [Function.comp_apply, exactPoint, Exact.real_beq, decide_eq_true_eq]
        split_ifs with hrq
        · rw [h.eq_of_fst hr hmem hrq]
        · rfl
      · rw [h.mem_iff, List.mem_append, List.mem_singleton]
        exact ⟨.inl, fun hr => hr.elim id fun hr => hr ▸ (h.mem_iff q).1 hmem⟩
    · refine .inr ⟨⟨_, _, _, rfl⟩, fun hsingle => hsnd ?_⟩
      exact hsingle q (by simp [← h.mem_iff, hmem]) p (by simp) hfst

/-- Points are gathered one by one. -/
theorem foldlM_insertPoint (h : Gathered points known) (more : List (ℝ × ℝ)) :
    Gathers (points ++ more)
      ((more.map exactPoint).foldlM insertPoint (known.map exactPoint)) := by
  induction more generalizing points known with
  | nil => exact .inl ⟨known, rfl, by simpa using h⟩
  | cons p more ih =>
    rw [List.map_cons, List.foldlM_cons]
    rcases insertPoint_gathers h p with ⟨next, hnext, hgathered⟩ | ⟨⟨x, y, z, herror⟩, hnot⟩
    · rw [hnext]
      have hmore := ih hgathered
      rwa [List.append_assoc] at hmore
    · rw [herror]
      refine .inr ⟨⟨x, y, z, rfl⟩, fun hsingle => hnot (hsingle.mono fun q hq => ?_)⟩
      simp at hq ⊢
      grind

/-! ## Points are sorted -/

structure Samples (points sorted : List (ℝ × ℝ)) : Prop where
  ascending : sorted.Pairwise fun p q => p.1 < q.1
  mem_iff (p : ℝ × ℝ) : p ∈ sorted ↔ p ∈ points

/-- There is only one such list. -/
theorem Samples.unique {others : List (ℝ × ℝ)} (h : Samples points sorted)
    (g : Samples points others) : sorted = others := by
  have nodup {l : List (ℝ × ℝ)} (hl : l.Pairwise fun p q => p.1 < q.1) : l.Nodup :=
    hl.imp fun hlt heq => hlt.ne (congrArg Prod.fst heq)
  refine List.Perm.eq_of_pairwise (fun p q _ _ hpq hqp => absurd hqp hpq.asymm) h.ascending
    g.ascending ?_
  refine (List.perm_ext_iff_of_nodup (nodup h.ascending) (nodup g.ascending)).2 fun p => ?_
  rw [h.mem_iff, g.mem_iff]

/-- Gathered points are sorted into the samples. -/
theorem Gathered.exists_samples (h : Gathered points known) :
    ∃ sorted, Samples points sorted ∧
      sortStable pointBefore (known.map exactPoint) = sorted.map exactPoint := by
  have hperm := sortStable_perm pointBefore (known.map exactPoint)
  have hpoints : DistinctPoints (known.map exactPoint) := by
    refine ⟨List.forall_mem_map.2 fun p _ => ⟨rfl, rfl⟩,
      List.pairwise_map.2 (h.distinct.imp fun hne => ?_)⟩
    simpa [exactPoint] using hne
  obtain ⟨sorted, hsorted⟩ :
      sortStable pointBefore (known.map exactPoint) ∈ Set.range (List.map exactPoint) := by
    rw [Set.range_list_map]
    intro q hq
    obtain ⟨p, -, rfl⟩ := List.mem_map.1 (hperm.mem_iff.1 hq)
    exact ⟨p, rfl⟩
  refine ⟨sorted, ⟨?_, fun p => ?_⟩, hsorted.symm⟩
  · have hchain := hpoints.isChain_sort
    rw [← hsorted, List.isChain_map] at hchain
    have hlt : sorted.IsChain fun p q => p.1 < q.1 := hchain.imp fun p q hpq => by
      simpa [exactPoint] using hpq
    have : IsTrans (ℝ × ℝ) fun p q => p.1 < q.1 := ⟨fun _ _ _ => lt_trans⟩
    exact List.isChain_iff_pairwise.1 hlt
  · rw [← h.mem_iff, ← List.mem_map_of_injective exactPoint_injective (l := known),
      ← hperm.mem_iff, ← hsorted, List.mem_map_of_injective exactPoint_injective]

/-! ## Lines between samples -/

noncomputable def chord (p q : ℝ × ℝ) (x : ℝ) : ℝ := p.2 + (q.2 - p.2) * (x - p.1) / (q.1 - p.1)

theorem chord_left (p q : ℝ × ℝ) : chord p q p.1 = p.2 := by simp [chord]

theorem chord_right {p q : ℝ × ℝ} (h : p.1 < q.1) : chord p q q.1 = q.2 := by
  have : q.1 - p.1 ≠ 0 := sub_ne_zero.2 h.ne'
  rw [chord, mul_div_cancel_right₀ _ this]
  ring

/-- A number times the first power of an inner function. -/
theorem power_one_gives {inner : Option (Fn Exact)} {x : ℝ} (s : ℝ) (h : InnerDefinedAt x inner) :
    (power inner (real s) 1).Gives x (s * innerValue x inner) := by
  have hk : (Kernel.power 1).DefinedAt (innerValue x inner) :=
    ⟨trivial, fun _ => zero_le_one, fun _ => ⟨1, by simp⟩⟩
  refine scaled_gives ?_
  simpa [Kernel.value] using unary_gives s h hk

theorem Gives.weighted {f : Fn Exact} {x r : ℝ} (h : f.Gives x r) (s : ℝ) :
    (power (some f) (real s) 1).Gives x (s * r) := by
  rw [← h.value_eq]
  exact power_one_gives s (by simpa [InnerDefinedAt] using h.defined)

/-- A side of the weighted average: a multiple of `x` plus a number, over the width. -/
theorem side_gives {width : ℝ} (h : width ≠ 0) (s b x : ℝ) :
    (quotient (sum [power none (real s) 1, const (real b)]) (const (real width))).Gives x
      ((s * x + b) / width) := by
  have hx : (power none (real s) 1).Gives x (s * x) := power_one_gives s (by simp [InnerDefinedAt])
  exact (hx.add (const_gives b)).div (const_gives width) h

/-- A line takes the values of the chord. -/
theorem line_gives {p q : ℝ × ℝ} (h : p.1 < q.1) (x : ℝ) :
    (line (exactPoint p) (exactPoint q)).Gives x (chord p q x) := by
  have hwidth : q.1 - p.1 ≠ 0 := sub_ne_zero.2 h.ne'
  have hrising := side_gives hwidth 1 (-p.1) x
  have hfalling := side_gives hwidth (-1) q.1 x
  have hsum := (hfalling.weighted p.2).add (hrising.weighted q.2)
  simp only [line, exactPoint, Exact.real_sub, Exact.neg_real]
  refine ⟨hsum.defined, hsum.value_eq.trans ?_⟩
  rw [chord]
  field_simp
  ring

/-! ## Segments between samples -/

/-- The segment that ends at the second of two neighbours in a list. -/
theorem linesThrough_getElem? (isFirst : Bool) (before after : List (ℝ × ℝ)) (p q : ℝ × ℝ) :
    (linesThrough isFirst ((before ++ p :: q :: after).map exactPoint))[before.length]? =
      some ⟨⟨real p.1, isFirst && before.isEmpty, real q.1, true⟩,
        line (exactPoint p) (exactPoint q)⟩ := by
  induction before generalizing isFirst with
  | nil => simp [linesThrough, exactPoint]
  | cons o before ih =>
    cases before with
    | nil => simp [linesThrough, exactPoint]
    | cons o' before => simpa [linesThrough] using ih false

/-- Each segment begins where the one before it ends. -/
theorem tiles_linesThrough (isFirst : Bool) {p q : ℝ × ℝ} {rest : List (ℝ × ℝ)}
    (h : (p :: q :: rest).IsChain fun p q => p.1 < q.1) :
    Tiles (linesThrough isFirst ((p :: q :: rest).map exactPoint)) := by
  have hvalid (isFirst : Bool) {p q : ℝ × ℝ} (hpq : p.1 < q.1) :
      (⟨real p.1, isFirst, real q.1, true⟩ : Interval Exact).isValid = true := by
    simp [Interval.isValid, hpq]
  induction rest generalizing isFirst p q with
  | nil =>
    refine ⟨by simp [linesThrough], ?_, by simp [linesThrough]⟩
    exact List.forall_mem_singleton.2 (hvalid isFirst (by simpa using h))
  | cons r rest ih =>
    rw [List.isChain_cons_cons] at h
    refine (ih false h.2).cons (hvalid isFirst h.1) fun t ht => ?_
    obtain rfl := Option.some.inj ht
    exact ⟨rfl, rfl⟩

/-- The domain reaches from the first to the last point. -/
theorem hull?_linesThrough (isFirst : Bool) (p q : ℝ × ℝ) (rest : List (ℝ × ℝ)) :
    hull? (linesThrough isFirst ((p :: q :: rest).map exactPoint)) =
      some (.closed (real p.1) (real ((p :: q :: rest).getLast (by simp)).1)) := by
  have hlast : ∃ s ∈ (linesThrough isFirst ((p :: q :: rest).map exactPoint)).getLast?,
      s.range.high = real ((p :: q :: rest).getLast (by simp)).1 := by
    induction rest generalizing isFirst p q with
    | nil => exact ⟨_, rfl, rfl⟩
    | cons r rest ih =>
      obtain ⟨s, hs, hhigh⟩ := ih false q r
      refine ⟨s, ?_, by simpa using hhigh⟩
      have hstep : linesThrough isFirst ((p :: q :: r :: rest).map exactPoint) =
        ⟨⟨real p.1, isFirst, real q.1, true⟩, line (exactPoint p) (exactPoint q)⟩ ::
          linesThrough false ((q :: r :: rest).map exactPoint) := rfl
      rw [hstep, List.getLast?_cons, Option.mem_def.1 hs]
      rfl
  obtain ⟨s, hs, hhigh⟩ := hlast
  refine hull?_eq_some_iff.2 ⟨_, rfl, s, hs, ?_⟩
  rw [hhigh]
  rfl

/-! ## The function through samples -/

theorem Samples.isChain (h : Samples points sorted) : sorted.IsChain fun p q => p.1 < q.1 :=
  h.ascending.isChain

theorem Samples.singleValued (h : Samples points sorted) : SingleValued points :=
  Gathered.singleValued ⟨h.ascending.imp fun hlt => hlt.ne, h.mem_iff⟩

theorem exists_cons_cons {β : Type} {l : List β} (h : ¬ l.length < 2) :
    ∃ x y rest, l = x :: y :: rest := by
  match l with
  | [] | [_] => simp at h
  | x :: y :: rest => exact ⟨x, y, rest, rfl⟩

/-- Points that have samples make the piecewise function through these, if they are two at
least. -/
theorem interpolate_eq (h : Samples points sorted) : interpolate (points.map exactPoint) =
    if sorted.length < 2 then .error .fewPoints
    else .ok (piecewise (linesThrough true (sorted.map exactPoint))) := by
  have hnone : Gathered [] [] := ⟨.nil, by simp⟩
  rcases foldlM_insertPoint hnone points with ⟨known, hknown, hgathered⟩ | ⟨-, hnot⟩
  · obtain ⟨others, hothers, hsort⟩ := hgathered.exists_samples
    obtain rfl := h.unique hothers
    have hlength : known.length = sorted.length := by
      have hperm := sortStable_perm pointBefore (known.map exactPoint)
      simpa [hsort] using hperm.length_eq.symm
    change (points.map exactPoint).foldlM insertPoint [] >>= throughPoints = _
    rw [List.map_nil] at hknown
    rw [hknown]
    change throughPoints (known.map exactPoint) = _
    rw [throughPoints, List.length_map, hlength, hsort]
    split_ifs with hlen
    · rfl
    · obtain ⟨p, q, rest, rfl⟩ := exists_cons_cons hlen
      exact ofSegments_of_tiles (tiles_linesThrough true h.isChain)
  · exact absurd h.singleValued hnot

/-- Points without contradictions have samples. -/
theorem exists_samples (h : SingleValued points) : ∃ sorted, Samples points sorted := by
  have hnone : Gathered [] [] := ⟨.nil, by simp⟩
  rcases foldlM_insertPoint hnone points with ⟨known, -, hgathered⟩ | ⟨-, hnot⟩
  · obtain ⟨sorted, hsorted, -⟩ := hgathered.exists_samples
    exact ⟨sorted, hsorted⟩
  · exact absurd h hnot

/-- Points that contradict each other make no function. -/
theorem interpolate_eq_error (h : ¬ SingleValued points) :
    ∃ x y z, interpolate (points.map exactPoint) = .error (.contradiction x y z) := by
  have hnone : Gathered [] [] := ⟨.nil, by simp⟩
  rcases foldlM_insertPoint hnone points with ⟨known, -, hgathered⟩ | ⟨⟨x, y, z, herror⟩, -⟩
  · exact absurd hgathered.singleValued h
  · refine ⟨x, y, z, ?_⟩
    change (points.map exactPoint).foldlM insertPoint [] >>= throughPoints = _
    rw [List.map_nil] at herror
    rw [herror]
    rfl

/-- The function through samples has the values of a chord on the segment that ends at the second of
two neighbours. -/
theorem evaluate_segment {before after : List (ℝ × ℝ)} {p q : ℝ × ℝ}
    (h : (before ++ p :: q :: after).IsChain fun p q => p.1 < q.1) {x : ℝ}
    (hp : p.1 < x ∨ before = [] ∧ p.1 = x) (hq : x ≤ q.1) :
    (piecewise (linesThrough true ((before ++ p :: q :: after).map exactPoint))).evaluate (real x) =
      .ok (real (chord p q x)) := by
  have hlen : ¬ (before ++ p :: q :: after).length < 2 := by simp; omega
  have hpq : p.1 < q.1 := by
    have := List.IsChain.right_of_append h
    exact (List.isChain_cons_cons.1 this).1
  have htiles : Tiles (linesThrough true ((before ++ p :: q :: after).map exactPoint)) := by
    obtain ⟨p', q', rest, hrest⟩ := exists_cons_cons hlen
    rw [hrest] at h ⊢
    exact tiles_linesThrough true h
  have hs := linesThrough_getElem? true before after p q
  have hvisited := htiles.visited?_eq_some (Exact.isNaN_real x) hs ?_
  · exact (piecewise_gives hvisited hs (line_gives hpq x)).evaluate
  · refine ⟨?_, ?_⟩
    · rcases hp with hp | ⟨rfl, rfl⟩
      · exact .inl (EReal.coe_lt_coe_iff.2 hp)
      · exact .inr ⟨rfl, rfl⟩
    · rcases hq.lt_or_eq with hq | rfl
      · exact .inl (EReal.coe_lt_coe_iff.2 hq)
      · exact .inr ⟨rfl, rfl⟩

/-- The function through samples has their values. -/
theorem evaluate_sample (h : sorted.IsChain fun p q => p.1 < q.1) (hlen : ¬ sorted.length < 2)
    {p : ℝ × ℝ} (hp : p ∈ sorted) :
    (piecewise (linesThrough true (sorted.map exactPoint))).evaluate (real p.1) =
      .ok (real p.2) := by
  obtain ⟨before, after, rfl⟩ := List.append_of_mem hp
  -- Only the first sample is the left end of a segment that contains it.
  rcases List.eq_nil_or_concat before with rfl | ⟨before, o, rfl⟩
  · obtain ⟨p', q, rest, hrest⟩ := exists_cons_cons hlen
    obtain ⟨rfl, rfl⟩ := List.cons.inj hrest
    have hpq : p.1 < q.1 := (List.isChain_cons_cons.1 h).1
    rw [evaluate_segment h (.inr ⟨rfl, rfl⟩) hpq.le, chord_left]
  · rw [List.concat_eq_append, List.append_assoc] at h ⊢
    have hop : o.1 < p.1 := (List.isChain_cons_cons.1 (List.IsChain.right_of_append h)).1
    have hvalue := evaluate_segment h (.inl hop) le_rfl
    rwa [chord_right hop] at hvalue

/-- Neighbouring samples follow each other. -/
theorem Samples.exists_neighbours (h : Samples points sorted) {p q : ℝ × ℝ} (hp : p ∈ points)
    (hq : q ∈ points) (hpq : p.1 < q.1) (hnone : ∀ r ∈ points, ¬ (p.1 < r.1 ∧ r.1 < q.1)) :
    ∃ before after, sorted = before ++ p :: q :: after := by
  have hascending := h.ascending
  obtain ⟨before, behind, hsplit⟩ := List.append_of_mem ((h.mem_iff p).2 hp)
  rw [hsplit] at hascending
  obtain ⟨-, hbehind, hacross⟩ := List.pairwise_append.1 hascending
  have hmem : q ∈ behind := by
    have hq' := (h.mem_iff q).2 hq
    rw [hsplit, List.mem_append, List.mem_cons] at hq'
    rcases hq' with hq' | rfl | hq'
    · exact absurd (hacross q hq' p (by simp)) hpq.asymm
    · exact absurd hpq (lt_irrefl _)
    · exact hq'
  obtain ⟨r, after, rfl⟩ := List.exists_cons_of_ne_nil (List.ne_nil_of_mem hmem)
  refine ⟨before, after, ?_⟩
  rcases List.mem_cons.1 hmem with rfl | hafter
  · exact hsplit
  · have hr : r ∈ points := (h.mem_iff r).1 (by simp [hsplit])
    have hpr : p.1 < r.1 := List.rel_of_pairwise_cons hbehind (by simp)
    have hrq : r.1 < q.1 := List.rel_of_pairwise_cons hbehind.tail hafter
    exact absurd ⟨hpr, hrq⟩ (hnone r hr)

/-- Between neighbouring samples the function has the values of their chord. -/
theorem evaluate_chord (h : Samples points sorted) (hlen : ¬ sorted.length < 2) {p q : ℝ × ℝ}
    (hp : p ∈ points) (hq : q ∈ points) (hpq : p.1 < q.1)
    (hnone : ∀ r ∈ points, ¬ (p.1 < r.1 ∧ r.1 < q.1)) {x : ℝ} (hpx : p.1 ≤ x) (hxq : x ≤ q.1) :
    (piecewise (linesThrough true (sorted.map exactPoint))).evaluate (real x) =
      .ok (real (chord p q x)) := by
  rcases hpx.lt_or_eq with hlt | rfl
  · obtain ⟨before, after, rfl⟩ := h.exists_neighbours hp hq hpq hnone
    exact evaluate_segment h.isChain (.inl hlt) hxq
  · rw [evaluate_sample h.isChain hlen ((h.mem_iff p).2 hp), chord_left]

/-- The domain reaches from the least to the greatest sample. -/
theorem domain_samples (h : Samples points sorted) (hlen : ¬ sorted.length < 2) :
    ∃ low high, (piecewise (linesThrough true (sorted.map exactPoint))).domain =
        some (.closed (real low) (real high)) ∧
      IsLeast {x | ∃ p ∈ points, p.1 = x} low ∧ IsGreatest {x | ∃ p ∈ points, p.1 = x} high := by
  obtain ⟨p, q, rest, rfl⟩ := exists_cons_cons hlen
  have hne : p :: q :: rest ≠ [] := by simp
  refine ⟨p.1, ((p :: q :: rest).getLast hne).1, hull?_linesThrough true p q rest,
    ⟨?_, ?_⟩, ⟨?_, ?_⟩⟩
  · exact ⟨p, (h.mem_iff p).1 (by simp), rfl⟩
  · rintro _ ⟨r, hr, rfl⟩
    rcases List.mem_cons.1 ((h.mem_iff r).2 hr) with rfl | hr
    · exact le_rfl
    · exact (List.rel_of_pairwise_cons h.ascending hr).le
  · exact ⟨_, (h.mem_iff _).1 (List.getLast_mem hne), rfl⟩
  · rintro _ ⟨r, hr, rfl⟩
    have hascending := h.ascending
    have hr := (h.mem_iff r).2 hr
    rw [← List.dropLast_append_getLast hne] at hascending hr
    rcases List.mem_append.1 hr with hr | hr
    · exact ((List.pairwise_append.1 hascending).2.2 r hr _ (by simp)).le
    · exact (congrArg Prod.fst (List.mem_singleton.1 hr)).le

/-- There are two samples at least if two points have different `x`. -/
theorem Samples.length_iff (h : Samples points sorted) :
    ¬ sorted.length < 2 ↔ ∃ p ∈ points, ∃ q ∈ points, p.1 ≠ q.1 := by
  simp only [← h.mem_iff]
  constructor
  · intro hlen
    obtain ⟨p, q, rest, rfl⟩ := exists_cons_cons hlen
    exact ⟨p, by simp, q, by simp, (List.rel_of_pairwise_cons h.ascending (by simp)).ne⟩
  · rintro ⟨p, hp, q, hq, hne⟩ hlen
    match sorted with
    | [] => simp at hp
    | [r] => simp_all
    | r :: s :: rest => simp at hlen

theorem line_hasNoNaN (p q : ℝ × ℝ) : (line (exactPoint p) (exactPoint q)).HasNoNaN := by
  have hone : Scalar.isNaN (1 : Exact) = false := LawfulScalar.isNaN_one
  have hminus : Scalar.isNaN (-1 : Exact) = false := Exact.isNaN_real (-1)
  simp [line, exactPoint, power, scaled, Kernel.atScale, Kernel.parameters, HasNoNaN, hone, hminus]

/-- The function through samples has no NaN, so it equals itself. -/
theorem beq_self_samples (sorted : List (ℝ × ℝ)) :
    (piecewise (linesThrough true (sorted.map exactPoint)) ==
      piecewise (linesThrough true (sorted.map exactPoint))) = true := by
  have hlines (isFirst : Bool) : ∀ s ∈ linesThrough isFirst (sorted.map exactPoint),
      (Scalar.isNaN s.range.low = false ∧ Scalar.isNaN s.range.high = false) ∧
        s.payload.HasNoNaN := by
    induction sorted generalizing isFirst with
    | nil => simp [linesThrough]
    | cons p rest ih =>
      cases rest with
      | nil => simp [linesThrough]
      | cons q rest =>
        refine List.forall_mem_cons.2 ⟨⟨?_, line_hasNoNaN p q⟩, ih false⟩
        exact ⟨Exact.isNaN_real p.1, Exact.isNaN_real q.1⟩
  exact CountsAs.beq (.inl rfl) ((numbers_piecewise _).2 (hlines true))

/-- Which function a flat list of numbers makes: the one through its samples, of which there must be
two at least. -/
theorem interpolateFlat_eq_ok_iff {values : List ℝ} {f : Fn Exact} :
    interpolateFlat (values.map real) = .ok f ↔ values.length % 2 = 0 ∧
      ∃ sorted, Samples (pairUp values) sorted ∧ ¬ sorted.length < 2 ∧
        f = piecewise (linesThrough true (sorted.map exactPoint)) := by
  have hshort (hlen : values.length < 4) (h : ∃ p ∈ pairUp values, ∃ q ∈ pairUp values, p.1 ≠ q.1) :
      False := by
    match values with
    | [] | [_] | [_, _] | [_, _, _] => simp [pairUp] at h
    | _ :: _ :: _ :: _ :: _ => simp at hlen; omega
  rw [interpolateFlat, samplePairs, List.length_map, pairUp_map]
  split_ifs with hodd hlen
  · refine iff_of_false nofun ?_
    rintro ⟨heven, -⟩
    omega
  · refine iff_of_false nofun ?_
    rintro ⟨-, sorted, hsorted, htwo, -⟩
    exact hshort hlen (hsorted.length_iff.1 htwo)
  · change interpolate ((pairUp values).map exactPoint) = .ok f ↔ _
    by_cases hsingle : SingleValued (pairUp values)
    · obtain ⟨sorted, hsorted⟩ := exists_samples hsingle
      rw [interpolate_eq hsorted]
      split_ifs with htwo
      · refine iff_of_false nofun ?_
        rintro ⟨-, others, hothers, hlen, -⟩
        exact hlen (hsorted.unique hothers ▸ htwo)
      · rw [Except.ok.injEq]
        constructor
        · rintro rfl
          exact ⟨by omega, sorted, hsorted, htwo, rfl⟩
        · rintro ⟨-, others, hothers, -, rfl⟩
          rw [hsorted.unique hothers]
    · obtain ⟨x, y, z, herror⟩ := interpolate_eq_error hsingle
      rw [herror]
      refine iff_of_false nofun ?_
      rintro ⟨-, sorted, hsorted, -⟩
      exact hsingle hsorted.singleValued

/-- Why a flat list of numbers may make no function. -/
theorem interpolateFlat_eq_error {values : List ℝ} {e : Failure Exact}
    (h : interpolateFlat (values.map real) = .error e) :
    e = .oddSamples values.length ∨ e = .fewSamples ∨ e = .fewPoints ∨
      ∃ x y z, e = .contradiction x y z := by
  rw [interpolateFlat, samplePairs, List.length_map, pairUp_map] at h
  split_ifs at h
  · exact .inl (Except.error.inj h).symm
  · exact .inr (.inl (Except.error.inj h).symm)
  · change interpolate ((pairUp values).map exactPoint) = .error e at h
    by_cases hsingle : SingleValued (pairUp values)
    · obtain ⟨sorted, hsorted⟩ := exists_samples hsingle
      rw [interpolate_eq hsorted] at h
      split_ifs at h
      exact .inr (.inr (.inl (Except.error.inj h).symm))
    · obtain ⟨x, y, z, herror⟩ := interpolate_eq_error hsingle
      rw [herror] at h
      exact .inr (.inr (.inr ⟨x, y, z, (Except.error.inj h).symm⟩))

end Fn

/-- A flat list of numbers makes a function just if its length is even, no `x` has two different `y`
and there are two different `x` at least. The domain reaches from the least `x` to the greatest. The
function has the values of the samples, and between neighbouring samples it is linear. It depends
neither on the order of the points nor on how often one is given. -/
theorem Constructor.piecewiseLinear_interpolates (values : List ℝ) :
    let make (values : List ℝ) : Except (Failure Exact) (Fn Exact) :=
      piecewiseLinear.apply (values.map fun v => .number (real v)) none
    let points := Fn.pairUp values
    ((∃ f, make values = .ok f) ↔ values.length % 2 = 0 ∧
      (∀ p ∈ points, ∀ q ∈ points, p.1 = q.1 → p.2 = q.2) ∧ ∃ p ∈ points, ∃ q ∈ points, p.1 ≠ q.1) ∧
    (∀ e, make values = .error e → e = .oddSamples values.length ∨ e = .fewSamples ∨
      e = .fewPoints ∨ ∃ x y z, e = .contradiction x y z) ∧
    ∀ f, make values = .ok f →
      (∃ low high, f.domain = some (.closed (real low) (real high)) ∧
        IsLeast {x | ∃ p ∈ points, p.1 = x} low ∧ IsGreatest {x | ∃ p ∈ points, p.1 = x} high) ∧
      (∀ p ∈ points, f.evaluate (real p.1) = .ok (real p.2)) ∧
      (∀ p ∈ points, ∀ q ∈ points, p.1 < q.1 → (∀ r ∈ points, ¬ (p.1 < r.1 ∧ r.1 < q.1)) →
        ∀ x, p.1 ≤ x → x ≤ q.1 → f.evaluate (real x) =
          .ok (real (p.2 + (q.2 - p.2) * (x - p.1) / (q.1 - p.1)))) ∧
      (f == f) = true ∧
      ∀ others : List ℝ, others.length % 2 = 0 → (∀ p, p ∈ Fn.pairUp others ↔ p ∈ points) →
        make others = .ok f := by
  intro make points
  have hmake (values : List ℝ) : make values = Fn.interpolateFlat (values.map real) := by
    rw [← apply_piecewiseLinear, List.map_map]
    rfl
  simp only [hmake, Fn.interpolateFlat_eq_ok_iff]
  refine ⟨⟨?_, ?_⟩, fun e => Fn.interpolateFlat_eq_error, ?_⟩
  · rintro ⟨f, heven, sorted, hsorted, hlen, -⟩
    exact ⟨heven, hsorted.singleValued, hsorted.length_iff.1 hlen⟩
  · rintro ⟨heven, hsingle, hdistinct⟩
    obtain ⟨sorted, hsorted⟩ := Fn.exists_samples hsingle
    exact ⟨_, heven, sorted, hsorted, hsorted.length_iff.2 hdistinct, rfl⟩
  · rintro f ⟨-, sorted, hsorted, hlen, rfl⟩
    refine ⟨Fn.domain_samples hsorted hlen, fun p hp => ?_, fun p hp q hq hpq hnone x => ?_,
      Fn.beq_self_samples sorted, fun others heven hothers => ?_⟩
    · exact Fn.evaluate_sample hsorted.isChain hlen ((hsorted.mem_iff p).2 hp)
    · exact Fn.evaluate_chord hsorted hlen hp hq hpq hnone
    · exact ⟨heven, sorted,
        ⟨hsorted.ascending, fun p => (hsorted.mem_iff p).trans (hothers p).symm⟩, hlen, rfl⟩

theorem Constructor.piecewiseLinear_interpolates_peak :
    ∃ f, piecewiseLinear.apply (([0, 1, 1, 3, 2, 0] : List ℝ).map fun v => .number (real v)) none =
      .ok f ∧ f.evaluate (real (1 / 2)) = .ok (real 2) ∧ f.evaluate (real 1) = .ok (real 3) := by
  obtain ⟨hiff, -, hvalues⟩ := piecewiseLinear_interpolates [0, 1, 1, 3, 2, 0]
  obtain ⟨f, hf⟩ := hiff.2 ⟨rfl, by simp [Fn.pairUp], by simp [Fn.pairUp]⟩
  obtain ⟨-, hsample, hchord, -, -⟩ := hvalues f hf
  refine ⟨f, hf, ?_, hsample (1, 3) (by simp [Fn.pairUp])⟩
  rw [hchord (0, 1) (by simp [Fn.pairUp]) (1, 3) (by simp [Fn.pairUp]) (by norm_num)
    (by simp [Fn.pairUp]) (1 / 2) (by norm_num) (by norm_num)]
  norm_num

end FunctionAlgebra
