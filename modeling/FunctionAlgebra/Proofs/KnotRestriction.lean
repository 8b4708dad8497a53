import FunctionAlgebra.Proofs.KnotPoints

/-!
# Knots on a part of an interval

Where the knots on an interval can be listed, those on any part of it can be listed too, and they
are the ones that lie in the part. This is so because the rules by which a report is made look at an
interval only through its points, and parts of segments have the common points.

## Main definitions

* `pointsOf` — the points of the line that some numbers stand for.
* `IsListing` — a list of numbers in ascending order, one for each of some points.
* `Fn.RestrictsTo` — the knots on one interval are those on another that lie in it.

## Main statements

* `isListing_sortDistinct`, `IsListing.unique` — sorted distinct numbers are determined by their
  points.
* `Fn.restrictsTo` — well-formed functions have on a part of an interval the knots that lie in it.
* `Fn.knots_restrict` — the same for the sorted lists.
-/

namespace FunctionAlgebra

open LineScalar (toEReal lt_eq beq_eq)

variable {α : Type} [Scalar α] [LineScalar α]

/-! ## Lists of points -/

section Points

variable {xs ys : List α} {p : EReal}

def pointsOf (xs : List α) : Set EReal := {p | ∃ x ∈ xs, toEReal x = p}

theorem mem_pointsOf : p ∈ pointsOf xs ↔ ∃ x ∈ xs, toEReal x = p := Iff.rfl

@[simp] theorem pointsOf_nil : pointsOf ([] : List α) = ∅ := by
  simp [pointsOf]

@[simp] theorem pointsOf_cons (x : α) (xs : List α) :
    pointsOf (x :: xs) = insert (toEReal x) (pointsOf xs) := by
  ext p
  simp [mem_pointsOf, eq_comm]

theorem pointsOf_append (xs ys : List α) : pointsOf (xs ++ ys) = pointsOf xs ∪ pointsOf ys := by
  ext p
  simp only [mem_pointsOf, Set.mem_union, List.mem_append]
  grind

theorem mem_pointsOf_flatMap {β : Type} {parts : List β} {f : β → List α} :
    p ∈ pointsOf (parts.flatMap f) ↔ ∃ b ∈ parts, p ∈ pointsOf (f b) := by
  simp only [mem_pointsOf, List.mem_flatMap]
  grind

theorem pointsOf_perm (h : xs.Perm ys) : pointsOf xs = pointsOf ys := by
  simp [pointsOf, h.mem_iff]

theorem pointsOf_filter_contains {j : Interval α} (hj : j.IsProper)
    (hxs : ∀ x ∈ xs, Scalar.isNaN x = false) :
    pointsOf (xs.filter j.contains) = pointsOf xs ∩ j.points := by
  ext p
  simp only [mem_pointsOf, List.mem_filter, Set.mem_inter_iff]
  constructor
  · rintro ⟨x, ⟨hx, hin⟩, rfl⟩
    exact ⟨⟨x, hx, rfl⟩, (Interval.contains_iff hj (hxs x hx)).1 hin⟩
  · rintro ⟨⟨x, hx, rfl⟩, hin⟩
    exact ⟨x, ⟨hx, (Interval.contains_iff hj (hxs x hx)).2 hin⟩, rfl⟩

structure IsListing (xs : List α) (s : Set EReal) : Prop where
  numbers : ∀ x ∈ xs, Scalar.isNaN x = false
  ascending : xs.Pairwise fun x y => toEReal x < toEReal y
  points : pointsOf xs = s

/-- The points in an interval are listed by the numbers that it contains. -/
theorem IsListing.filter {s : Set EReal} (h : IsListing xs s) {j : Interval α} (hj : j.IsProper) :
    IsListing (xs.filter j.contains) (s ∩ j.points) where
  numbers x hx := h.numbers x (List.mem_of_mem_filter hx)
  ascending := h.ascending.filter _
  points := by rw [pointsOf_filter_contains hj h.numbers, h.points]

/-- Two listings of the same points consist of equal numbers. -/
theorem IsListing.unique {s : Set EReal} (hxs : IsListing xs s) (hys : IsListing ys s) :
    List.Forall₂ (fun x y => (x == y) = true) xs ys := by
  have hmap : xs.map toEReal = ys.map toEReal := by
    refine List.Perm.eq_of_pairwise (fun p q _ _ hpq hqp => absurd hqp hpq.not_gt)
      (List.pairwise_map.2 hxs.ascending) (List.pairwise_map.2 hys.ascending) ?_
    refine (List.perm_ext_iff_of_nodup ?_ ?_).2 fun p => ?_
    · exact (List.pairwise_map.2 hxs.ascending).imp ne_of_lt
    · exact (List.pairwise_map.2 hys.ascending).imp ne_of_lt
    · rw [List.mem_map, List.mem_map, ← mem_pointsOf, ← mem_pointsOf, hxs.points, hys.points]
  have hall : List.Forall₂ (fun x y => toEReal x = toEReal y) xs ys := by
    rwa [← List.forall₂_map_right_iff, ← List.forall₂_map_left_iff, List.forall₂_eq_eq_eq]
  refine (forall₂_and_of_forall_mem hall hxs.numbers hys.numbers).imp ?_
  rintro x y ⟨heq, hx, hy⟩
  exact LineScalar.beq_iff_toEReal.2 ⟨hx, hy, heq⟩

/-! ### Sorting -/

theorem orders_lt : Orders (Scalar.lt : α → α → Bool) fun x => Scalar.isNaN x = false where
  asymm _ _ h := LawfulScalar.lt_asymm h
  trans hx hy hz hyx hzy := by
    rw [lt_eq hy hx, decide_eq_false_iff_not, not_lt] at hyx
    rw [lt_eq hz hy, decide_eq_false_iff_not, not_lt] at hzy
    rw [lt_eq hz hx, decide_eq_false_iff_not, not_lt]
    exact hyx.trans hzy

/-- One number is kept for each point. -/
theorem foldl_distinct (hxs : ∀ x ∈ xs, Scalar.isNaN x = false) {kept : List α}
    (hkept : ∀ x ∈ kept, Scalar.isNaN x = false)
    (hdistinct : kept.Pairwise fun x y => toEReal x ≠ toEReal y) {all : List α}
    (h : xs.foldl (fun kept x => if kept.any (x == ·) then kept else x :: kept) kept = all) :
    (∀ x ∈ all, Scalar.isNaN x = false) ∧ (all.Pairwise fun x y => toEReal x ≠ toEReal y) ∧
      pointsOf all = pointsOf kept ∪ pointsOf xs := by
  induction xs generalizing kept with
  | nil =>
    obtain rfl := h
    exact ⟨hkept, hdistinct, by simp⟩
  | cons x xs ih =>
    obtain ⟨hx, hxs⟩ := List.forall_mem_cons.1 hxs
    have hany : kept.any (x == ·) = true ↔ toEReal x ∈ pointsOf kept := by
      rw [List.any_eq_true, mem_pointsOf]
      refine exists_congr fun y => and_congr_right fun hy => ?_
      rw [beq_eq hx (hkept y hy), decide_eq_true_iff, eq_comm]
    rw [List.foldl_cons] at h
    split_ifs at h with hmem
    · obtain ⟨hall, hpairs, hpoints⟩ := ih hxs hkept hdistinct h
      refine ⟨hall, hpairs, ?_⟩
      rw [hpoints, pointsOf_cons, Set.union_insert, Set.insert_eq_of_mem (.inl (hany.1 hmem))]
    · have hnew : ∀ y ∈ kept, toEReal x ≠ toEReal y := fun y hy heq =>
        hmem (hany.2 ⟨y, hy, heq.symm⟩)
      obtain ⟨hall, hpairs, hpoints⟩ :=
        ih hxs (List.forall_mem_cons.2 ⟨hx, hkept⟩) (hdistinct.cons hnew) h
      refine ⟨hall, hpairs, ?_⟩
      rw [hpoints, pointsOf_cons, pointsOf_cons, Set.union_insert, Set.insert_union]

theorem isListing_sortDistinct (hxs : ∀ x ∈ xs, Scalar.isNaN x = false) :
    IsListing (sortDistinct xs) (pointsOf xs) := by
  have hempty : ∀ x ∈ ([] : List α), Scalar.isNaN x = false := by simp
  obtain ⟨hall, hpairs, hpoints⟩ := foldl_distinct hxs hempty .nil rfl
  set all := xs.foldl (fun kept x => if kept.any (x == ·) then kept else x :: kept) []
  have hperm : (sortDistinct xs).Perm all :=
    (sortStable_perm Scalar.lt _).trans all.reverse_perm
  have hnumbers : ∀ x ∈ sortDistinct xs, Scalar.isNaN x = false := fun x hx =>
    hall x (hperm.mem_iff.1 hx)
  have hsorted : (sortDistinct xs).Pairwise fun x y => Scalar.lt y x = false :=
    (sortStable_ascending orders_lt fun x hx => hall x (List.mem_reverse.1 hx)).pairwise
  have hdistinct : (sortDistinct xs).Pairwise fun x y => toEReal x ≠ toEReal y :=
    hpairs.perm hperm.symm fun h => h.symm
  refine ⟨hnumbers, ?_, ?_⟩
  · refine (hsorted.and hdistinct).imp_of_mem fun {x y} hx hy ⟨hle, hne⟩ => ?_
    rw [lt_eq (hnumbers y hy) (hnumbers x hx), decide_eq_false_iff_not, not_lt] at hle
    exact hle.lt_of_ne hne
  · rw [pointsOf_perm hperm, hpoints, pointsOf_nil, Set.empty_union]

/-- Exact numbers are in the list if they are in the sorted one. -/
theorem Exact.mem_sortDistinct_iff {xs : List Exact} (h : ∀ x ∈ xs, Scalar.isNaN x = false)
    {x : Exact} : x ∈ sortDistinct xs ↔ x ∈ xs := by
  have hlist := isListing_sortDistinct h
  constructor
  · intro hx
    obtain ⟨y, hy, hyx⟩ : toEReal x ∈ pointsOf xs := hlist.points ▸ ⟨x, hx, rfl⟩
    rwa [← Exact.eq_of_toEReal (h y hy) (hlist.numbers x hx) hyx]
  · intro hx
    obtain ⟨y, hy, hyx⟩ : toEReal x ∈ pointsOf (sortDistinct xs) := hlist.points ▸ ⟨x, hx, rfl⟩
    rwa [← Exact.eq_of_toEReal (hlist.numbers y hy) (h x hx) hyx]

end Points

/-! ## Parts of an interval -/

namespace Interval

variable {i j : Interval α}

theorem isPoint_iff (hi : i.IsProper) : i.isPoint = true ↔ toEReal i.low = toEReal i.high := by
  rw [isPoint, beq_eq hi.1 hi.2, decide_eq_true_iff]

/-- The only part of a point is the point itself. -/
theorem eq_of_subset_point (hi : i.isValid = true) (hj : j.isValid = true)
    (h : j.points ⊆ i.points) (hpoint : i.isPoint = true) :
    toEReal j.low = toEReal i.low ∧ toEReal j.high = toEReal i.high ∧ j.isPoint = true := by
  rw [isPoint_iff (isProper_of_isValid hi)] at hpoint
  rw [isPoint_iff (isProper_of_isValid hj)]
  obtain ⟨hlow, hhigh⟩ := bounds_of_subset hj h
  have := low_le_high hj
  grind

/-- If an interval meets a part of another one, it meets the whole. -/
theorem inter?_mono {k part : Interval α} (hk : k.isValid = true) (hi : i.isValid = true)
    (hj : j.isValid = true) (hij : j.points ⊆ i.points) (h : k.inter? j = some part) :
    part.isValid = true ∧ ∃ whole, k.inter? i = some whole ∧ whole.isValid = true ∧
      part.points = whole.points ∩ j.points := by
  obtain ⟨hpv, hpoints⟩ := inter?_eq_some hk hj h
  obtain ⟨p, hp⟩ := points_nonempty hpv
  rw [hpoints] at hp
  obtain ⟨whole, hwhole⟩ := exists_inter? hk hi hp.1 (hij hp.2)
  obtain ⟨hwv, hpoints'⟩ := inter?_eq_some hk hi hwhole
  refine ⟨hpv, whole, hwhole, hwv, ?_⟩
  rw [hpoints, hpoints', Set.inter_assoc, Set.inter_eq_self_of_subset_right hij]

theorem closed_covers_iff {a b : α} (ha : Scalar.isNaN a = false) (hb : Scalar.isNaN b = false)
    (hj : j.IsProper) :
    (closed a b).covers j = true ↔ toEReal a ≤ toEReal j.low ∧ toEReal j.high ≤ toEReal b := by
  simp [covers, closed, lt_eq hj.1 ha, lt_eq hb hj.2]

end Interval

/-! ## Reports and lists on a part -/

/-- Finitely many knots are reported and listed, and they are those of the list `xs` that lie in
`j`. -/
structure CutsTo (j : Interval α) (xs : List α) (r : KnotReport) (ys : List α) : Prop where
  finite : r.isFinite = true
  numbers : ∀ y ∈ ys, Scalar.isNaN y = false
  points : pointsOf ys = pointsOf xs ∩ j.points

theorem CutsTo.nil (j : Interval α) : CutsTo j [] .noKnots [] := ⟨rfl, by simp, by simp⟩

variable {i j : Interval α}

/-- A point on which nothing is defined has no other part. -/
theorem cutsTo_undefined (hi : i.isValid = true) (hj : j.isValid = true)
    (hij : j.points ⊆ i.points) (h : (undefinedReport i).isFinite = true) :
    CutsTo j (undefinedKnots i) (undefinedReport j) (undefinedKnots j) := by
  have hpoint : i.isPoint = true := by
    by_contra hpoint
    simp [undefinedReport, hpoint, KnotReport.isFinite] at h
  obtain ⟨hlow, hhigh, hpoint'⟩ := Interval.eq_of_subset_point hi hj hij hpoint
  have hjp := Interval.isProper_of_isValid hj
  refine ⟨by simp [undefinedReport, hpoint', KnotReport.isFinite], ?_, ?_⟩
  · simpa [undefinedKnots, hpoint'] using hjp.1
  · have hmem : toEReal i.low ∈ j.points := by
      obtain ⟨p, hp⟩ := Interval.points_nonempty hj
      have hsame := (Interval.isPoint_iff hjp).1 hpoint'
      have : p = toEReal i.low := by
        have := Interval.low_le_of_mem hp
        have := Interval.le_high_of_mem hp
        grind
      exact this ▸ hp
    simp [undefinedKnots, hpoint, hpoint', hlow, hmem]

namespace Kernel

def leavesDomain (k : Kernel α) (i : Interval α) : Bool :=
  match k with
  | power p => !k.isMonomial && !Scalar.isInteger p && Scalar.lt i.low 0
  | arcSine _ => Scalar.lt i.low (-1) || Scalar.lt 1 i.high
  | logarithm => Scalar.lt i.low 0
  | sine _ _ | arcTangent _ | exponential => false

def hasPole (k : Kernel α) : Bool :=
  match k with
  | power p => !k.isMonomial && Scalar.lt p 0
  | logarithm => true
  | arcSine _ | sine _ _ | arcTangent _ | exponential => false

omit [LineScalar α] in
theorem knotReport_eq (k : Kernel α) (i : Interval α) : k.knotReport i =
    if k.leavesDomain i then undefinedReport i
    else if k.hasPole && i.contains 0 then .finite else .noKnots := by
  cases k with
  | power p => cases h : (power p).isMonomial <;> simp [knotReport, leavesDomain, hasPole, h]
  | _ => simp [knotReport, leavesDomain, hasPole]

omit [LineScalar α] in
theorem knots_eq (k : Kernel α) (i : Interval α) : k.knots i =
    if k.leavesDomain i then undefinedKnots i
    else if k.hasPole && i.contains 0 then [0] else [] := by
  cases k with
  | power p => cases h : (power p).isMonomial <;> simp [knots, leavesDomain, hasPole, h]
  | _ => simp [knots, leavesDomain, hasPole]

/-- The farther the ends of an interval, the more it leaves the domain. -/
theorem leavesDomain_mono (hi : i.IsProper)
    (hlow : toEReal i.low ≤ toEReal j.low) (hhigh : toEReal j.high ≤ toEReal i.high)
    {k : Kernel α} (h : k.leavesDomain j = true) : k.leavesDomain i = true := by
  have hbelow {c : α} (hlt : Scalar.lt j.low c = true) : Scalar.lt i.low c = true := by
    obtain ⟨-, hc, hlt⟩ := LineScalar.lt_iff.1 hlt
    exact LineScalar.lt_iff.2 ⟨hi.1, hc, hlow.trans_lt hlt⟩
  have habove {c : α} (hlt : Scalar.lt c j.high = true) : Scalar.lt c i.high = true := by
    obtain ⟨hc, -, hlt⟩ := LineScalar.lt_iff.1 hlt
    exact LineScalar.lt_iff.2 ⟨hc, hi.2, hlt.trans_le hhigh⟩
  cases k with
  | power p =>
    simp only [leavesDomain, Bool.and_eq_true] at h ⊢
    exact ⟨h.1, hbelow h.2⟩
  | arcSine shift =>
    simp only [leavesDomain, Bool.or_eq_true] at h ⊢
    exact h.imp hbelow habove
  | logarithm => exact hbelow h
  | sine | arcTangent | exponential => cases h

theorem cutsTo_knots (hi : i.isValid = true) (hj : j.isValid = true) (hij : j.points ⊆ i.points)
    {k : Kernel α} (h : (k.knotReport i).isFinite = true) :
    CutsTo j (k.knots i) (k.knotReport j) (k.knots j) := by
  have hip := Interval.isProper_of_isValid hi
  have hjp := Interval.isProper_of_isValid hj
  obtain ⟨hlow, hhigh⟩ := Interval.bounds_of_subset hj hij
  rw [knotReport_eq] at h
  rw [knotReport_eq, knots_eq, knots_eq]
  by_cases hleaves : k.leavesDomain i = true
  · -- the interval is a point, so the part leaves the domain as well
    rw [if_pos hleaves] at h
    have hpoint : i.isPoint = true := by
      by_contra hpoint
      simp [undefinedReport, hpoint, KnotReport.isFinite] at h
    obtain ⟨hlow, hhigh, -⟩ := Interval.eq_of_subset_point hi hj hij hpoint
    have hleaves' := leavesDomain_mono hjp hlow.le hhigh.ge hleaves
    rw [if_pos hleaves, if_pos hleaves', if_pos hleaves']
    exact cutsTo_undefined hi hj hij h
  · have hleaves' : ¬ k.leavesDomain j = true :=
      fun h => hleaves (leavesDomain_mono hip hlow hhigh h)
    rw [if_neg hleaves, if_neg hleaves', if_neg hleaves']
    by_cases hpole : k.hasPole = true
    · have hzero : Scalar.isNaN (0 : α) = false := LawfulScalar.isNaN_zero
      have hlist (l : Interval α) : (if l.contains 0 = true then [(0 : α)] else []) =
          [0].filter l.contains := by
        simp [List.filter_cons]
      simp only [hpole, Bool.true_and, hlist]
      refine ⟨by split_ifs <;> rfl, by simp [hzero], ?_⟩
      rw [pointsOf_filter_contains hjp (by simpa), pointsOf_filter_contains hip (by simpa),
        Set.inter_assoc, Set.inter_eq_self_of_subset_right hij]
    · simpa [hpole] using CutsTo.nil j

end Kernel

/-! ## Functions -/

namespace Fn

variable {f : Fn α} {segments : List (Segment α (Fn α))}

def RestrictsTo (f : Fn α) (i j : Interval α) : Prop :=
  CutsTo j (f.listedKnots i) (f.knotReport j) (f.listedKnots j)

theorem restrictsTo_of_noKnots (h : ∀ i, f.knotReport i = .noKnots) : f.RestrictsTo i j := by
  simpa [RestrictsTo, listedKnots, h] using CutsTo.nil j

theorem restrictsTo_plain (hi : i.isValid = true) (hj : j.isValid = true)
    (hij : j.points ⊆ i.points) {k : Kernel α} {s : α}
    (h : ((unary k s none).knotReport i).isFinite = true) : (unary k s none).RestrictsTo i j := by
  cases h0 : s == 0 with
  | true => exact restrictsTo_of_noKnots fun i => by simp [h0]
  | false =>
    rw [knotReport_plain, h0, if_neg Bool.false_ne_true] at h
    simpa [RestrictsTo, listedKnots_plain h0, h0] using Kernel.cutsTo_knots hi hj hij h

theorem restrictsTo_chain {k : Kernel α} {s : α}
    (h : ((unary k s (some f)).knotReport i).isFinite = true)
    (ih : (f.knotReport i).isFinite = true → f.RestrictsTo i j) :
    (unary k s (some f)).RestrictsTo i j := by
  cases h0 : s == 0 with
  | true => exact restrictsTo_of_noKnots fun i => by simp [h0]
  | false =>
    have hinherits : k.inheritsKnots = true := by
      by_contra hinherits
      simp [h0, hinherits, KnotReport.isFinite] at h
    have := ih (by simpa [h0, hinherits] using h)
    simpa [RestrictsTo, listedKnots_chain h0 hinherits, h0, hinherits] using this

/-- What restricts part by part restricts as a whole. -/
theorem cutsTo_parts {fs : List (Fn α)} (h : ∀ f ∈ fs, f.RestrictsTo i j) :
    CutsTo j (fs.flatMap (listedKnots · i)) (.combine (fs.map (knotReport · j)))
      (fs.flatMap (listedKnots · j)) where
  finite := KnotReport.isFinite_combine.2 (List.forall_mem_map.2 fun f hf => (h f hf).finite)
  numbers y hy := by
    obtain ⟨f, hf, hy⟩ := List.mem_flatMap.1 hy
    exact (h f hf).numbers y hy
  points := by
    ext p
    simp only [mem_pointsOf_flatMap, Set.mem_inter_iff]
    constructor
    · rintro ⟨f, hf, hp⟩
      rw [(h f hf).points] at hp
      exact ⟨⟨f, hf, hp.1⟩, hp.2⟩
    · rintro ⟨⟨f, hf, hp⟩, hpj⟩
      refine ⟨f, hf, ?_⟩
      rw [(h f hf).points]
      exact ⟨hp, hpj⟩

theorem restrictsTo_quotient {n d : Fn α} (hi : i.isValid = true) (hj : j.isValid = true)
    (hij : j.points ⊆ i.points) (h : ((quotient n d).knotReport i).isFinite = true)
    (ih : (n.knotReport i).isFinite = true → n.RestrictsTo i j) :
    (quotient n d).RestrictsTo i j := by
  cases hv : d.value? with
  | none => simp [knotReport_quotient_of_none hv, KnotReport.isFinite] at h
  | some v =>
    rw [knotReport_quotient hv] at h
    cases h0 : v == 0 with
    | true =>
      rw [h0, if_pos rfl] at h
      have := cutsTo_undefined hi hj hij h
      simpa [RestrictsTo, listedKnots, knotReport_quotient hv, knotPositions_quotient hv, h0,
        undefinedReport_ne] using this
    | false =>
      rw [h0, if_neg Bool.false_ne_true] at h
      simpa [RestrictsTo, knotReport_quotient hv, listedKnots_quotient hv h0, h0] using ih h

/-- The bounds of segments in order are numbers. -/
theorem isNaN_boundaries {β : Type} {segments : List (Segment α β)} (ht : Tiles segments) {x : α}
    (hx : x ∈ boundaries segments) : Scalar.isNaN x = false := by
  refine (isListing_sortDistinct fun x hx => ?_).numbers x hx
  obtain ⟨s, hs, hx⟩ := List.mem_flatMap.1 hx
  obtain ⟨hl, hh⟩ := Interval.isProper_of_isValid (ht.valid s hs)
  rcases (by simpa using hx : x = s.range.low ∨ x = s.range.high) with rfl | rfl
  exacts [hl, hh]

/-- Where the domain reaches over an interval, it reaches over its parts. -/
theorem covers_of_subset (ht : Tiles segments) {domain : Interval α}
    (hd : hull? segments = some domain) (hi : i.IsProper) (hj : j.isValid = true)
    (hij : j.points ⊆ i.points) (h : domain.covers i = true) : domain.covers j = true := by
  obtain ⟨hlow, hhigh⟩ := Interval.bounds_of_subset hj hij
  obtain ⟨first, -, last, -, rfl⟩ := hull?_eq_some_iff.1 hd
  obtain ⟨hfirst, hlast⟩ : Scalar.isNaN first.range.low = false ∧
      Scalar.isNaN last.range.high = false := (ht.le_hull hd).1
  rw [Interval.closed_covers_iff hfirst hlast hi] at h
  rw [Interval.closed_covers_iff hfirst hlast (Interval.isProper_of_isValid hj)]
  exact ⟨h.1.trans hlow, hhigh.trans h.2⟩

/-- The parts of segments in an interval are valid, and lie in the interval. -/
theorem pieces_subset (hv : ∀ s ∈ segments, s.range.isValid = true) (hi : i.isValid = true)
    {piece : Segment α (Fn α)} (h : piece ∈ pieces segments i) :
    piece.range.isValid = true ∧ piece.range.points ⊆ i.points := by
  obtain ⟨s, hs, hpart, -⟩ := mem_pieces.1 h
  obtain ⟨hpv, hpoints⟩ := Interval.inter?_eq_some (hv s hs) hi hpart
  exact ⟨hpv, hpoints ▸ Set.inter_subset_right⟩

/-- A segment with the same payload on the part of another one that lies in `j`. -/
structure CutFrom (j : Interval α) (whole part : Segment α (Fn α)) : Prop where
  payload : part.payload = whole.payload
  valid : part.range.isValid = true
  points : part.range.points = whole.range.points ∩ j.points

/-- What lies in `j` of a segment is cut from what lies in `i`. -/
theorem exists_whole (ht : Tiles segments) (hi : i.isValid = true) (hj : j.isValid = true)
    (hij : j.points ⊆ i.points) {part : Segment α (Fn α)} (h : part ∈ pieces segments j) :
    ∃ whole ∈ pieces segments i, CutFrom j whole part := by
  obtain ⟨s, hs, hpart, hpayload⟩ := mem_pieces.1 h
  obtain ⟨hpv, whole, hwhole, -, hpoints⟩ :=
    Interval.inter?_mono (ht.valid s hs) hi hj hij hpart
  exact ⟨⟨whole, s.payload⟩, mem_pieces.2 ⟨s, hs, hwhole, rfl⟩, hpayload.symm, hpv, hpoints⟩

/-- Of a segment that has a point in `j`, something lies in `j`. -/
theorem exists_part (ht : Tiles segments) (hi : i.isValid = true) (hj : j.isValid = true)
    (hij : j.points ⊆ i.points) {whole : Segment α (Fn α)} (h : whole ∈ pieces segments i)
    {p : EReal} (hp : p ∈ whole.range.points) (hpj : p ∈ j.points) :
    ∃ part ∈ pieces segments j, CutFrom j whole part := by
  obtain ⟨s, hs, hwhole, hpayload⟩ := mem_pieces.1 h
  have hsv := ht.valid s hs
  obtain ⟨-, hpoints⟩ := Interval.inter?_eq_some hsv hi hwhole
  have hps : p ∈ s.range.points := (hpoints ▸ hp : p ∈ s.range.points ∩ i.points).1
  obtain ⟨part, hpart⟩ := Interval.exists_inter? hsv hj hps hpj
  obtain ⟨hpv, hpoints'⟩ := Interval.inter?_eq_some hsv hj hpart
  refine ⟨⟨part, s.payload⟩, mem_pieces.2 ⟨s, hs, hpart, rfl⟩, hpayload, hpv, ?_⟩
  rw [hpoints, hpoints', Set.inter_assoc, Set.inter_eq_self_of_subset_right hij]

/-- Payloads on the parts of their segments in `j` restrict what they list on the parts in `i`. -/
theorem cutsTo_pieces (ht : Tiles segments) (hi : i.isValid = true) (hj : j.isValid = true)
    (hij : j.points ⊆ i.points)
    (h : ∀ whole ∈ pieces segments i, ∀ part : Interval α, part.isValid = true →
      part.points ⊆ whole.range.points → whole.payload.RestrictsTo whole.range part) :
    CutsTo j ((pieces segments i).flatMap fun s => s.payload.listedKnots s.range)
      (.combine ((pieces segments j).map fun s => s.payload.knotReport s.range))
      ((pieces segments j).flatMap fun s => s.payload.listedKnots s.range) := by
  have hrestricts {whole part : Segment α (Fn α)} (hwhole : whole ∈ pieces segments i)
      (hcut : CutFrom j whole part) : part.payload.RestrictsTo whole.range part.range :=
    hcut.payload ▸ h whole hwhole part.range hcut.valid (hcut.points ▸ Set.inter_subset_left)
  refine ⟨KnotReport.isFinite_combine.2 (List.forall_mem_map.2 fun part hpart => ?_),
    fun y hy => ?_, Set.ext fun p => ?_⟩
  · obtain ⟨whole, hwhole, hcut⟩ := exists_whole ht hi hj hij hpart
    exact (hrestricts hwhole hcut).finite
  · obtain ⟨part, hpart, hy⟩ := List.mem_flatMap.1 hy
    obtain ⟨whole, hwhole, hcut⟩ := exists_whole ht hi hj hij hpart
    exact (hrestricts hwhole hcut).numbers y hy
  · rw [Set.mem_inter_iff, mem_pointsOf_flatMap, mem_pointsOf_flatMap]
    constructor
    · rintro ⟨part, hpart, hp⟩
      obtain ⟨whole, hwhole, hcut⟩ := exists_whole ht hi hj hij hpart
      rw [(hrestricts hwhole hcut).points, hcut.points] at hp
      exact ⟨⟨whole, hwhole, hcut.payload ▸ hp.1⟩, hp.2.2⟩
    · rintro ⟨⟨whole, hwhole, hp⟩, hpj⟩
      -- a part has no knots outside of it
      have hpw : p ∈ whole.range.points := by
        have hwv := (pieces_subset ht.valid hi hwhole).1
        rw [(h whole hwhole whole.range hwv subset_rfl).points] at hp
        exact hp.2
      obtain ⟨part, hpart, hcut⟩ := exists_part ht hi hj hij hwhole hpw hpj
      refine ⟨part, hpart, ?_⟩
      rw [(hrestricts hwhole hcut).points, hcut.points, hcut.payload]
      exact ⟨hp, hpw, hpj⟩

theorem restrictsTo_piecewise (ht : Tiles segments) (hi : i.isValid = true)
    (hj : j.isValid = true) (hij : j.points ⊆ i.points)
    (h : ((piecewise segments).knotReport i).isFinite = true)
    (ih : ∀ s ∈ segments, ∀ whole part : Interval α, whole.isValid = true → part.isValid = true →
      part.points ⊆ whole.points → (s.payload.knotReport whole).isFinite = true →
        s.payload.RestrictsTo whole part) :
    (piecewise segments).RestrictsTo i j := by
  have hip := Interval.isProper_of_isValid hi
  have hjp := Interval.isProper_of_isValid hj
  obtain ⟨domain, hdomain⟩ := ht.exists_hull
  obtain ⟨hcovers, hfinite⟩ := (isFinite_piecewise hdomain).1 h
  have hcovers' := covers_of_subset ht hdomain hip hj hij hcovers
  have hpieces := cutsTo_pieces ht hi hj hij fun whole hwhole part hpv hsub => by
    have hwv := (pieces_subset ht.valid hi hwhole).1
    have hwf := hfinite whole hwhole
    obtain ⟨s, hs, -, hpayload⟩ := mem_pieces.1 hwhole
    rw [← hpayload] at hwf ⊢
    exact ih s hs whole.range part hwv hpv hsub hwf
  have hbounds : ∀ x ∈ boundaries segments, Scalar.isNaN x = false := fun x => isNaN_boundaries ht
  unfold RestrictsTo
  rw [listedKnots_piecewise hdomain hcovers, listedKnots_piecewise hdomain hcovers']
  refine ⟨?_, ?_, ?_⟩
  · have hreports := KnotReport.isFinite_combine.1 hpieces.finite
    exact (isFinite_piecewise hdomain).2 ⟨hcovers', List.forall_mem_map.1 hreports⟩
  · rw [List.forall_mem_append]
    exact ⟨fun x hx => hbounds x (List.mem_of_mem_filter hx), hpieces.numbers⟩
  · rw [pointsOf_append, pointsOf_append, hpieces.points, pointsOf_filter_contains hip hbounds,
      pointsOf_filter_contains hjp hbounds, Set.union_inter_distrib_right, Set.inter_assoc,
      Set.inter_eq_self_of_subset_right hij]

/-- On a part of an interval on which the knots can be listed, a function has those that lie in
it. -/
theorem restrictsTo (hw : f.WellFormed) (hi : i.isValid = true) (hj : j.isValid = true)
    (hij : j.points ⊆ i.points) (h : (f.knotReport i).isFinite = true) : f.RestrictsTo i j := by
  induction hw generalizing i j with
  | @value f v hv =>
    refine restrictsTo_of_noKnots fun i => ?_
    cases f <;> first | rfl | cases hv
  | undefined =>
    have hlist (l : Interval α) (hl : (undefinedReport l).isFinite = true) :
        (undefined : Fn α).listedKnots l = undefinedKnots l := by
      unfold undefinedReport at hl
      split_ifs at hl with hpoint
      · simp [listedKnots, undefinedReport, undefinedKnots, hpoint]
      · cases hl
    have hcut := cutsTo_undefined hi hj hij h
    unfold RestrictsTo
    rwa [hlist i h, hlist j hcut.finite]
  | plain => exact restrictsTo_plain hi hj hij h
  | chain _ ih => exact restrictsTo_chain h fun h => ih hi hj hij h
  | @sum ts _ ih =>
    rw [knotReport_sum, KnotReport.isFinite_combine, List.forall_mem_map] at h
    unfold RestrictsTo
    rw [knotReport_sum, listedKnots_sum, listedKnots_sum]
    exact cutsTo_parts fun t ht => ih t ht hi hj hij (h t ht)
  | @product fs _ _ ih =>
    rw [knotReport_product, KnotReport.isFinite_combine, List.forall_mem_map] at h
    unfold RestrictsTo
    rw [knotReport_product, listedKnots_product, listedKnots_product]
    exact cutsTo_parts fun g hg => ih g hg hi hj hij (h g hg)
  | quotient _ _ ihn => exact restrictsTo_quotient hi hj hij h fun h => ihn hi hj hij h
  | @piecewise segments htiles _ ih =>
    exact restrictsTo_piecewise htiles hi hj hij h fun s hs whole part hwv hpv hsub h =>
      ih s hs hwv hpv hsub h

omit [LineScalar α] in
/-- Where knots can be listed, the list is sorted and has no repetitions. -/
theorem knots_eq_sortDistinct (h : (f.knotReport i).isFinite = true) :
    f.knots i = .ok (sortDistinct (f.listedKnots i)) := by
  unfold knots listedKnots
  cases hr : f.knotReport i with
  | noKnots => exact congrArg Except.ok (List.perm_nil.1 (sortStable_perm _ _)).symm
  | finite => rfl
  | infinite | unknown =>
    rw [hr] at h
    cases h

omit [LineScalar α] in
theorem isFinite_knotReport :
    (f.knotReport i).isFinite = true ↔ f.knotReport i = .noKnots ∨ f.knotReport i = .finite := by
  cases f.knotReport i <;> simp [KnotReport.isFinite]

/-- If there are no knots on an interval, or finitely many, then so it is on each interval that it
covers, and the knots there are the ones that lie in the covered interval. -/
theorem knots_restrict (hw : f.WellFormed) (hi : i.isValid = true) (hj : j.isValid = true)
    (hij : i.covers j = true) (h : f.knotReport i = .noKnots ∨ f.knotReport i = .finite) :
    (f.knotReport j = .noKnots ∨ f.knotReport j = .finite) ∧
      ∃ ks ls, f.knots i = .ok ks ∧ f.knots j = .ok ls ∧
        List.Forall₂ (fun l k => (l == k) = true) ls (ks.filter j.contains) := by
  have hip := Interval.isProper_of_isValid hi
  have hjp := Interval.isProper_of_isValid hj
  rw [← isFinite_knotReport] at h ⊢
  have hself := restrictsTo hw hi hi subset_rfl h
  have hcut := restrictsTo hw hi hj (Interval.points_subset_of_covers hip hjp hij) h
  refine ⟨hcut.finite, _, _, knots_eq_sortDistinct h, knots_eq_sortDistinct hcut.finite, ?_⟩
  have hls := isListing_sortDistinct hcut.numbers
  have hks := (isListing_sortDistinct hself.numbers).filter hjp
  rw [hcut.points] at hls
  exact hls.unique hks

/-- Of the knots of a function with a jump at one, only zero is left below one. -/
theorem knots_restrict_doubles :
    let f : Fn Float := piecewise [⟨⟨-2, true, 1, false⟩, unary (.power (-1)) 1 none⟩,
      ⟨⟨1, true, 3, true⟩, unary .exponential 1 none⟩]
    let i : Interval Float := .closed (-1) 2
    let j : Interval Float := ⟨-1, false, 1, false⟩
    f.WellFormed ∧ i.isValid = true ∧ j.isValid = true ∧ i.covers j = true ∧
      f.knotReport i = .finite ∧ f.knots i = .ok [0, 1] ∧
      ∃ ls, f.knots j = .ok ls ∧
        List.Forall₂ (fun l k => (l == k) = true) ls ([0, 1].filter j.contains) := by
  intro f i j
  have hw : f.WellFormed := by
    refine .piecewise ⟨by simp, ?_, ?_⟩ (by simpa using ⟨.plain, .plain⟩)
    · decide +kernel
    · exact .cons_cons ⟨rfl, rfl⟩ (.singleton _)
  have hi : i.isValid = true := by decide +kernel
  have hj : j.isValid = true := by decide +kernel
  have hij : i.covers j = true := by decide +kernel
  have hreport : f.knotReport i = .finite := by decide +kernel
  have hlisted : sortDistinct (f.listedKnots i) = [0, 1] := by decide +kernel
  have hknots : f.knots i = .ok [0, 1] := by
    rw [knots_eq_sortDistinct (by simp [hreport, KnotReport.isFinite]), hlisted]
  obtain ⟨-, ks, ls, hks, hls, hall⟩ := knots_restrict hw hi hj hij (.inr hreport)
  obtain rfl : [0, 1] = ks := Except.ok.inj (hknots.symm.trans hks)
  exact ⟨hw, hi, hj, hij, hreport, hknots, ls, hls, hall⟩

end Fn

end FunctionAlgebra
