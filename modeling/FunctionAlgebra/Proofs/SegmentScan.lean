import FunctionAlgebra.Proofs.SegmentLookup

/-!
# Evaluation agrees with a scan

A piecewise function is evaluated by way of a binary search, which tries two segments. Its value is
what a scan of all segments gives: at most one of them contains the point, and that one is found.

## Main statements

* `Tiles.filter_contains` — the tile that contains a point is the only one.
* `Fn.evaluate_eq_error` — evaluation fails only outside the domain of a piecewise function.
* `Fn.evaluate_ofSegments` — the value of a piecewise function is that of the one segment which
  contains the point.
-/

namespace FunctionAlgebra

open LineScalar (lt_eq)

section Search

variable {α β : Type} [Scalar α] {segments : List (Segment α β)} {x : α} {k : Nat}

/-- A range that is found contains the point. -/
theorem contains_of_locate? {ranges : Array (Interval α)} (h : locate? ranges x = some k) :
    ∃ r, ranges[k]? = some r ∧ r.contains x = true := by
  have := List.find?_some h
  rwa [Option.any_eq_true] at this

/-- What is visited is a segment that contains the point. -/
theorem contains_of_visited? (h : visited? segments x = some k) :
    ∃ s, segments[k]? = some s ∧ s.range.contains x = true := by
  unfold visited? at h
  split at h
  · cases h
  · split_ifs at h
    obtain ⟨r, hr, hx⟩ := contains_of_locate? h
    rw [List.getElem?_toArray, List.getElem?_map, Option.map_eq_some_iff] at hr
    obtain ⟨s, hs, rfl⟩ := hr
    exact ⟨s, hs, hx⟩

end Search

/-- The tile that contains a point is the only one. -/
theorem Tiles.filter_contains {α β : Type} [Scalar α] [LineScalar α]
    {segments : List (Segment α β)} (h : Tiles segments) {x : α} (hx : Scalar.isNaN x = false)
    {s : Segment α β} (hs : s ∈ segments) (hsx : s.range.contains x = true) :
    segments.filter (·.range.contains x) = [s] := by
  have hmem (t) (ht : t ∈ segments) (htx : t.range.contains x = true) :
      LineScalar.toEReal x ∈ t.range.points :=
    (Interval.contains_iff (Interval.isProper_of_isValid (h.valid t ht)) hx).1 htx
  have hsx' := hmem s hs hsx
  obtain ⟨before, behind, rfl⟩ := List.append_of_mem hs
  obtain ⟨-, hbehind, hbefore⟩ := List.pairwise_append.1 h.pairwise_before
  -- a tile on either side lies apart from `s`, so that it does not contain the point
  have hleft : before.filter (·.range.contains x) = [] := by
    refine List.filter_eq_nil_iff.2 fun t ht htx => ?_
    exact (hbefore t ht s (by simp) _ (hmem t (by simp [ht]) htx) _ hsx').false
  have hright : behind.filter (·.range.contains x) = [] := by
    refine List.filter_eq_nil_iff.2 fun t ht htx => ?_
    exact (List.rel_of_pairwise_cons hbehind ht _ hsx' _ (hmem t (by simp [ht]) htx)).false
  rw [List.filter_append, hleft, List.filter_cons, if_pos hsx, hright, List.nil_append]

namespace Fn

variable {α : Type} [Scalar α]

/-! ## Failures -/

def IsOutside (x : α) (e : Failure α) : Prop :=
  ∃ low high, e = .outsideDomain x low high ∧ (Scalar.lt x low = true ∨ Scalar.lt high x = true)

variable {x : α} {e : Failure α}

theorem bind_isOutside {β : Type} {y : Except (Failure α) α} {rest : α → Except (Failure α) β}
    (hy : y = .error e → IsOutside x e) (hrest : ∀ a, rest a = .error e → IsOutside x e)
    (h : y.bind rest = .error e) : IsOutside x e := by
  cases y with
  | error e' => exact hy (congrArg _ (Except.error.inj h))
  | ok a => exact hrest a h

theorem sumAt_isOutside {ts : List (Fn α)}
    (h : ∀ t ∈ ts, t.evaluate x = .error e → IsOutside x e) (total : α)
    (he : sumAt x total ts = .error e) : IsOutside x e := by
  induction ts generalizing total with
  | nil => cases he
  | cons t ts ih =>
    obtain ⟨ht, hts⟩ := List.forall_mem_cons.1 h
    exact bind_isOutside ht (fun a => ih hts _) he

theorem productAt_isOutside {fs : List (Fn α)}
    (h : ∀ f ∈ fs, f.evaluate x = .error e → IsOutside x e) (total : α)
    (he : productAt x total fs = .error e) : IsOutside x e := by
  induction fs generalizing total with
  | nil => cases he
  | cons f fs ih =>
    obtain ⟨hf, hfs⟩ := List.forall_mem_cons.1 h
    exact bind_isOutside hf (fun a => ih hfs _) he

theorem payloadAt_isOutside {segments : List (Segment α (Fn α))}
    (h : ∀ s ∈ segments, s.payload.evaluate x = .error e → IsOutside x e) (k : Nat)
    (he : payloadAt x k segments = .error e) : IsOutside x e := by
  induction segments generalizing k with
  | nil => cases he
  | cons s rest ih =>
    obtain ⟨hs, hrest⟩ := List.forall_mem_cons.1 h
    cases k with
    | zero => exact hs he
    | succ k => exact ih hrest k he

/-- Evaluation fails only outside the domain of a piecewise function. -/
theorem evaluate_eq_error {f : Fn α} (h : f.evaluate x = .error e) : IsOutside x e := by
  induction f with
  | zero | one | const v | undefined | plain k s => cases h
  | chain k s f ih =>
    rw [evaluate] at h
    split_ifs at h
    exact bind_isOutside ih (fun a ha => by cases ha) h
  | sum ts ih => exact sumAt_isOutside ih 0 h
  | product fs ih => exact productAt_isOutside ih 1 h
  | quotient n d ihn ihd =>
    exact bind_isOutside ihn (fun a => bind_isOutside ihd fun b hb => by cases hb) h
  | piecewise segments ih =>
    rw [evaluate] at h
    split_ifs at h
    split at h
    · cases h
    · rename_i domain hdomain
      split_ifs at h with hout
      · obtain rfl := Except.error.inj h
        exact ⟨_, _, rfl, by simpa using hout⟩
      · split at h
        · cases h
        · exact payloadAt_isOutside ih _ h

/-! ## Values -/

section Lookup

variable {segments : List (Segment α (Fn α))} {domain : Interval α}

theorem evaluate_of_outside (hx : Scalar.isNaN x = false) (hd : hull? segments = some domain)
    (hout : Scalar.lt x domain.low = true ∨ Scalar.lt domain.high x = true) :
    (piecewise segments).evaluate x = .error (.outsideDomain x domain.low domain.high) := by
  rw [evaluate, if_neg (by simp [hx]), hd]
  exact if_pos (by simpa using hout)

/-- Where no segment contains the point, none is found. -/
theorem evaluate_of_hole (hx : Scalar.isNaN x = false) (hd : hull? segments = some domain)
    (hin : ¬ (Scalar.lt x domain.low = true ∨ Scalar.lt domain.high x = true))
    (hnone : ∀ s ∈ segments, s.range.contains x = false) :
    (piecewise segments).evaluate x = .ok Scalar.nan := by
  have hvisited : visited? segments x = none := by
    cases hv : visited? segments x with
    | none => rfl
    | some k =>
      obtain ⟨s, hs, hsx⟩ := contains_of_visited? hv
      simp [hnone s (List.mem_of_getElem? hs)] at hsx
  rw [← Bool.or_eq_true] at hin
  simp only [visited?, hd, if_neg hin] at hvisited
  simp only [evaluate, if_neg (Bool.eq_false_iff.1 hx), hd, if_neg hin, hvisited]

end Lookup

variable [LineScalar α]

/-- The value of a tile is that of its payload. -/
theorem evaluate_of_contains {segments : List (Segment α (Fn α))} (h : Tiles segments)
    (hx : Scalar.isNaN x = false) {s : Segment α (Fn α)} (hs : s ∈ segments)
    (hsx : s.range.contains x = true) :
    (piecewise segments).evaluate x = s.payload.evaluate x := by
  obtain ⟨k, hk⟩ := List.mem_iff_getElem?.1 hs
  have hmem := (Interval.contains_iff (Interval.isProper_of_isValid (h.valid s hs)) hx).1 hsx
  exact evaluate_piecewise hx (h.visited?_eq_some hx hk hmem) hk

/-- A piecewise function fails with its own domain at the points outside of it, and there only.
Elsewhere at most one segment contains the point. The value, or the failure, is that of its payload,
and NaN where there is none. -/
theorem evaluate_ofSegments {given : List (Segment α (Fn α))} {f : Fn α}
    (hv : ∀ s ∈ given, s.range.isValid = true) (h : ofSegments given = .ok f) {x : α}
    (hx : Scalar.isNaN x = false) :
    ∃ segments domain, f = piecewise segments ∧ f.domain = some domain ∧
      (f.evaluate x = .error (.outsideDomain x domain.low domain.high) ↔
        Scalar.lt x domain.low = true ∨ Scalar.lt domain.high x = true) ∧
      (¬ (Scalar.lt x domain.low = true ∨ Scalar.lt domain.high x = true) →
        (∀ s ∈ segments, s.range.contains x = true →
          segments.filter (·.range.contains x) = [s] ∧ f.evaluate x = s.payload.evaluate x) ∧
        ((∀ s ∈ segments, s.range.contains x = false) → f.evaluate x = .ok Scalar.nan)) := by
  obtain ⟨-, -, segments, rfl, htiles, -⟩ := ofSegments_eq_ok hv h
  obtain ⟨domain, hd⟩ := htiles.exists_hull
  refine ⟨segments, domain, rfl, hd, ⟨fun he => ?_, evaluate_of_outside hx hd⟩, fun hin =>
    ⟨fun s hs hsx => ⟨htiles.filter_contains hx hs hsx, evaluate_of_contains htiles hx hs hsx⟩,
      evaluate_of_hole hx hd hin⟩⟩
  -- a payload fails in these words only if its own domain has these bounds
  obtain ⟨low, high, heq, hout⟩ := evaluate_eq_error he
  obtain ⟨-, rfl, rfl⟩ := Failure.outsideDomain.inj heq
  exact hout

/-- The common bound of two segments, of which the second one is closed there, and infinity, which
is the open end of the second one. -/
theorem evaluate_ofSegments_half_open :
    let first : Segment Float (Fn Float) := ⟨⟨0, true, 1, false⟩, zero⟩
    let second : Segment Float (Fn Float) := ⟨⟨1, true, Scalar.infinity, false⟩, one⟩
    ∃ f, ofSegments [first, second] = .ok f ∧ f.evaluate 1 = second.payload.evaluate 1 ∧
      f.evaluate Scalar.infinity = .ok Scalar.nan := by
  intro first second
  have hv : ∀ s ∈ [first, second], s.range.isValid = true := by decide +kernel
  have h : ofSegments [first, second] = .ok (piecewise [first, second]) := by
    subst first second
    with_unfolding_all rfl
  refine ⟨_, h, ?_, ?_⟩
  · obtain ⟨segments, domain, hs, hd, -, hin⟩ :=
      evaluate_ofSegments hv h (x := 1) (by decide +kernel)
    obtain rfl := piecewise.inj hs
    obtain rfl := Option.some.inj hd
    exact ((hin (by decide +kernel)).1 second (by simp) (by decide +kernel)).2
  · obtain ⟨segments, domain, hs, hd, -, hin⟩ :=
      evaluate_ofSegments hv h (x := Scalar.infinity) (by decide +kernel)
    obtain rfl := piecewise.inj hs
    obtain rfl := Option.some.inj hd
    exact (hin (by decide +kernel)).2 (by decide +kernel)

end Fn

end FunctionAlgebra
