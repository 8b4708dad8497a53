import FunctionAlgebra.Fn.Rebuild
import FunctionAlgebra.Proofs.Indistinguishable
import FunctionAlgebra.Proofs.Recursion
import FunctionAlgebra.Proofs.Stored

/-!
# Operations keep the segments

A piecewise function is rebuilt from segments with new payloads. Whether segments are tiles is told
by their ranges alone, so sorting, checking and filling gaps leaves the renewed segments as they
are.

## Main statements

* `Tiles.of_ranges` — segments with the ranges of tiles are tiles.
* `Fn.mapPayloads_eq` — a rebuilt function has the old ranges with the new payloads.
* `Fn.mapPayloads_keeps_segments` — derivatives, simplification and scaling keep the segments of a
  piecewise function and apply to each payload.
-/

namespace FunctionAlgebra

namespace Attempt

variable {α β γ : Type}

theorem ofExcept_bind (r : Except (Failure α) β) (f : β → Except (Failure α) γ) :
    ofExcept (r >>= f) = ofExcept r >>= fun x => ofExcept (f x) := by
  cases r <;> rfl

theorem ofExcept_map (r : Except (Failure α) β) (f : β → γ) :
    ofExcept (f <$> r) = f <$> ofExcept r := by
  cases r <;> rfl

theorem ofExcept_mapM (f : β → Except (Failure α) γ) (xs : List β) :
    ofExcept (xs.mapM f) = xs.mapM fun x => ofExcept (f x) := by
  induction xs with
  | nil => rfl
  | cons x xs ih => simp only [List.mapM_cons, ofExcept_bind, ih]; rfl

end Attempt

variable {α : Type} [Scalar α]

section Segments

variable {β γ : Type} [LineScalar α]

/-- Segments are tiles if they have the ranges of tiles. -/
theorem Tiles.of_ranges {segments : List (Segment α β)} {others : List (Segment α γ)}
    (h : Tiles segments) (hranges : others.map (·.range) = segments.map (·.range)) :
    Tiles others where
  nonempty := by
    rintro rfl
    exact h.nonempty (List.map_eq_nil_iff.1 hranges.symm)
  valid t ht := by
    have hmem : t.range ∈ segments.map (·.range) := hranges ▸ List.mem_map_of_mem ht
    obtain ⟨s, hs, hst⟩ := List.mem_map.1 hmem
    exact hst ▸ h.valid s hs
  adjoins := by
    have hchain : (segments.map (·.range)).IsChain Interval.Adjoins :=
      (List.isChain_map _).2 h.adjoins
    rw [← hranges] at hchain
    exact (List.isChain_map _).1 hchain

/-- The bounds of a valid segment pass the check that is made again. -/
theorem Segment.withPayload_eq {s : Segment α β} (h : s.range.isValid = true) (payload : γ) :
    s.withPayload payload = .ok ⟨s.range, payload⟩ := by
  rw [withPayload, Interval.make_eq_ok_iff.2 ⟨rfl, h⟩]
  rfl

end Segments

namespace Fn

def renew (segments : List (Segment α (Fn α))) (payloads : List (Fn α)) :
    List (Segment α (Fn α)) :=
  List.zipWith (fun s f => ⟨s.range, f⟩) segments payloads

variable {segments : List (Segment α (Fn α))} {payloads : List (Fn α)}

omit [Scalar α] in
theorem renew_ranges (h : payloads.length = segments.length) :
    (renew segments payloads).map (·.range) = segments.map (·.range) := by
  induction segments generalizing payloads with
  | nil => rfl
  | cons s rest ih =>
    obtain ⟨f, fs, rfl⟩ := List.exists_cons_of_length_eq_add_one h
    exact congrArg (s.range :: ·) (ih (Nat.succ.inj h))

omit [Scalar α] in
theorem renew_payloads (segments : List (Segment α (Fn α))) :
    renew segments (segments.map (·.payload)) = segments := by
  induction segments with
  | nil => rfl
  | cons s rest ih => exact congrArg (s :: ·) ih

/-- Segments are renewed one by one. -/
theorem mapM_withPayload [LineScalar α] (hv : ∀ s ∈ segments, s.range.isValid = true)
    (payloads : List (Fn α)) :
    (segments.zip payloads).mapM (fun (s, f) => s.withPayload f) =
      (.ok (renew segments payloads) : Except (Failure α) _) := by
  rw [exceptMapM_eq_ok_iff]
  induction segments generalizing payloads with
  | nil => exact .nil
  | cons s rest ih =>
    rw [List.forall_mem_cons] at hv
    cases payloads with
    | nil => exact .nil
    | cons f fs => exact .cons (s.withPayload_eq hv.1 f) (ih hv.2 fs)

omit [Scalar α] in
/-- To apply an operation to each payload is to apply it to all of them and to renew the
segments. -/
theorem mapM_payload (op : Fn α → Attempt α (Fn α)) (segments : List (Segment α (Fn α))) :
    segments.mapM (fun s => Segment.mk s.range <$> op s.payload) =
      renew segments <$> segments.mapM (op ·.payload) := by
  induction segments with
  | nil => rw [List.mapM_nil, List.mapM_nil, map_pure]; rfl
  | cons s rest ih =>
    rw [List.mapM_cons, List.mapM_cons, ih]
    simp [renew]

section Rebuilt

variable [LineScalar α] [FaithfulScalar α]

/-- A rebuilt function has the old ranges with the new payloads. It is rebuilt whenever the
operation succeeds on the payloads. -/
theorem mapPayloads_eq (h : Tiles segments) (op : Fn α → Attempt α (Fn α)) :
    mapPayloads op segments =
      piecewise <$> segments.mapM fun s => Segment.mk s.range <$> op s.payload := by
  rw [mapM_payload, ← comp_map, map_eq_pure_bind, mapPayloads]
  refine Attempt.bind_congr_of_ok fun payloads hpayloads => ?_
  have hlength : payloads.length = segments.length :=
    (Attempt.mapM_eq_ok_iff.1 hpayloads).length_eq.symm
  split_ifs with hsame
  · have hold : payloads = segments.map (·.payload) :=
      eq_of_forall₂ (fun f _ g => Fn.eq_of_same) (sameAll_iff_forall₂.1 hsame)
    rw [hold, Function.comp_apply, renew_payloads]
  · have htiles : Tiles (renew segments payloads) := h.of_ranges (renew_ranges hlength)
    rw [mapM_withPayload h.valid]
    change Attempt.ofExcept (ofSegments (renew segments payloads)) = _
    rw [ofSegments_of_tiles htiles]
    rfl

/-- A rebuilt function has as many segments as before, with the same ranges in the same order. -/
theorem exists_mapPayloads (h : Tiles segments) {op : Fn α → Attempt α (Fn α)}
    (hop : ∀ s ∈ segments, ∃ g, (op s.payload).outcome = .ok g) :
    ∃ renewed, (mapPayloads op segments).outcome = .ok (piecewise renewed) ∧
      List.Forall₂ (fun s t => t.range = s.range ∧ (op s.payload).outcome = .ok t.payload)
        segments renewed := by
  have hparts : (segments.mapM fun s => Segment.mk s.range <$> op s.payload).Meets
      (fun _ => False)
      (List.Forall₂ (fun s t => t.range = s.range ∧ (op s.payload).outcome = .ok t.payload)
        segments) := by
    refine Attempt.Meets.mapM fun s hs => ?_
    obtain ⟨g, hg⟩ := hop s hs
    rw [map_eq_pure_bind]
    refine (Attempt.Meets.of_eq_ok hg).bind fun f hf => .pure ⟨rfl, ?_⟩
    exact hf ▸ hg
  obtain ⟨renewed, hrenewed, hrel⟩ := hparts.exists_ok
  refine ⟨renewed, ?_, hrel⟩
  rw [mapPayloads_eq h]
  exact Attempt.map_eq_ok_iff.2 ⟨renewed, hrenewed, rfl⟩

/-! ## Derivatives, simplification and scaling -/

theorem derivative_eq_mapPayloads (h : Tiles segments) :
    (piecewise segments).derivative = mapPayloads derivative segments := by
  rw [mapPayloads_eq h, derivative, segmentDerivatives_eq_mapM, map_eq_pure_bind]
  simp only [map_eq_pure_bind]
  rfl

theorem simplify_eq_mapPayloads (h : Tiles segments) :
    (piecewise segments).simplify = mapPayloads simplify segments := by
  rw [mapPayloads_eq h, simplify_eq_simplifyStep, simplifyStep, map_eq_pure_bind]
  simp only [map_eq_pure_bind]
  rfl

omit [LineScalar α] [FaithfulScalar α] in
theorem checkedScaleBy_of_beq_one {c : α} (h0 : (c == 0) = false) (h1 : (c == 1) = true)
    (f : Fn α) : f.checkedScaleBy c = .ok f := by
  cases f <;> simp [checkedScaleBy, scaleBy, h0, h1]

omit [LineScalar α] [FaithfulScalar α] in
theorem checkedScalePayloads_eq_mapM (c : α) (segments : List (Segment α (Fn α))) :
    checkedScalePayloads c segments =
      segments.mapM fun s => Segment.mk s.range <$> s.payload.checkedScaleBy c := by
  induction segments with
  | nil => rw [checkedScalePayloads, List.mapM_nil]; rfl
  | cons s rest ih =>
    rw [checkedScalePayloads, List.mapM_cons, ih]
    simp

/-- Multiples are rebuilt like any other result, also where scaling takes a short cut. -/
theorem checkedScaleBy_eq_mapPayloads (h : Tiles segments) {c : α} (hc : (c == 0) = false) :
    Attempt.ofExcept ((piecewise segments).checkedScaleBy c) =
      mapPayloads (fun f => .ofExcept (f.checkedScaleBy c)) segments := by
  have hscale : (segments.mapM fun s =>
      Segment.mk s.range <$> Attempt.ofExcept (s.payload.checkedScaleBy c)) =
        Attempt.ofExcept (checkedScalePayloads c segments) := by
    simp only [checkedScalePayloads_eq_mapM, Attempt.ofExcept_mapM, Attempt.ofExcept_map]
  rw [mapPayloads_eq h, hscale, checkedScaleBy, hc, if_neg Bool.false_ne_true]
  split_ifs with h1
  · have hself : checkedScalePayloads c segments = .ok segments := by
      rw [checkedScalePayloads_eq_mapM, exceptMapM_eq_ok_iff, List.forall₂_same]
      intro s _
      rw [checkedScaleBy_of_beq_one hc h1]
      rfl
    rw [hself]
    rfl
  · rw [Attempt.ofExcept_bind, map_eq_pure_bind]
    refine Attempt.bind_congr_of_ok fun renewed hrenewed => ?_
    rw [Attempt.outcome_ofExcept, checkedScalePayloads_eq_mapM, exceptMapM_eq_ok_iff] at hrenewed
    have hrange : List.Forall₂ (fun s t => s.range = t.range) segments renewed := by
      refine hrenewed.imp fun s t hst => ?_
      rw [← bind_pure_comp, exceptBind_eq_ok_iff] at hst
      obtain ⟨g, -, hg⟩ := hst
      exact congrArg (·.range) (Except.ok.inj hg)
    have hranges : segments.map (·.range) = renewed.map (·.range) := by
      rwa [← List.forall₂_eq_eq_eq, List.forall₂_map_left_iff, List.forall₂_map_right_iff]
    rw [ofSegments_of_tiles (h.of_ranges hranges.symm)]
    rfl

/-- A piecewise function is made of its own segments, and operations on it keep their number, their
bounds and their order: no gap is added or lost. Rebuilding it from the segments with the results
for the payloads succeeds whenever the operation succeeds on the payloads. Derivatives,
simplification and multiples with a factor other than zero are rebuilt in this way. -/
theorem mapPayloads_keeps_segments {given : List (Segment α (Fn α))}
    (hv : ∀ s ∈ given, s.range.isValid = true) (h : ofSegments given = .ok (piecewise segments)) :
    ofSegments segments = .ok (piecewise segments) ∧
    (∀ op : Fn α → Attempt α (Fn α), (∀ s ∈ segments, ∃ g, (op s.payload).outcome = .ok g) →
      ∃ renewed, (mapPayloads op segments).outcome = .ok (piecewise renewed) ∧
        List.Forall₂ (fun s t => t.range = s.range ∧ (op s.payload).outcome = .ok t.payload)
          segments renewed) ∧
    (piecewise segments).derivative = mapPayloads derivative segments ∧
    (piecewise segments).simplify = mapPayloads simplify segments ∧
    ∀ c : α, (c == 0) = false → Attempt.ofExcept ((piecewise segments).checkedScaleBy c) =
      mapPayloads (fun f => .ofExcept (f.checkedScaleBy c)) segments := by
  obtain ⟨-, -, tiles, hsegments, htiles, -⟩ := ofSegments_eq_ok hv h
  obtain rfl : segments = tiles := by injection hsegments
  exact ⟨ofSegments_of_tiles htiles, fun op => exists_mapPayloads htiles,
    derivative_eq_mapPayloads htiles, simplify_eq_mapPayloads htiles,
    fun c => checkedScaleBy_eq_mapPayloads htiles⟩

theorem mapPayloads_keeps_segments_doubles :
    let given : List (Segment Float (Fn Float)) :=
      [⟨⟨1, false, 2, true⟩, identity⟩, ⟨⟨-1, true, 0.5, false⟩, const 3⟩]
    let segments : List (Segment Float (Fn Float)) :=
      [⟨⟨-1, true, 0.5, false⟩, const 3⟩, ⟨⟨0.5, true, 1, true⟩, undefined⟩,
        ⟨⟨1, false, 2, true⟩, identity⟩]
    ofSegments given = .ok (piecewise segments) ∧
      ∃ renewed, (mapPayloads (fun f => .ofExcept (f.checkedScaleBy 2)) segments).outcome =
        .ok (piecewise renewed) ∧ renewed.length = 3 := by
  intro given segments
  have hgiven : ofSegments given = .ok (piecewise segments) := eq_ok_of_same (by decide +kernel)
  have hv : ∀ s ∈ given, s.range.isValid = true := by decide +kernel
  obtain ⟨-, hop, -⟩ := mapPayloads_keeps_segments hv hgiven
  obtain ⟨renewed, hrenewed, hrel⟩ := hop (fun f => .ofExcept (f.checkedScaleBy 2)) (by
    simp [segments, identity, checkedScaleBy])
  exact ⟨hgiven, renewed, hrenewed, hrel.length_eq.symm⟩

end Rebuilt

end Fn

end FunctionAlgebra
