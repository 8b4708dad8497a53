import FunctionAlgebra.Fn.CheckedKnots
import FunctionAlgebra.Proofs.FiniteShifts
import FunctionAlgebra.Proofs.KnotRestriction

/-!
# Lists of knots follow their reports

A report and the positions of the knots come from two recursions. They stay in step: where the
report is finite, no position is asked of a part that does not know it, there is one to list, and
all of them lie in the interval.

## Main statements

* `Fn.exists_listedKnots` — finitely many knots are at least one.
* `Fn.collectKnots_eq` — where the report is finite, the positions can be read.
* `Fn.knots_follow_report` — the list of the knots as the report announces it.
* `Fn.knots_refused_otherwise` — a refusal for another cause.
-/

namespace FunctionAlgebra

open LineScalar (toEReal lt_eq)

namespace KnotReport

theorem combineWith_eq_finite {r s : KnotReport} (h : r.combineWith s = finite) :
    r = finite ∨ s = finite := by
  cases r <;> cases s <;> first | exact .inl rfl | exact .inr rfl | cases h

/-- Finitely many knots of some parts are knots of one of them. -/
theorem mem_of_combine_eq_finite {rs : List KnotReport} (h : combine rs = finite) :
    finite ∈ rs := by
  induction rs with
  | nil => cases h
  | cons r rs ih =>
    rw [combine_cons] at h
    rcases combineWith_eq_finite h with rfl | h
    · exact List.mem_cons_self
    · exact List.mem_cons_of_mem r (ih h)

end KnotReport

variable {α : Type} [Scalar α] {i : Interval α}

/-! ## There is a knot to list -/

theorem mem_undefinedKnots_of_report (h : undefinedReport i = .finite) :
    i.low ∈ undefinedKnots i := by
  unfold undefinedReport at h
  unfold undefinedKnots
  split_ifs at h ⊢ with hpoint
  exact List.mem_singleton_self _

theorem Kernel.exists_knots [LineScalar α] {k : Kernel α} (h : k.knotReport i = .finite) :
    ∃ x, x ∈ k.knots i := by
  rw [knotReport_eq] at h
  rw [knots_eq]
  split_ifs at h ⊢
  · exact ⟨_, mem_undefinedKnots_of_report h⟩
  · exact ⟨0, List.mem_singleton_self 0⟩

namespace Fn

theorem exists_listedKnots_piecewise {segments : List (Segment α (Fn α))}
    (h : (piecewise segments).knotReport i = .finite)
    (hs : ∀ s ∈ segments, ∀ {j}, s.payload.knotReport j = .finite →
      ∃ x, x ∈ s.payload.listedKnots j) :
    ∃ x, x ∈ (piecewise segments).listedKnots i := by
  cases hd : hull? segments with
  | none => simp [knotReport, hd] at h
  | some domain =>
    cases hcovers : domain.covers i with
    | false => simp [knotReport, hd, hcovers] at h
    | true =>
      rw [knotReport_piecewise hd hcovers] at h
      rw [listedKnots_piecewise hd hcovers]
      rcases KnotReport.combineWith_eq_finite h with hown | hpieces
      · split_ifs at hown with hany
        obtain ⟨x, hx, hin⟩ := List.any_eq_true.1 hany
        exact ⟨x, List.mem_append_left _ (List.mem_filter.2 ⟨hx, hin⟩)⟩
      · obtain ⟨piece, hpiece, hreport⟩ :=
          List.mem_map.1 (KnotReport.mem_of_combine_eq_finite hpieces)
        obtain ⟨s, hmem, -, hpayload⟩ := mem_pieces.1 hpiece
        obtain ⟨x, hx⟩ := hs s hmem (hpayload ▸ hreport)
        exact ⟨x, List.mem_append_right _
          (List.mem_flatMap.2 ⟨piece, hpiece, hpayload ▸ hx⟩)⟩

/-- Finitely many knots are at least one. -/
theorem exists_listedKnots [LineScalar α] {f : Fn α} (h : f.knotReport i = .finite) :
    ∃ x, x ∈ f.listedKnots i := by
  induction f generalizing i with
  | zero | one | const => cases h
  | undefined =>
    rw [listedKnots, h, if_neg (by decide)]
    exact ⟨_, List.mem_singleton_self _⟩
  | plain k s =>
    rw [knotReport_plain] at h
    split_ifs at h with h0
    rw [listedKnots_plain (Bool.eq_false_iff.2 h0)]
    exact Kernel.exists_knots h
  | chain k s f ih =>
    rw [knotReport_chain] at h
    split_ifs at h with h0 hk
    rw [listedKnots_chain (Bool.eq_false_iff.2 h0) hk]
    exact ih h
  | sum ts ih =>
    rw [knotReport_sum] at h
    obtain ⟨t, ht, hreport⟩ := List.mem_map.1 (KnotReport.mem_of_combine_eq_finite h)
    obtain ⟨x, hx⟩ := ih t ht hreport
    rw [listedKnots_sum]
    exact ⟨x, List.mem_flatMap.2 ⟨t, ht, hx⟩⟩
  | product fs ih =>
    rw [knotReport_product] at h
    obtain ⟨f, hf, hreport⟩ := List.mem_map.1 (KnotReport.mem_of_combine_eq_finite h)
    obtain ⟨x, hx⟩ := ih f hf hreport
    rw [listedKnots_product]
    exact ⟨x, List.mem_flatMap.2 ⟨f, hf, hx⟩⟩
  | quotient n d ihn =>
    cases hv : d.value? with
    | none =>
      rw [knotReport_quotient_of_none hv] at h
      cases h
    | some v =>
      have hreport := h
      rw [knotReport_quotient hv] at h
      split_ifs at h with h0
      · rw [listedKnots, hreport, if_neg (by decide), knotPositions_quotient hv, if_pos h0]
        exact ⟨_, mem_undefinedKnots_of_report h⟩
      · rw [listedKnots_quotient hv (Bool.eq_false_iff.2 h0)]
        exact ihn h
  | piecewise segments ih => exact exists_listedKnots_piecewise h fun s hs j => ih s hs

/-! ## Positions can be read -/

theorem askedFor_eq {f : Fn α} (h : f.collectKnots i = .ok (f.knotPositions i)) :
    askedFor (f.knotReport i) (f.collectKnots i) = .ok (f.listedKnots i) := by
  rw [askedFor, listedKnots, h]
  split_ifs <;> rfl

theorem collectAll_eq {fs : List (Fn α)}
    (h : ∀ f ∈ fs, f.collectKnots i = .ok (f.knotPositions i)) :
    collectAll fs i = .ok (fs.flatMap (listedKnots · i)) := by
  induction fs with
  | nil => rfl
  | cons f fs ih =>
    rw [List.forall_mem_cons] at h
    rw [collectAll, askedFor_eq h.1, ih h.2]
    rfl

variable [LineScalar α]

theorem collectInPieces_eq {segments : List (Segment α (Fn α))} (hi : i.isValid = true)
    (hv : ∀ s ∈ segments, s.range.isValid = true)
    (h : ∀ s ∈ pieces segments i, s.payload.collectKnots s.range =
      .ok (s.payload.knotPositions s.range)) :
    collectInPieces segments i =
      .ok ((pieces segments i).flatMap fun s => s.payload.listedKnots s.range) := by
  induction segments with
  | nil => rfl
  | cons s rest ih =>
    obtain ⟨range, f⟩ := s
    obtain ⟨hrange, hv⟩ := List.forall_mem_cons.1 hv
    have hclip : (⟨range, ()⟩ : Segment α Unit).checkedClip i = .ok _ :=
      Segment.checkedClip_eq hrange hi
    rw [collectInPieces, hclip]
    rw [pieces, List.filterMap_cons] at h ⊢
    cases hinter : range.inter? i with
    | none =>
      simp only [Segment.clip?, hinter, Option.map_none] at h ⊢
      exact ih hv h
    | some part =>
      simp only [Segment.clip?, hinter, Option.map_some, List.forall_mem_cons,
        List.flatMap_cons] at h ⊢
      change (do
        let own ← askedFor (f.knotReport part) (f.collectKnots part)
        return own ++ (← collectInPieces rest i)) = _
      rw [askedFor_eq h.1, ih hv h.2]
      rfl

/-- Where the report is finite, the positions can be read: no denominator without a value is
asked for it. -/
theorem collectKnots_eq {f : Fn α} (hw : f.WellFormed) (hi : i.isValid = true)
    (h : (f.knotReport i).isFinite = true) : f.collectKnots i = .ok (f.knotPositions i) := by
  induction hw generalizing i with
  | @value f v hv => cases f <;> cases hv <;> rfl
  | undefined | plain => rfl
  | @chain k s f hf ih =>
    rw [knotReport_chain] at h
    rw [collectKnots, knotPositions_chain]
    split_ifs at h ⊢ with h0 hk
    · rfl
    · exact askedFor_eq (ih hi h)
    · cases h
  | sum ht ih =>
    rw [knotReport_sum, KnotReport.isFinite_combine, List.forall_mem_map] at h
    rw [knotPositions_sum]
    exact collectAll_eq fun t hmem => ih t hmem hi (h t hmem)
  | product hne hf ih =>
    rw [knotReport_product, KnotReport.isFinite_combine, List.forall_mem_map] at h
    rw [knotPositions_product]
    exact collectAll_eq fun f hmem => ih f hmem hi (h f hmem)
  | @quotient n d hn hd ihn ihd =>
    cases hv : d.value? with
    | none =>
      rw [knotReport_quotient_of_none hv] at h
      cases h
    | some v =>
      rw [knotReport_quotient hv] at h
      rw [collectKnots, knotPositions_quotient hv, hv]
      dsimp only
      split_ifs at h ⊢
      · rfl
      · exact askedFor_eq (ihn hi h)
  | @piecewise segments htiles hs ih =>
    obtain ⟨domain, hd⟩ := htiles.exists_hull
    have hpieces := ((isFinite_piecewise hd).1 h).2
    rw [collectKnots, knotPositions_piecewise, collectInPieces_eq hi htiles.valid fun s hmem => ?_]
    · rfl
    obtain ⟨t, ht, hinter, hpayload⟩ := mem_pieces.1 hmem
    have hvalid := (Interval.inter?_eq_some (htiles.valid t ht) hi hinter).1
    have hreport := hpieces s hmem
    rw [← hpayload] at hreport ⊢
    exact ih t ht hvalid hreport

/-! ## The list follows the report -/

variable {f : Fn α}

omit [LineScalar α] in
theorem checkedKnots_of_noKnots (h : f.knotReport i = .noKnots) : f.checkedKnots i = .ok [] := by
  rw [checkedKnots, h]

/-- Finitely many knots are listed in ascending order, and all of them lie in the interval. -/
theorem checkedKnots_of_finite (hw : f.WellFormed) (hi : i.isValid = true)
    (h : f.knotReport i = .finite) : ∃ ks, f.checkedKnots i = .ok ks ∧ ks ≠ [] ∧
      ks.Pairwise (fun x y => Scalar.lt x y = true) ∧ ∀ x ∈ ks, i.contains x = true := by
  have hfinite : (f.knotReport i).isFinite = true := by rw [h]; rfl
  have hcut := restrictsTo hw hi hi subset_rfl hfinite
  have hlisting := isListing_sortDistinct hcut.numbers
  refine ⟨sortDistinct (f.listedKnots i), ?_, ?_, ?_, fun x hx => ?_⟩
  · rw [checkedKnots, listedKnots, h]
    dsimp only
    rw [collectKnots_eq hw hi hfinite]
    rfl
  · obtain ⟨x, hx⟩ := exists_listedKnots h
    obtain ⟨y, hy, -⟩ : toEReal x ∈ pointsOf (sortDistinct (f.listedKnots i)) :=
      hlisting.points ▸ ⟨x, hx, rfl⟩
    exact List.ne_nil_of_mem hy
  · refine hlisting.ascending.imp_of_mem fun {x y} hx hy hlt => ?_
    rw [lt_eq (hlisting.numbers x hx) (hlisting.numbers y hy), decide_eq_true_iff]
    exact hlt
  · have hpoint : toEReal x ∈ pointsOf (f.listedKnots i) := hlisting.points ▸ ⟨x, hx, rfl⟩
    rw [hcut.points] at hpoint
    exact (Interval.contains_iff (Interval.isProper_of_isValid hi) (hlisting.numbers x hx)).2
      hpoint.2

omit [LineScalar α] in
/-- Other knots are refused with a message that holds the text of the function. -/
theorem checkedKnots_of_unlisted (h : f.knotReport i = .infinite ∨ f.knotReport i = .unknown) :
    f.checkedKnots i =
      f.render.bind fun text => .error (.knotsUnlisted text i (f.knotReport i)) := by
  rw [checkedKnots]
  rcases h with h | h <;> rw [h] <;> rfl

/-- The list of the knots follows the report. If there are none, it is empty; if there are finitely
many, it holds one at least, in strictly ascending order, and all of them lie in the interval;
otherwise it is refused. The refusal names the report unless the function has no text, and with
finite shifts of sines it has one. -/
theorem knots_follow_report {f : Fn Float} {i : Interval Float} (hw : f.WellFormed)
    (hi : i.isValid = true) :
    (f.knotReport i = .noKnots → f.checkedKnots i = .ok []) ∧
    (f.knotReport i = .finite → ∃ ks, f.checkedKnots i = .ok ks ∧ ks ≠ [] ∧
      ks.Pairwise (fun x y => Scalar.lt x y = true) ∧ ∀ x ∈ ks, i.contains x = true) ∧
    (f.knotReport i = .infinite ∨ f.knotReport i = .unknown →
      (∃ e, f.checkedKnots i = .error e ∧
        (e.IsAngle ∨ ∃ text, f.render = .ok text ∧ e = .knotsUnlisted text i (f.knotReport i))) ∧
      (f.Kernels Kernel.HasFiniteShift → ∃ text, f.render = .ok text ∧
        f.checkedKnots i = .error (.knotsUnlisted text i (f.knotReport i)))) := by
  refine ⟨checkedKnots_of_noKnots, checkedKnots_of_finite hw hi, fun h => ?_⟩
  have hall : f.Kernels fun _ => True := kernels_of_forall (fun _ => trivial) f
  rw [checkedKnots_of_unlisted h]
  cases htext : f.render with
  | ok text => exact ⟨⟨_, rfl, .inr ⟨text, rfl, rfl⟩⟩, fun _ => ⟨text, rfl, rfl⟩⟩
  | error e =>
    refine ⟨⟨e, rfl, .inl (failures_angle.toFailures.render hall e htext)⟩, fun hshift => ?_⟩
    exact (derivativeFailures_finite.toFailures.render hshift e htext).elim

/-- A function with a pole and a jump has knots that are listed inside its domain and refused
beyond it. -/
theorem knots_follow_report_piecewise :
    let f : Fn Float := piecewise [⟨⟨-2, true, 1, false⟩, unary (.power (-1)) 1 none⟩,
      ⟨⟨1, true, 3, true⟩, unary (.sine 1 0) 1 none⟩]
    let i : Interval Float := .closed (-1) 2
    let j : Interval Float := .closed 2 4
    f.WellFormed ∧ i.isValid = true ∧ j.isValid = true ∧ f.knotReport i = .finite ∧
      f.knotReport j = .infinite ∧
      (∃ ks, f.checkedKnots i = .ok ks ∧ ks ≠ [] ∧
        ks.Pairwise (fun x y => Scalar.lt x y = true) ∧ ∀ x ∈ ks, i.contains x = true) ∧
      ∃ text, f.render = .ok text ∧
        f.checkedKnots j = .error (.knotsUnlisted text j .infinite) := by
  intro f i j
  have hw : f.WellFormed := by
    refine .piecewise ⟨by simp, ?_, ?_⟩ (by simpa using ⟨.plain, .plain⟩)
    · decide +kernel
    · exact .cons_cons ⟨rfl, rfl⟩ (.singleton _)
  have hi : i.isValid = true := by decide +kernel
  have hj : j.isValid = true := by decide +kernel
  have hfinite : f.knotReport i = .finite := by decide +kernel
  have hinfinite : f.knotReport j = .infinite := by decide +kernel
  have hshift : f.Kernels Kernel.HasFiniteShift := by
    have hzero : Scalar.isFinite (0 : Float) = true := by decide +kernel
    simpa [f, Kernel.HasFiniteShift] using hzero
  obtain ⟨-, hlist, -⟩ := knots_follow_report hw hi
  obtain ⟨-, -, hrefuse⟩ := knots_follow_report hw hj
  have hrefused := (hrefuse (.inl hinfinite)).2 hshift
  rw [hinfinite] at hrefused
  exact ⟨hw, hi, hj, hfinite, hinfinite, hlist hfinite, hrefused⟩

/-- With an infinite shift, a sine has no text for the message, so the refusal is another one. -/
theorem knots_refused_otherwise :
    let f : Fn Float := unary (.power (-1)) 1 (some (unary (.sine 1 Scalar.infinity) 1 none))
    let i : Interval Float := .closed 0 1
    f.WellFormed ∧ i.isValid = true ∧ f.knotReport i = .unknown ∧
      ∀ text range report, f.checkedKnots i ≠ .error (.knotsUnlisted text range report) := by
  intro f i
  refine ⟨.chain .plain, by decide +kernel, by decide +kernel, fun text range report h => ?_⟩
  have hcause : (match f.checkedKnots i with
      | .error .infiniteAngle => true
      | _ => false) = true := by
    decide +kernel
  rw [h] at hcause
  cases hcause

end Fn

end FunctionAlgebra
