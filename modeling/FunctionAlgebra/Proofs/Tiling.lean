import FunctionAlgebra.Proofs.SegmentOrder

/-!
# Segments cover the domain

Only neighbours among sorted segments are checked for common points, and only between neighbours
gaps are filled. Because what lies before a segment also lies before all that follows it, this is
enough: no two segments overlap, and there is no hole.

## Main definitions

* `Tiles` — each of a list of segments begins where the one before it ends.

## Main statements

* `Tiles.existsUnique_mem` — every point inside the domain lies in exactly one segment.
* `Fn.joinSegments_eq_ok` — segments and the gaps between them are tiles.
* `Fn.ofSegments_covers` — which lists of segments make a piecewise function, and what it is.
-/

namespace FunctionAlgebra

open LineScalar (toEReal)
open scoped List

variable {α β : Type} [Scalar α] [LineScalar α] {segments : List (Segment α β)}

/-- A segment lies before those behind the one it lies before. -/
theorem pairwise_before_of_isChain (hv : ∀ s ∈ segments, s.range.isValid = true)
    (h : segments.IsChain fun s t => s.range.Before t.range) :
    segments.Pairwise fun s t => s.range.Before t.range := by
  induction segments with
  | nil => exact .nil
  | cons s rest ih =>
    have hrest := ih (fun t ht => hv t (by simp [ht])) h.tail
    refine .cons ?_ hrest
    cases rest with
    | nil => simp
    | cons t rest =>
      rw [List.isChain_cons_cons] at h
      have hs := h.1
      intro u hu
      rcases List.mem_cons.1 hu with rfl | hu
      · exact hs
      · exact hs.trans (hv t (by simp)) (List.rel_of_pairwise_cons hrest hu)

/-! ## Tiles -/

omit [Scalar α] [LineScalar α] in
theorem hull?_eq_some_iff {domain : Interval α} : hull? segments = some domain ↔
    ∃ first ∈ segments.head?, ∃ last ∈ segments.getLast?,
      domain = .closed first.range.low last.range.high := by
  rw [hull?]
  cases segments.head? <;> cases segments.getLast? <;> simp [eq_comm]

/-- Segments with valid ranges, each of which begins where the one before it ends. -/
structure Tiles (segments : List (Segment α β)) : Prop where
  nonempty : segments ≠ []
  valid : ∀ s ∈ segments, s.range.isValid = true
  adjoins : segments.IsChain fun s t => s.range.Adjoins t.range

namespace Tiles

theorem pairwise_before (h : Tiles segments) :
    segments.Pairwise fun s t => s.range.Before t.range :=
  pairwise_before_of_isChain h.valid (h.adjoins.imp fun _ _ h => h.before)

theorem cons (h : Tiles segments) {s : Segment α β} (hs : s.range.isValid = true)
    (hnext : ∀ t ∈ segments.head?, s.range.Adjoins t.range) : Tiles (s :: segments) where
  nonempty := by simp
  valid := List.forall_mem_cons.2 ⟨hs, h.valid⟩
  adjoins := List.isChain_cons.2 ⟨hnext, h.adjoins⟩

/-- Tiles may have any payloads. -/
theorem map (h : Tiles segments) {γ : Type} (f : β → γ) :
    Tiles (segments.map (Segment.map f)) where
  nonempty := by simpa using h.nonempty
  valid := by simpa [Segment.map] using h.valid
  adjoins := by simpa [Segment.map, List.isChain_map] using h.adjoins

/-- A point between the start of the first and the end of the last segment is in one of them. -/
theorem exists_mem (h : Tiles segments) {p : EReal}
    (hp : ∀ s ∈ segments.head?, s.range.StartsBefore p)
    (hq : ∀ s ∈ segments.getLast?, s.range.EndsAfter p) :
    ∃ s ∈ segments, p ∈ s.range.points := by
  obtain ⟨hne, -, hchain⟩ := h
  induction segments with
  | nil => contradiction
  | cons s rest ih =>
    have hs := hp s (by simp)
    by_cases hend : s.range.EndsAfter p
    · exact ⟨s, by simp, hs, hend⟩
    cases rest with
    | nil => exact absurd (hq s (by simp)) hend
    | cons t rest =>
      rw [List.isChain_cons_cons] at hchain
      have ht : t.range.StartsBefore p := by
        by_contra hstart
        exact hend (hchain.1.endsAfter_iff.2 hstart)
      obtain ⟨u, hu, hmem⟩ := ih (by simpa using ht) (by simpa using hq) (by simp) hchain.2
      exact ⟨u, List.mem_cons_of_mem s hu, hmem⟩

/-- No point is in two segments. -/
theorem eq_of_mem (h : Tiles segments) {s t : Segment α β} (hs : s ∈ segments)
    (ht : t ∈ segments) {p : EReal} (hps : p ∈ s.range.points) (hpt : p ∈ t.range.points) :
    s = t := by
  let apart (s t : Segment α β) : Prop := Disjoint s.range.points t.range.points
  have : Std.Symm apart := ⟨fun _ _ h => Disjoint.symm h⟩
  have hpairs : segments.Pairwise apart := h.pairwise_before.imp fun h => h.disjoint
  by_contra hne
  exact Set.disjoint_left.1 (hpairs.forall hs ht hne) hps hpt

theorem exists_hull (h : Tiles segments) : ∃ domain, hull? segments = some domain := by
  rw [hull?, List.head?_eq_some_head h.nonempty, List.getLast?_eq_some_getLast h.nonempty]
  exact ⟨_, rfl⟩

/-- All tiles lie between the ends of the domain. -/
theorem le_hull (h : Tiles segments) {domain : Interval α} (hd : hull? segments = some domain) :
    domain.IsProper ∧ ∀ s ∈ segments, toEReal domain.low ≤ toEReal s.range.low ∧
      toEReal s.range.high ≤ toEReal domain.high := by
  obtain ⟨first, hfirst, last, hlast, rfl⟩ := hull?_eq_some_iff.1 hd
  have hfv := h.valid first (List.mem_of_head? hfirst)
  have hlv := h.valid last (List.mem_of_getLast? hlast)
  refine ⟨⟨(Interval.isProper_of_isValid hfv).1, (Interval.isProper_of_isValid hlv).2⟩,
    fun s hs => ⟨?_, ?_⟩⟩
  · obtain ⟨rest, rfl⟩ := List.head?_eq_some_iff.1 hfirst
    rcases List.mem_cons.1 hs with rfl | hs'
    · exact le_rfl
    · have hbefore := List.rel_of_pairwise_cons h.pairwise_before hs'
      exact (Interval.low_le_high hfv).trans (hbefore.high_le_low hfv (h.valid s hs))
  · obtain ⟨init, rfl⟩ := List.getLast?_eq_some_iff.1 hlast
    rcases List.mem_append.1 hs with hs' | hs'
    · have hbefore := (List.pairwise_append.1 h.pairwise_before).2.2 s hs' last (by simp)
      exact (hbefore.high_le_low (h.valid s hs) hlv).trans (Interval.low_le_high hlv)
    · rw [List.mem_singleton.1 hs']
      exact le_rfl

theorem isValid_hull (h : Tiles segments) {domain : Interval α}
    (hd : hull? segments = some domain) : domain.isValid = true := by
  obtain ⟨hproper, hbounds⟩ := h.le_hull hd
  obtain ⟨first, hfirst, last, -, rfl⟩ := hull?_eq_some_iff.1 hd
  have hmem := List.mem_of_head? hfirst
  obtain ⟨hlow, hhigh⟩ := hbounds first hmem
  have hle := hlow.trans ((Interval.low_le_high (h.valid first hmem)).trans hhigh)
  exact Interval.isValid_iff.2 ⟨hproper, hle.lt_or_eq.imp_right fun heq => ⟨heq, rfl, rfl⟩⟩

/-- Every point inside the domain is in exactly one segment. -/
theorem existsUnique_mem (h : Tiles segments) {domain : Interval α}
    (hd : hull? segments = some domain) {p : EReal} (hl : toEReal domain.low < p)
    (hh : p < toEReal domain.high) : ∃! s, s ∈ segments ∧ p ∈ s.range.points := by
  obtain ⟨first, hfirst, last, hlast, rfl⟩ := hull?_eq_some_iff.1 hd
  obtain ⟨s, hs, hmem⟩ := h.exists_mem (p := p)
    (fun s hs => by
      obtain rfl := Option.some.inj (hfirst.symm.trans hs)
      exact .inl hl)
    (fun s hs => by
      obtain rfl := Option.some.inj (hlast.symm.trans hs)
      exact .inl hh)
  exact ⟨s, ⟨hs, hmem⟩, fun t ⟨ht, hmem'⟩ => h.eq_of_mem ht hs hmem' hmem⟩

end Tiles

namespace Fn

/-! ## Joining sorted segments -/

section Join

variable {α : Type} [Scalar α] {previous : Segment α (Fn α)} {rest : List (Segment α (Fn α))}

def fillGap (s t : Segment α (Fn α)) : List (Segment α (Fn α)) :=
  (s.range.gap? t.range).toList.map (⟨·, undefined⟩)

theorem joinSegments_cons (next : Segment α (Fn α)) : joinSegments previous (next :: rest) =
    if previous.range.disjoint next.range then
      (joinSegments next rest).map fun joined => previous :: (fillGap previous next ++ joined)
    else .error (.overlap previous.range next.range) := by
  rw [joinSegments, fillGap]
  cases previous.range.disjoint next.range with
  | false => rfl
  | true => cases joinSegments next rest <;> cases previous.range.gap? next.range <;> rfl

/-- Segments are joined if no two neighbours overlap. -/
theorem exists_joinSegments
    (h : (previous :: rest).IsChain fun s t => s.range.disjoint t.range = true) :
    ∃ joined, joinSegments previous rest = .ok joined := by
  induction rest generalizing previous with
  | nil => exact ⟨_, rfl⟩
  | cons next rest ih =>
    rw [List.isChain_cons_cons] at h
    obtain ⟨joined, hj⟩ := ih h.2
    rw [joinSegments_cons, if_pos h.1, hj]
    exact ⟨_, rfl⟩

/-- They are not joined only if two neighbours overlap. -/
theorem joinSegments_eq_error {e : Failure α} (h : joinSegments previous rest = .error e) :
    ∃ i j, e = .overlap i j := by
  induction rest generalizing previous with
  | nil => cases h
  | cons next rest ih =>
    rw [joinSegments_cons] at h
    split_ifs at h
    · cases hj : joinSegments next rest with
      | ok joined => simp [hj, Except.map] at h
      | error e' =>
        rw [hj] at h
        obtain rfl : e' = e := Except.error.inj h
        exact ih hj
    · exact ⟨_, _, (Except.error.inj h).symm⟩

end Join

variable {given : List (Segment α (Fn α))} {previous : Segment α (Fn α)}
  {rest joined : List (Segment α (Fn α))}

/-- A segment and the gap behind it can be put before tiles. -/
theorem tiles_fillGap {s t : Segment α (Fn α)} (h : Tiles joined) (ht : joined.head? = some t)
    (hs : s.range.isValid = true) (hst : s.range.Before t.range) :
    Tiles (s :: (fillGap s t ++ joined)) := by
  have htv := h.valid t (List.mem_of_mem_head? ht)
  unfold fillGap
  cases hgap : s.range.gap? t.range with
  | none =>
    refine h.cons hs fun u hu => ?_
    obtain rfl : t = u := Option.some.inj (ht.symm.trans hu)
    exact Interval.gap?_eq_none hs htv hst hgap
  | some gap =>
    obtain ⟨hvalid, hleft, hright⟩ := Interval.gap?_eq_some hs htv hgap
    have hrest : Tiles ((⟨gap, undefined⟩ : Segment α (Fn α)) :: joined) := by
      refine h.cons hvalid fun u hu => ?_
      obtain rfl : t = u := Option.some.inj (ht.symm.trans hu)
      exact hright
    refine hrest.cons hs fun u hu => ?_
    obtain rfl := Option.some.inj hu
    exact hleft

/-- What it takes to join segments, and what comes of it: the segments follow each other, and
together with the gaps between them they are tiles. -/
theorem joinSegments_eq_ok (hv : ∀ s ∈ previous :: rest, s.range.isValid = true)
    (hsorted : (previous :: rest).Pairwise fun s t => t.less s = false)
    (h : joinSegments previous rest = .ok joined) :
    (previous :: rest).IsChain (fun s t => s.range.Before t.range) ∧
    Tiles joined ∧ joined.head? = some previous ∧
    ∃ gaps, joined.Perm (previous :: rest ++ gaps) ∧ ∀ g ∈ gaps, g.payload = undefined := by
  induction rest generalizing previous joined with
  | nil =>
    obtain rfl := Except.ok.inj h
    exact ⟨.singleton _, ⟨by simp, hv, .singleton _⟩, rfl, [], by simp, by simp⟩
  | cons next rest ih =>
    obtain ⟨hp, hrest⟩ := List.forall_mem_cons.1 hv
    rw [joinSegments_cons] at h
    split_ifs at h with hd
    cases hj : joinSegments next rest with
    | error e => simp [hj, Except.map] at h
    | ok later =>
      rw [hj] at h
      obtain rfl := Except.ok.inj h
      obtain ⟨hchain, htiles, hhead, gaps, hperm, hgaps⟩ := ih hrest hsorted.tail hj
      have hbefore : previous.range.Before next.range :=
        Segment.before_of_less hp (hrest next (by simp)) hd
          (List.rel_of_pairwise_cons hsorted (by simp))
      refine ⟨List.isChain_cons_cons.2 ⟨hbefore, hchain⟩, tiles_fillGap htiles hhead hp hbefore,
        rfl, fillGap previous next ++ gaps, .cons _ ?_, fun g hg => ?_⟩
      · calc fillGap previous next ++ later
          _ ~ fillGap previous next ++ (next :: rest ++ gaps) := hperm.append_left _
          _ ~ next :: rest ++ (fillGap previous next ++ gaps) := by
            rw [← List.append_assoc, ← List.append_assoc]
            exact List.perm_append_comm.append_right gaps
      · rcases List.mem_append.1 hg with hg | hg
        · obtain ⟨range, -, rfl⟩ := List.mem_map.1 hg
          rfl
        · exact hgaps g hg

/-! ## Piecewise functions -/

/-- What it takes to make a piecewise function, and what comes of it. -/
theorem ofSegments_eq_ok {f : Fn α} (hv : ∀ s ∈ given, s.range.isValid = true)
    (h : ofSegments given = .ok f) :
    given ≠ [] ∧ (Segment.sort given).Pairwise (fun s t => s.range.Before t.range) ∧
    ∃ segments, f = piecewise segments ∧ Tiles segments ∧
      ∃ gaps, segments ~ given ++ gaps ∧ ∀ g ∈ gaps, g.payload = undefined := by
  have hvs := Segment.sort_valid hv
  have hperm : Segment.sort given ~ given := sortStable_perm Segment.less given
  have hsorted := Segment.sort_pairwise_less hv
  unfold ofSegments at h
  split at h
  · cases h
  rename_i first rest hsort
  rw [hsort] at hvs hsorted hperm ⊢
  cases hj : joinSegments first rest with
  | error e => simp [hj, Bind.bind, Except.bind] at h
  | ok joined =>
    rw [hj] at h
    obtain ⟨hchain, htiles, -, gaps, hgaps, hundefined⟩ := joinSegments_eq_ok hvs hsorted hj
    refine ⟨fun hnil => ?_, pairwise_before_of_isChain hvs hchain, joined,
      (Except.ok.inj h).symm, htiles, gaps, hgaps.trans (hperm.append_right gaps), hundefined⟩
    simp [hnil] at hperm

/-- Segments without common points make a piecewise function. -/
theorem exists_ofSegments (hv : ∀ s ∈ given, s.range.isValid = true) (hne : given ≠ [])
    (hd : given.Pairwise fun s t => Disjoint s.range.points t.range.points) :
    ∃ f, ofSegments given = .ok f := by
  have hvs := Segment.sort_valid hv
  have hperm : Segment.sort given ~ given := sortStable_perm Segment.less given
  have hds := (hperm.pairwise_iff fun h => Disjoint.symm h).2 hd
  unfold ofSegments
  split
  · rename_i hnil
    rw [hnil] at hperm
    exact absurd hperm.nil_eq.symm hne
  rename_i first rest hsort
  rw [hsort] at hvs hds
  have hchain : (first :: rest).IsChain fun s t => s.range.disjoint t.range = true :=
    (hds.imp_of_mem fun hs ht h => (Interval.disjoint_iff (hvs _ hs) (hvs _ ht)).2 h).isChain
  obtain ⟨joined, hj⟩ := exists_joinSegments hchain
  rw [hj]
  exact ⟨_, rfl⟩

/-- Tiles are joined as they are. -/
theorem joinSegments_of_tiles (h : Tiles (previous :: rest)) :
    joinSegments previous rest = .ok (previous :: rest) := by
  induction rest generalizing previous with
  | nil => rfl
  | cons next rest ih =>
    obtain ⟨-, hv, hchain⟩ := h
    have hp := hv previous (by simp)
    have hn := hv next (by simp)
    have hrest := (List.forall_mem_cons.1 hv).2
    rw [List.isChain_cons_cons] at hchain
    have hd := (Interval.disjoint_iff hp hn).2 hchain.1.before.disjoint
    have hgap := hchain.1.gap? (Interval.isProper_of_isValid hp) (Interval.isProper_of_isValid hn)
    rw [joinSegments_cons, if_pos hd, ih ⟨by simp, hrest, hchain.2⟩, fillGap, hgap]
    rfl

/-- A piecewise function is made of its own segments. -/
theorem ofSegments_of_tiles (h : Tiles given) : ofSegments given = .ok (piecewise given) := by
  rw [ofSegments, Segment.sort_eq_of_before h.valid h.pairwise_before]
  cases given with
  | nil => exact absurd rfl h.nonempty
  | cons first rest =>
    dsimp only
    rw [joinSegments_of_tiles h]
    rfl

omit [LineScalar α] in
/-- A piecewise function is not made of no segments or of segments that overlap. -/
theorem ofSegments_eq_error {e : Failure α} (h : ofSegments given = .error e) :
    e = .noSegments ∨ ∃ i j, e = .overlap i j := by
  unfold ofSegments at h
  split at h
  · exact .inl (Except.error.inj h).symm
  rename_i first rest hsort
  cases hj : joinSegments first rest with
  | ok joined => simp [hj, Bind.bind, Except.bind, Pure.pure, Except.pure] at h
  | error e' =>
    obtain rfl : e' = e := by simpa [hj, Bind.bind, Except.bind] using h
    exact .inr (joinSegments_eq_error hj)

/-- No two segments of which a piecewise function is made have a point in common. -/
theorem disjoint_of_ofSegments {f : Fn α} (hv : ∀ s ∈ given, s.range.isValid = true)
    (h : ofSegments given = .ok f) :
    given.Pairwise fun s t => Disjoint s.range.points t.range.points := by
  obtain ⟨-, hpairs, -⟩ := ofSegments_eq_ok hv h
  have hperm : Segment.sort given ~ given := sortStable_perm Segment.less given
  exact (hperm.pairwise_iff fun h => Disjoint.symm h).1 (hpairs.imp fun h => h.disjoint)

/-- The order in which segments are given does not matter. -/
theorem ofSegments_of_perm {others : List (Segment α (Fn α))} {f : Fn α}
    (hv : ∀ s ∈ given, s.range.isValid = true) (hperm : others ~ given)
    (h : ofSegments given = .ok f) : ofSegments others = .ok f := by
  have hv' (s) (hs : s ∈ others) : s.range.isValid = true := hv s (hperm.mem_iff.1 hs)
  obtain ⟨hne, hpairs, -⟩ := ofSegments_eq_ok hv h
  have hd := (hperm.pairwise_iff fun h => Disjoint.symm h).2 (disjoint_of_ofSegments hv h)
  obtain ⟨g, hg⟩ := exists_ofSegments hv' (fun hnil => hne (hnil ▸ hperm).nil_eq.symm) hd
  obtain ⟨-, hpairs', -⟩ := ofSegments_eq_ok hv' hg
  -- both lists of sorted segments hold the same segments, and there is only one order for them
  have hsort : Segment.sort others = Segment.sort given :=
    Segment.eq_of_perm_of_before
      ((sortStable_perm _ _).trans (hperm.trans (sortStable_perm _ _).symm))
      (Segment.sort_valid hv) hpairs' hpairs
  rw [← h, ofSegments, ofSegments, hsort]

/-- Piecewise functions are made of segments without common points, whatever their order. The
segments and the gaps between them are in order and cover the domain. -/
theorem ofSegments_covers (hv : ∀ s ∈ given, s.range.isValid = true) :
    ((∃ f, ofSegments given = .ok f) ↔
      given ≠ [] ∧ given.Pairwise fun s t => Disjoint s.range.points t.range.points) ∧
    (∀ e, ofSegments given = .error e → e = .noSegments ∨ ∃ i j, e = .overlap i j) ∧
    ∀ f, ofSegments given = .ok f → ∃ segments domain,
      f = piecewise segments ∧ f.domain = some domain ∧
      segments.Pairwise (fun s t => s.range.compare t.range = .lt ∧
        Disjoint s.range.points t.range.points) ∧
      (∃ gaps, segments ~ given ++ gaps ∧ ∀ g ∈ gaps, g.payload = undefined) ∧
      (∀ x : ℝ, toEReal domain.low < x → x < toEReal domain.high →
        ∃! s, s ∈ segments ∧ (x : EReal) ∈ s.range.points) ∧
      ∀ others, others ~ given → ofSegments others = .ok f := by
  refine ⟨⟨?_, fun ⟨hne, hd⟩ => exists_ofSegments hv hne hd⟩, fun e => ofSegments_eq_error, ?_⟩
  · rintro ⟨f, hf⟩
    exact ⟨(ofSegments_eq_ok hv hf).1, disjoint_of_ofSegments hv hf⟩
  · intro f hf
    obtain ⟨-, -, segments, rfl, htiles, hgaps⟩ := ofSegments_eq_ok hv hf
    obtain ⟨domain, hdomain⟩ := htiles.exists_hull
    refine ⟨segments, domain, rfl, hdomain, ?_, hgaps, fun x => htiles.existsUnique_mem hdomain,
      fun others hperm => ofSegments_of_perm hv hperm hf⟩
    exact htiles.pairwise_before.imp_of_mem fun hs ht h =>
      ⟨h.compare (htiles.valid _ hs) (htiles.valid _ ht), h.disjoint⟩

/-- Two segments with a gap between them, given in the wrong order. -/
theorem ofSegments_covers_doubles :
    let given : List (Segment Float (Fn Float)) :=
      [⟨⟨1, false, 2, true⟩, one⟩, ⟨⟨-1, true, 0.5, false⟩, zero⟩]
    ∃ f, ofSegments given = .ok f ∧ ofSegments given.reverse = .ok f ∧
      ∃ segments gaps, f = piecewise segments ∧ segments ~ given ++ gaps ∧
        ∀ g ∈ gaps, g.payload = undefined := by
  intro given
  have hv : ∀ s ∈ given, s.range.isValid = true := by decide +kernel
  have hd : given.Pairwise fun s t => s.range.disjoint t.range = true := by decide +kernel
  obtain ⟨hiff, -, hok⟩ := ofSegments_covers hv
  obtain ⟨f, hf⟩ := hiff.2 ⟨by simp [given], hd.imp_of_mem fun hs ht h =>
    (Interval.disjoint_iff (hv _ hs) (hv _ ht)).1 h⟩
  obtain ⟨segments, domain, hsegments, -, -, ⟨gaps, hgaps, hundefined⟩, -, hperm⟩ := hok f hf
  exact ⟨f, hf, hperm _ given.reverse_perm, segments, gaps, hsegments, hgaps, hundefined⟩

end Fn

end FunctionAlgebra
