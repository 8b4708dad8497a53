import FunctionAlgebra.Fn.Order
import FunctionAlgebra.Proofs.Comparison
import FunctionAlgebra.Proofs.Numbers

/-!
# The order of functions is total

Functions without NaN are totally ordered, and they compare as equal just if they are equal. The
order goes by kind first, so statements about it are proved for functions of one kind, part by part.

## Main definitions

* `Fn.compareInner`, `Fn.scaleKey` — the parts of a comparison of standard functions.
* `Fn.Alike` — two functions of one kind, part by part.

## Main statements

* `Fn.compareWith_swap`, `Fn.compareWith_consistent` — antisymmetry and transitivity.
* `Fn.compare_eq_iff` — equal functions, and no others, compare as equal.
-/

namespace FunctionAlgebra.Fn

variable {α : Type} [Scalar α]

/-! ## Parts of a comparison -/

def scaleKey (unit : Bool) (s : α) : α := if unit then unitScale s else s

def compareInner : Option (Fn α) → Option (Fn α) → Ordering
  | none, none => .eq
  | none, some _ => .lt
  | some _, none => .gt
  | some f, some g => compareWith false f g

theorem compareWith_unary (unit : Bool) (k k' : Kernel α) (s s' : α)
    (inner inner' : Option (Fn α)) :
    compareWith unit (unary k s inner) (unary k' s' inner') =
      (Ord.compare k.kind.rank k'.kind.rank).then ((compareInner inner inner').then
        ((Scalar.cmpList k.parameters k'.parameters).then
          (Scalar.cmp (scaleKey unit s) (scaleKey unit s')))) := by
  cases unit <;> cases inner <;> cases inner' <;> rfl

theorem compareWith_value {unit : Bool} {f g : Fn α} {v w : α} (hf : f.value? = some v)
    (hg : g.value? = some w) :
    compareWith unit f g = Scalar.cmp (scaleKey unit v) (scaleKey unit w) := by
  cases f <;> simp only [value?, Option.some.injEq, reduceCtorEq] at hf <;> subst hf <;>
    cases g <;> simp only [value?, Option.some.injEq, reduceCtorEq] at hg <;> subst hg <;>
    cases unit <;> simp [compareWith, value?, scaleKey]

theorem compareAll_eq (unit : Bool) (fs gs : List (Fn α)) :
    compareAll unit fs gs = compareEach (compareWith unit) fs gs := by
  induction fs generalizing gs with
  | nil => cases gs <;> simp [compareAll, compareEach]
  | cons f fs ih => cases gs <;> simp [compareAll, compareEach, ih]

theorem compareScales_eq (fs gs : List (Fn α)) :
    compareScales fs gs = compareEach (fun f g => Scalar.cmp f.scale g.scale) fs gs := by
  induction fs generalizing gs with
  | nil => cases gs <;> simp [compareScales, compareEach]
  | cons f fs ih => cases gs <;> simp [compareScales, compareEach, ih]

theorem compareSegments_eq (ss ts : List (Segment α (Fn α))) :
    compareSegments ss ts = compareEach (fun s t =>
      (s.range.compare t.range).then (compareWith false s.payload t.payload)) ss ts := by
  induction ss generalizing ts with
  | nil => cases ts <;> simp [compareSegments, compareEach]
  | cons s ss ih =>
    cases ts with
    | nil => simp [compareSegments, compareEach]
    | cons t ts => simp [compareSegments, compareEach, ih, Ordering.then_assoc]

@[simp] theorem compareWith_sum (unit : Bool) (fs gs : List (Fn α)) :
    compareWith unit (sum fs) (sum gs) = (Ord.compare fs.length gs.length).then
      (compareEach (compareWith false) fs gs) := by
  rw [← compareAll_eq]
  rfl

@[simp] theorem compareWith_product (unit : Bool) (fs gs : List (Fn α)) :
    compareWith unit (product fs) (product gs) = (Ord.compare fs.length gs.length).then
      ((compareEach (compareWith true) fs gs).then
        (compareEach (fun f g => Scalar.cmp f.scale g.scale) fs gs)) := by
  rw [← compareAll_eq, ← compareScales_eq]
  rfl

@[simp] theorem compareWith_quotient (unit : Bool) (n d n' d' : Fn α) :
    compareWith unit (quotient n d) (quotient n' d') =
      (compareWith false d d').then (compareWith unit n n') := rfl

@[simp] theorem compareWith_piecewise (unit : Bool) (ss ts : List (Segment α (Fn α))) :
    compareWith unit (piecewise ss) (piecewise ts) = (Ord.compare ss.length ts.length).then
      (compareEach (fun s t => (s.range.compare t.range).then
        (compareWith false s.payload t.payload)) ss ts) := by
  rw [← compareSegments_eq]
  rfl

/-- Functions of different kinds are compared by rank. -/
theorem compareWith_kind (unit : Bool) (f g : Fn α) :
    compareWith unit f g = (Ord.compare f.kind.rank g.kind.rank).then (compareWith unit f g) := by
  by_cases h : f.kind = g.kind
  · rw [h, Nat.compare_eq_eq.2 rfl]
    rfl
  have hrank : compareWith unit f g = Ord.compare f.kind.rank g.kind.rank ∨
      ∃ rest, compareWith unit f g = (Ord.compare f.kind.rank g.kind.rank).then rest := by
    cases f <;> cases g <;> first
      | exact absurd rfl h
      | exact .inr ⟨_, compareWith_unary ..⟩
      | exact .inl (by simp [compareWith, value?])
  rcases hrank with hrank | ⟨rest, hrank⟩ <;> rw [hrank] <;>
    cases Ord.compare f.kind.rank g.kind.rank <;> rfl

/-! ## Functions of one kind -/

/-- Two functions are of one kind, and so they are put together in the same way. -/
inductive Alike : Fn α → Fn α → Prop where
  | values {f g v w} (hf : f.value? = some v) (hg : g.value? = some w) : Alike f g
  | undefined : Alike undefined undefined
  | unary {k k'} (s s' inner inner') (hk : k.kind = k'.kind) :
    Alike (unary k s inner) (unary k' s' inner')
  | sum (ts us) : Alike (sum ts) (sum us)
  | product (fs gs) : Alike (product fs) (product gs)
  | quotient (n d n' d') : Alike (quotient n d) (quotient n' d')
  | piecewise (ss ts) : Alike (piecewise ss) (piecewise ts)

omit [Scalar α] in
theorem isStandard_kind (k : Kernel α) : k.kind.isStandard = true := by
  cases k <;> rfl

theorem kind_of_value? {f : Fn α} {v : α} (h : f.value? = some v) : f.kind = .constant := by
  cases f <;> cases h <;> rfl

theorem scale_of_value? {f : Fn α} {v : α} (h : f.value? = some v) : f.scale = v := by
  cases f <;> cases h <;> rfl

theorem alike_of_kind {f g : Fn α} (h : f.kind = g.kind) : Alike f g := by
  cases f <;> cases g <;> first
    | exact .values rfl rfl
    | exact .undefined
    | exact .unary _ _ _ _ h
    | exact .sum _ _
    | exact .product _ _
    | exact .quotient _ _ _ _
    | exact .piecewise _ _
    | cases h
    | exact absurd ((congrArg Kind.isStandard h).trans (isStandard_kind _)) Bool.false_ne_true
    | exact absurd ((congrArg Kind.isStandard h).symm.trans (isStandard_kind _)) Bool.false_ne_true

theorem exists_value_of_kind {f g : Fn α} {v : α} (hf : f.value? = some v)
    (h : f.kind = g.kind) : ∃ w, g.value? = some w := by
  cases alike_of_kind h with
  | values _ hg => exact ⟨_, hg⟩
  | _ => cases hf

theorem eq_undefined_of_kind {g : Fn α} (h : (undefined : Fn α).kind = g.kind) :
    g = undefined := by
  cases alike_of_kind h with
  | values hf => cases hf
  | undefined => rfl

theorem exists_unary_of_kind {k : Kernel α} {s : α} {inner : Option (Fn α)} {g : Fn α}
    (h : (unary k s inner).kind = g.kind) :
    ∃ k' s' inner', k.kind = k'.kind ∧ g = unary k' s' inner' := by
  cases alike_of_kind h with
  | values hf => cases hf
  | unary _ _ _ _ hk => exact ⟨_, _, _, hk, rfl⟩

theorem exists_sum_of_kind {ts : List (Fn α)} {g : Fn α} (h : (sum ts).kind = g.kind) :
    ∃ us, g = sum us := by
  cases alike_of_kind h with
  | values hf => cases hf
  | sum => exact ⟨_, rfl⟩

theorem exists_product_of_kind {fs : List (Fn α)} {g : Fn α} (h : (product fs).kind = g.kind) :
    ∃ gs, g = product gs := by
  cases alike_of_kind h with
  | values hf => cases hf
  | product => exact ⟨_, rfl⟩

theorem exists_quotient_of_kind {n d g : Fn α} (h : (quotient n d).kind = g.kind) :
    ∃ n' d', g = quotient n' d' := by
  cases alike_of_kind h with
  | values hf => cases hf
  | quotient => exact ⟨_, _, rfl⟩

theorem exists_piecewise_of_kind {ss : List (Segment α (Fn α))} {g : Fn α}
    (h : (piecewise ss).kind = g.kind) : ∃ ts, g = piecewise ts := by
  cases alike_of_kind h with
  | values hf => cases hf
  | piecewise => exact ⟨_, rfl⟩

omit [Scalar α] in
theorem length_parameters {k k' : Kernel α} (h : k.kind = k'.kind) :
    k.parameters.length = k'.parameters.length := by
  cases k <;> cases k' <;> first | rfl | cases h

/-- To compare functions it is enough to compare those of one kind. -/
theorem consistent_of_kind {unit : Bool} {f g h : Fn α}
    (hc : f.kind = g.kind → g.kind = h.kind →
      Consistent (compareWith unit f g) (compareWith unit g h) (compareWith unit f h)) :
    Consistent (compareWith unit f g) (compareWith unit g h) (compareWith unit f h) := by
  rw [compareWith_kind unit f g, compareWith_kind unit g h, compareWith_kind unit f h]
  refine (compareNat_consistent _ _ _).then fun hfg hgh => hc ?_ ?_
  · exact Kind.rank_injective (Nat.compare_eq_eq.1 hfg)
  · exact Kind.rank_injective (Nat.compare_eq_eq.1 hgh)

theorem swap_of_kind {unit : Bool} {f g : Fn α}
    (hs : f.kind = g.kind → compareWith unit g f = (compareWith unit f g).swap) :
    compareWith unit g f = (compareWith unit f g).swap := by
  rw [compareWith_kind unit f g, compareWith_kind unit g f, Ordering.swap_then,
    ← Std.OrientedOrd.eq_swap]
  by_cases h : f.kind = g.kind
  · rw [hs h]
  · have hrank : Ord.compare g.kind.rank f.kind.rank ≠ .eq :=
      fun h' => h (Kind.rank_injective (Nat.compare_eq_eq.1 h')).symm
    cases hc : Ord.compare g.kind.rank f.kind.rank <;> first | rfl | exact absurd hc hrank

theorem compareWith_congr_kind {unit unit' : Bool} {f g f' g' : Fn α} (hf : f'.kind = f.kind)
    (hg : g'.kind = g.kind)
    (h : f.kind = g.kind → compareWith unit f g = compareWith unit' f' g') :
    compareWith unit f g = compareWith unit' f' g' := by
  rw [compareWith_kind unit, compareWith_kind unit', hf, hg]
  by_cases hk : f.kind = g.kind
  · rw [h hk]
  · have hrank : Ord.compare f.kind.rank g.kind.rank ≠ .eq :=
      fun h => hk (Kind.rank_injective (Nat.compare_eq_eq.1 h))
    cases hc : Ord.compare f.kind.rank g.kind.rank <;> first | rfl | exact absurd hc hrank

/-! ## Antisymmetry -/

variable [LawfulScalar α]

theorem cmpList_swap {as bs : List α} (h : as.length = bs.length) :
    Scalar.cmpList bs as = (Scalar.cmpList as bs).swap := by
  rw [cmpList_eq h, cmpList_eq h.symm]
  exact compareEach_swap fun a _ b _ => Scalar.cmp_swap a b

omit [LawfulScalar α] in
theorem compareInner_swap {inner inner' : Option (Fn α)}
    (h : ∀ f ∈ inner, ∀ g ∈ inner', compareWith false g f = (compareWith false f g).swap) :
    compareInner inner' inner = (compareInner inner inner').swap := by
  cases inner <;> cases inner' <;> first | rfl | exact h _ rfl _ rfl

theorem unary_swap (unit : Bool) (s s' : α) {k k' : Kernel α} (hk : k.kind = k'.kind)
    {inner inner' : Option (Fn α)}
    (h : ∀ f ∈ inner, ∀ g, compareWith false g f = (compareWith false f g).swap) :
    compareWith unit (unary k' s' inner') (unary k s inner) =
      (compareWith unit (unary k s inner) (unary k' s' inner')).swap := by
  simp only [compareWith_unary, Ordering.swap_then, ← Std.OrientedOrd.eq_swap, ← Scalar.cmp_swap,
    ← cmpList_swap (length_parameters hk), ← compareInner_swap fun f hf g _ => h f hf g]

/-- Comparing the other way round gives the opposite answer. -/
theorem compareWith_swap (unit : Bool) (f g : Fn α) :
    compareWith unit g f = (compareWith unit f g).swap := by
  induction f generalizing unit g with
  | zero | one | const v =>
    refine swap_of_kind fun h => ?_
    obtain ⟨w, hg⟩ := exists_value_of_kind rfl h
    rw [compareWith_value rfl hg, compareWith_value hg rfl]
    exact Scalar.cmp_swap _ _
  | undefined =>
    refine swap_of_kind fun h => ?_
    obtain rfl := eq_undefined_of_kind h
    simp [compareWith, value?]
  | plain k s =>
    refine swap_of_kind fun h => ?_
    obtain ⟨k', s', inner', hk, rfl⟩ := exists_unary_of_kind h
    exact unary_swap unit _ _ hk (by simp)
  | chain k s f ih =>
    refine swap_of_kind fun h => ?_
    obtain ⟨k', s', inner', hk, rfl⟩ := exists_unary_of_kind h
    exact unary_swap unit _ _ hk (by simpa using ih false)
  | sum ts ih =>
    refine swap_of_kind fun h => ?_
    obtain ⟨us, rfl⟩ := exists_sum_of_kind h
    rw [compareWith_sum, compareWith_sum, Ordering.swap_then, ← Std.OrientedOrd.eq_swap,
      compareEach_swap fun t ht u _ => ih t ht false u]
  | product fs ih =>
    refine swap_of_kind fun h => ?_
    obtain ⟨gs, rfl⟩ := exists_product_of_kind h
    rw [compareWith_product, compareWith_product, Ordering.swap_then, Ordering.swap_then,
      ← Std.OrientedOrd.eq_swap,
      compareEach_swap (c := compareWith true) fun f hf g _ => ih f hf true g,
      compareEach_swap (c := fun f g : Fn α => Scalar.cmp f.scale g.scale)
        fun _ _ _ _ => Scalar.cmp_swap ..]
  | quotient n d ihn ihd =>
    refine swap_of_kind fun h => ?_
    obtain ⟨n', d', rfl⟩ := exists_quotient_of_kind h
    rw [compareWith_quotient, compareWith_quotient, Ordering.swap_then, ihd false d', ihn unit n']
  | piecewise segments ih =>
    refine swap_of_kind fun h => ?_
    obtain ⟨ts, rfl⟩ := exists_piecewise_of_kind h
    rw [compareWith_piecewise, compareWith_piecewise, Ordering.swap_then,
      ← Std.OrientedOrd.eq_swap]
    congr 1
    refine compareEach_swap fun s hs t _ => ?_
    rw [Ordering.swap_then, ← Interval.compare_swap, ih s hs false]

/-! ## Transitivity -/

theorem isNaN_scaleKey (unit : Bool) {s : α} (hs : Scalar.isNaN s = false) :
    Scalar.isNaN (scaleKey unit s) = false := by
  unfold scaleKey unitScale
  split_ifs
  · exact hs
  · exact LawfulScalar.isNaN_one
  · exact hs

theorem HasNoNaN.value {f : Fn α} (hf : f.HasNoNaN) {v : α} (hv : f.value? = some v) :
    Scalar.isNaN v = false := by
  cases f <;> cases hv
  · exact LawfulScalar.isNaN_zero
  · exact LawfulScalar.isNaN_one
  · exact (numbers_const v).1 hf

theorem HasNoNaN.scale {f : Fn α} (hf : f.HasNoNaN) : Scalar.isNaN f.scale = false := by
  induction f with
  | zero | one | const v => exact hf.value rfl
  | plain k s | chain k s f => exact ((numbers_unary ..).1 hf).1
  | quotient n d ihn => exact ihn ((numbers_quotient n d).1 hf).1
  | undefined | sum | product | piecewise => exact LawfulScalar.isNaN_one

omit [LawfulScalar α] in
theorem HasNoNaN.terms {ts : List (Fn α)} (h : (sum ts).HasNoNaN) : ∀ t ∈ ts, t.HasNoNaN :=
  (numbers_sum ts).1 h

omit [LawfulScalar α] in
theorem HasNoNaN.factors {fs : List (Fn α)} (h : (product fs).HasNoNaN) :
    ∀ f ∈ fs, f.HasNoNaN :=
  (numbers_product fs).1 h

omit [LawfulScalar α] in
theorem HasNoNaN.parts {n d : Fn α} (h : (quotient n d).HasNoNaN) : n.HasNoNaN ∧ d.HasNoNaN :=
  (numbers_quotient n d).1 h

omit [LawfulScalar α] in
theorem HasNoNaN.segments {segments : List (Segment α (Fn α))}
    (h : (piecewise segments).HasNoNaN) :
    ∀ s ∈ segments, s.range.IsProper ∧ s.payload.HasNoNaN :=
  (numbers_piecewise segments).1 h

theorem scaleKey_consistent (unit : Bool) {s s' s'' : α} (hs : Scalar.isNaN s = false)
    (hs' : Scalar.isNaN s' = false) (hs'' : Scalar.isNaN s'' = false) :
    Consistent (Scalar.cmp (scaleKey unit s) (scaleKey unit s'))
      (Scalar.cmp (scaleKey unit s') (scaleKey unit s''))
      (Scalar.cmp (scaleKey unit s) (scaleKey unit s'')) :=
  Scalar.cmp_consistent (isNaN_scaleKey unit hs) (isNaN_scaleKey unit hs')
    (isNaN_scaleKey unit hs'')

theorem cmpList_consistent {as bs cs : List α} (hab : as.length = bs.length)
    (hbc : bs.length = cs.length) (ha : ∀ a ∈ as, Scalar.isNaN a = false)
    (hb : ∀ b ∈ bs, Scalar.isNaN b = false) (hc : ∀ c ∈ cs, Scalar.isNaN c = false) :
    Consistent (Scalar.cmpList as bs) (Scalar.cmpList bs cs) (Scalar.cmpList as cs) := by
  rw [cmpList_eq hab, cmpList_eq hbc, cmpList_eq (hab.trans hbc)]
  refine compareEach_consistent hab hbc ?_
  exact fun a h b h' c h'' => Scalar.cmp_consistent (ha a h) (hb b h') (hc c h'')

omit [LawfulScalar α] in
theorem compareInner_consistent {inner inner' inner'' : Option (Fn α)}
    (h : ∀ f ∈ inner, ∀ g ∈ inner', ∀ h ∈ inner'',
      Consistent (compareWith false f g) (compareWith false g h) (compareWith false f h)) :
    Consistent (compareInner inner inner') (compareInner inner' inner'')
      (compareInner inner inner'') := by
  intro hab hbc
  cases inner <;> cases inner' <;> cases inner'' <;> first
    | rfl
    | exact absurd hab Bool.false_ne_true
    | exact absurd hbc Bool.false_ne_true
    | exact h _ rfl _ rfl _ rfl hab hbc

theorem unary_consistent (unit : Bool) {k k' k'' : Kernel α} {s s' s'' : α}
    {inner inner' inner'' : Option (Fn α)} (hk : k.kind = k'.kind) (hk' : k'.kind = k''.kind)
    (hf : (unary k s inner).HasNoNaN) (hg : (unary k' s' inner').HasNoNaN)
    (hh : (unary k'' s'' inner'').HasNoNaN)
    (hc : ∀ f ∈ inner, ∀ g h, f.HasNoNaN → g.HasNoNaN → h.HasNoNaN →
      Consistent (compareWith false f g) (compareWith false g h) (compareWith false f h)) :
    Consistent (compareWith unit (unary k s inner) (unary k' s' inner'))
      (compareWith unit (unary k' s' inner') (unary k'' s'' inner''))
      (compareWith unit (unary k s inner) (unary k'' s'' inner'')) := by
  obtain ⟨hs, hp, hi⟩ := (numbers_unary ..).1 hf
  obtain ⟨hs', hp', hi'⟩ := (numbers_unary ..).1 hg
  obtain ⟨hs'', hp'', hi''⟩ := (numbers_unary ..).1 hh
  simp only [compareWith_unary]
  refine (compareNat_consistent _ _ _).then fun _ _ => ?_
  refine Consistent.then ?_ fun _ _ => Consistent.then ?_ fun _ _ => ?_
  · apply compareInner_consistent
    exact fun f h g h' l h'' => hc f h g l (hi f h) (hi' g h') (hi'' l h'')
  · exact cmpList_consistent (length_parameters hk) (length_parameters hk') hp hp' hp''
  · exact scaleKey_consistent unit hs hs' hs''

/-- The order of functions without NaN is transitive. -/
theorem compareWith_consistent (unit : Bool) {f g h : Fn α} (hf : f.HasNoNaN) (hg : g.HasNoNaN)
    (hh : h.HasNoNaN) :
    Consistent (compareWith unit f g) (compareWith unit g h) (compareWith unit f h) := by
  induction f generalizing unit g h with
  | zero | one | const v =>
    refine consistent_of_kind fun hfg hgh => ?_
    obtain ⟨w, hw⟩ := exists_value_of_kind rfl hfg
    obtain ⟨u, hu⟩ := exists_value_of_kind hw hgh
    rw [compareWith_value rfl hw, compareWith_value hw hu, compareWith_value rfl hu]
    exact scaleKey_consistent unit (hf.value rfl) (hg.value hw) (hh.value hu)
  | undefined =>
    refine consistent_of_kind fun hfg hgh => ?_
    obtain rfl := eq_undefined_of_kind hfg
    obtain rfl := eq_undefined_of_kind hgh
    simp [compareWith, value?, Consistent]
  | plain k s =>
    refine consistent_of_kind fun hfg hgh => ?_
    obtain ⟨k', s', inner', hk, rfl⟩ := exists_unary_of_kind hfg
    obtain ⟨k'', s'', inner'', hk', rfl⟩ := exists_unary_of_kind hgh
    exact unary_consistent unit hk hk' hf hg hh (by simp)
  | chain k s f ih =>
    refine consistent_of_kind fun hfg hgh => ?_
    obtain ⟨k', s', inner', hk, rfl⟩ := exists_unary_of_kind hfg
    obtain ⟨k'', s'', inner'', hk', rfl⟩ := exists_unary_of_kind hgh
    refine unary_consistent unit hk hk' hf hg hh fun f' hf' g h hf hg hh => ?_
    obtain rfl := Option.mem_some.1 hf'
    exact ih false hf hg hh
  | sum ts ih =>
    refine consistent_of_kind fun hfg hgh => ?_
    obtain ⟨us, rfl⟩ := exists_sum_of_kind hfg
    obtain ⟨vs, rfl⟩ := exists_sum_of_kind hgh
    rw [compareWith_sum, compareWith_sum, compareWith_sum]
    refine (compareNat_consistent _ _ _).then fun hl hl' => ?_
    refine compareEach_consistent (Nat.compare_eq_eq.1 hl) (Nat.compare_eq_eq.1 hl') ?_
    intro t ht u hu v hv
    exact ih t ht false (hf.terms t ht) (hg.terms u hu) (hh.terms v hv)
  | product fs ih =>
    refine consistent_of_kind fun hfg hgh => ?_
    obtain ⟨gs, rfl⟩ := exists_product_of_kind hfg
    obtain ⟨hs, rfl⟩ := exists_product_of_kind hgh
    rw [compareWith_product, compareWith_product, compareWith_product]
    refine (compareNat_consistent _ _ _).then fun hl hl' => ?_
    rw [Nat.compare_eq_eq] at hl hl'
    refine Consistent.then ?_ fun _ _ => ?_
    · refine compareEach_consistent hl hl' fun f h g h' l h'' => ?_
      exact ih f h true (hf.factors f h) (hg.factors g h') (hh.factors l h'')
    · refine compareEach_consistent hl hl' fun f h g h' l h'' => ?_
      exact Scalar.cmp_consistent (hf.factors f h).scale (hg.factors g h').scale
        (hh.factors l h'').scale
  | quotient n d ihn ihd =>
    refine consistent_of_kind fun hfg hgh => ?_
    obtain ⟨n', d', rfl⟩ := exists_quotient_of_kind hfg
    obtain ⟨n'', d'', rfl⟩ := exists_quotient_of_kind hgh
    rw [compareWith_quotient, compareWith_quotient, compareWith_quotient]
    refine (ihd false hf.parts.2 hg.parts.2 hh.parts.2).then fun _ _ => ?_
    exact ihn unit hf.parts.1 hg.parts.1 hh.parts.1
  | piecewise segments ih =>
    refine consistent_of_kind fun hfg hgh => ?_
    obtain ⟨ts, rfl⟩ := exists_piecewise_of_kind hfg
    obtain ⟨us, rfl⟩ := exists_piecewise_of_kind hgh
    rw [compareWith_piecewise, compareWith_piecewise, compareWith_piecewise]
    refine (compareNat_consistent _ _ _).then fun hl hl' => ?_
    rw [Nat.compare_eq_eq] at hl hl'
    refine compareEach_consistent hl hl' fun s hs t ht u hu => ?_
    obtain ⟨hrs, hps⟩ := hf.segments s hs
    obtain ⟨hrt, hpt⟩ := hg.segments t ht
    obtain ⟨hru, hpu⟩ := hh.segments u hu
    exact (Interval.compare_consistent hrs hrt hru).then fun _ _ => ih s hs false hps hpt hpu

/-! ## Equality -/

theorem cmp_one_one : Scalar.cmp (1 : α) 1 = .eq :=
  (Scalar.cmp_eq_iff LawfulScalar.isNaN_one LawfulScalar.isNaN_one).2 LawfulScalar.one_beq_one

omit [LawfulScalar α] in
theorem kind_of_compareWith {unit : Bool} {f g : Fn α} (h : compareWith unit f g = .eq) :
    f.kind = g.kind := by
  rw [compareWith_kind, compareNat_then_eq_iff] at h
  exact Kind.rank_injective h.1

/-- Functions that compare as equal have equal scales. -/
theorem cmp_scale_of_compareWith {f g : Fn α} (h : compareWith false f g = .eq) :
    Scalar.cmp f.scale g.scale = .eq := by
  have hkind := kind_of_compareWith h
  induction f generalizing g with
  | zero | one | const v =>
    obtain ⟨w, hw⟩ := exists_value_of_kind rfl hkind
    rw [compareWith_value rfl hw] at h
    rw [scale_of_value? hw]
    exact h
  | undefined | sum | product | piecewise =>
    cases alike_of_kind hkind with
    | values hv => cases hv
    | _ => exact cmp_one_one
  | plain k s | chain k s f =>
    obtain ⟨k', s', inner', -, rfl⟩ := exists_unary_of_kind hkind
    rw [compareWith_unary] at h
    simp only [Ordering.then_eq_eq] at h
    exact h.2.2.2
  | quotient n d ihn =>
    obtain ⟨n', d', rfl⟩ := exists_quotient_of_kind hkind
    rw [compareWith_quotient, Ordering.then_eq_eq] at h
    exact ihn (g := n') h.2 (kind_of_compareWith h.2)

/-- Numbers that compare as equal still do when those other than zero are replaced by one. -/
theorem cmp_scaleKey (unit : Bool) {s s' : α} (hs : Scalar.isNaN s = false)
    (hs' : Scalar.isNaN s' = false) (h : Scalar.cmp s s' = .eq) :
    Scalar.cmp (scaleKey unit s) (scaleKey unit s') = .eq := by
  rw [Scalar.cmp_eq_iff hs hs'] at h
  rw [Scalar.cmp_eq_iff (isNaN_scaleKey unit hs) (isNaN_scaleKey unit hs')]
  have hiff (a : α) : (s == a) = true ↔ (s' == a) = true :=
    ⟨PartialEquivBEq.trans (PartialEquivBEq.symm h), PartialEquivBEq.trans h⟩
  simp only [scaleKey, unitScale, Bool.or_eq_true, hiff]
  split_ifs
  · exact h
  · exact LawfulScalar.one_beq_one
  · exact h

theorem cmpList_eq_iff {as bs : List α} (h : as.length = bs.length)
    (ha : ∀ a ∈ as, Scalar.isNaN a = false) (hb : ∀ b ∈ bs, Scalar.isNaN b = false) :
    Scalar.cmpList as bs = .eq ↔ (as == bs) = true := by
  rw [cmpList_eq h, compareEach_eq_iff h fun a h b h' => Scalar.cmp_eq_iff (ha a h) (hb b h')]
  induction as generalizing bs with
  | nil => cases bs <;> simp
  | cons a as ih => cases bs <;> simp_all

omit [LawfulScalar α] in
theorem compareInner_eq_iff {inner inner' : Option (Fn α)}
    (h : ∀ f ∈ inner, ∀ g ∈ inner', compareWith false f g = .eq ↔ (f == g) = true) :
    compareInner inner inner' = .eq ↔ equalInner inner inner' = true := by
  cases inner <;> cases inner' <;> simp_all [compareInner, equalInner]

theorem unary_eq_iff (unit : Bool) {k k' : Kernel α} {s s' : α} {inner inner' : Option (Fn α)}
    (hk : k.kind = k'.kind) (hf : (unary k s inner).HasNoNaN)
    (hg : (unary k' s' inner').HasNoNaN)
    (hc : ∀ f ∈ inner, ∀ g, f.HasNoNaN → g.HasNoNaN →
      (compareWith false f g = .eq ↔ (f == g) = true)) :
    (compareWith unit (unary k s inner) (unary k' s' inner')).then (Scalar.cmp s s') = .eq ↔
      (unary k s inner == unary k' s' inner') = true := by
  obtain ⟨hs, hp, hi⟩ := (numbers_unary ..).1 hf
  obtain ⟨hs', hp', hi'⟩ := (numbers_unary ..).1 hg
  have hinner : compareInner inner inner' = .eq ↔ equalInner inner inner' = true :=
    compareInner_eq_iff fun f h g h' => hc f h g (hi f h) (hi' g h')
  have hkernel : (k == k') = true ↔ (k.parameters == k'.parameters) = true := by
    simp [BEq.beq, hk]
  have hscale := cmp_scaleKey unit hs hs'
  rw [compareWith_unary, unary_beq_unary, hk]
  simp only [Ordering.then_eq_eq, Nat.compare_eq_eq, Bool.and_eq_true, hinner, hkernel,
    cmpList_eq_iff (length_parameters hk) hp hp', ← Scalar.cmp_eq_iff hs hs']
  tauto

omit [LawfulScalar α] in
theorem kind_of_beq {f g : Fn α} (h : (f == g) = true) : f.kind = g.kind := by
  cases f <;> cases g <;> first
    | rfl
    | exact absurd h Bool.false_ne_true
    | simp only [unary_beq_unary, Bool.and_eq_true] at h
      obtain ⟨⟨-, hk⟩, -⟩ := h
      simp only [BEq.beq, Bool.and_eq_true, decide_eq_true_eq] at hk
      exact hk.1
    | simp [BEq.beq, equal] at h

omit [LawfulScalar α] in
theorem eq_iff_of_kind {unit : Bool} {f g : Fn α}
    (h : f.kind = g.kind →
      ((compareWith unit f g).then (Scalar.cmp f.scale g.scale) = .eq ↔ (f == g) = true)) :
    (compareWith unit f g).then (Scalar.cmp f.scale g.scale) = .eq ↔ (f == g) = true := by
  constructor
  · intro hc
    exact (h (kind_of_compareWith (Ordering.then_eq_eq.1 hc).1)).1 hc
  · intro hb
    exact (h (kind_of_beq hb)).2 hb

/-- Functions without NaN are equal just if they compare as equal. Where the comparison leaves
scales aside, they have to have equal scales, too. -/
theorem compareWith_then_eq_iff (unit : Bool) {f g : Fn α} (hf : f.HasNoNaN) (hg : g.HasNoNaN) :
    (compareWith unit f g).then (Scalar.cmp f.scale g.scale) = .eq ↔ (f == g) = true := by
  have hscale {f g : Fn α} (h : (compareWith false f g).then (Scalar.cmp f.scale g.scale) = .eq ↔
      (f == g) = true) : compareWith false f g = .eq ↔ (f == g) = true := by
    rw [← h, Ordering.then_eq_eq]
    exact ⟨fun h => ⟨h, cmp_scale_of_compareWith h⟩, And.left⟩
  induction f generalizing unit g with
  | zero | one | const v =>
    refine eq_iff_of_kind fun hk => ?_
    obtain ⟨w, hw⟩ := exists_value_of_kind rfl hk
    rw [compareWith_value rfl hw, beq_of_value rfl, hw, Option.any_some, scale_of_value? hw,
      ← Scalar.cmp_eq_iff (hf.value rfl) (hg.value hw), Ordering.then_eq_eq]
    exact ⟨And.right, fun h => ⟨cmp_scaleKey unit (hf.value rfl) (hg.value hw) h, h⟩⟩
  | undefined =>
    refine eq_iff_of_kind fun hk => ?_
    obtain rfl := eq_undefined_of_kind hk
    simp only [compareWith, value?, Ordering.then_eq_eq, Nat.compare_eq_eq, true_and]
    exact ⟨fun _ => rfl, fun _ => cmp_one_one⟩
  | plain k s =>
    refine eq_iff_of_kind fun hk => ?_
    obtain ⟨k', s', inner', hk, rfl⟩ := exists_unary_of_kind hk
    exact unary_eq_iff unit hk hf hg (by simp)
  | chain k s f ih =>
    refine eq_iff_of_kind fun hk => ?_
    obtain ⟨k', s', inner', hk, rfl⟩ := exists_unary_of_kind hk
    refine unary_eq_iff unit hk hf hg fun f' hf' g hf hg => ?_
    obtain rfl := Option.mem_some.1 hf'
    exact hscale (ih false hf hg)
  | sum ts ih =>
    refine eq_iff_of_kind fun hk => ?_
    obtain ⟨us, rfl⟩ := exists_sum_of_kind hk
    rw [sum_beq_sum, Ordering.then_eq_eq, compareWith_sum, compareNat_then_eq_iff]
    refine (and_iff_left cmp_one_one).trans (length_compareEach_eq_iff fun t ht u hu => ?_)
    exact hscale (ih t ht false (hf.terms t ht) (hg.terms u hu))
  | product fs ih =>
    refine eq_iff_of_kind fun hk => ?_
    obtain ⟨gs, rfl⟩ := exists_product_of_kind hk
    rw [product_beq_product, Ordering.then_eq_eq, compareWith_product, compareNat_then_eq_iff,
      compareEach_then_eq_iff]
    refine (and_iff_left cmp_one_one).trans (length_compareEach_eq_iff fun f h g h' => ?_)
    exact ih f h true (hf.factors f h) (hg.factors g h')
  | quotient n d ihn ihd =>
    refine eq_iff_of_kind fun hk => ?_
    obtain ⟨n', d', rfl⟩ := exists_quotient_of_kind hk
    have hn := ihn unit hf.parts.1 hg.parts.1
    have hd := hscale (ihd false hf.parts.2 hg.parts.2)
    rw [Ordering.then_eq_eq] at hn
    rw [quotient_beq_quotient, Ordering.then_eq_eq, compareWith_quotient, Ordering.then_eq_eq]
    constructor
    · rintro ⟨⟨hcd, hcn⟩, hcs⟩
      exact ⟨hn.1 ⟨hcn, hcs⟩, hd.1 hcd⟩
    · rintro ⟨hbn, hbd⟩
      obtain ⟨hcn, hcs⟩ := hn.2 hbn
      exact ⟨⟨hd.2 hbd, hcn⟩, hcs⟩
  | piecewise segments ih =>
    refine eq_iff_of_kind fun hk => ?_
    obtain ⟨ts, rfl⟩ := exists_piecewise_of_kind hk
    rw [piecewise_beq_piecewise, Ordering.then_eq_eq, compareWith_piecewise,
      compareNat_then_eq_iff]
    refine (and_iff_left cmp_one_one).trans (length_compareEach_eq_iff fun s hs t ht => ?_)
    obtain ⟨hrs, hps⟩ := hf.segments s hs
    obtain ⟨hrt, hpt⟩ := hg.segments t ht
    rw [Ordering.then_eq_eq, Interval.compare_eq_iff hrs hrt, hscale (ih s hs false hps hpt)]

theorem compare_eq_iff {f g : Fn α} (hf : f.HasNoNaN) (hg : g.HasNoNaN) :
    f.compare g = .eq ↔ (f == g) = true := by
  rw [← compareWith_then_eq_iff false hf hg, Ordering.then_eq_eq]
  exact ⟨fun h => ⟨h, cmp_scale_of_compareWith h⟩, And.left⟩

end FunctionAlgebra.Fn
