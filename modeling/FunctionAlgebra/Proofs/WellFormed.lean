import FunctionAlgebra.Fn.Construct
import FunctionAlgebra.Proofs.Tiling

/-!
# Well-formed functions

Some trees stand for no function: an empty product, and a piecewise function whose segments do not
tile its domain. Constructors never make them.

## Main definitions

* `Ensures` — a computation that may fail has only results of one kind.
* `Fn.WellFormed` — products have factors, and the segments of piecewise functions are tiles.
* `Fn.Inherited` — a property that functions have if the parts have it of which they are made.
* `Fn.DistinctPoints` — finite points, no two of which have the same `x`.

## Main statements

* `Fn.inherited_wellFormed` — functions that are made of well-formed parts are well-formed.
* `Fn.Inherited.throughPoints` — the piecewise linear function through points has all inherited
  properties.
* `Constructor.ensures_apply` — constructors make functions with the inherited properties of their
  arguments.
-/

namespace FunctionAlgebra

open LineScalar (toEReal lt_eq beq_eq)

/-! ## Results of computations that may fail -/

section Ensures

variable {ε β γ : Type} {Q : β → Prop} {R : γ → Prop}

def Ensures (Q : β → Prop) (r : Except ε β) : Prop := ∀ x, r = .ok x → Q x

namespace Ensures

theorem ok {x : β} (h : Q x) : Ensures Q (.ok x : Except ε β) := by
  rintro _ ⟨⟩
  exact h

theorem error (e : ε) : Ensures Q (.error e) := nofun

theorem any (r : Except ε β) : Ensures (fun _ => True) r := fun _ _ => trivial

theorem bind {r : Except ε β} {k : β → Except ε γ} (h : Ensures Q r)
    (hk : ∀ x, Q x → Ensures R (k x)) : Ensures R (r >>= k) := by
  cases r with
  | ok x => exact hk x (h x rfl)
  | error e => exact error e

theorem map {r : Except ε β} {f : β → γ} (h : Ensures Q r) (hf : ∀ x, Q x → R (f x)) :
    Ensures R (f <$> r) := by
  cases r with
  | ok x => exact ok (hf x (h x rfl))
  | error e => exact error e

theorem mapM {f : γ → Except ε β} {xs : List γ} (h : ∀ x ∈ xs, Ensures Q (f x)) :
    Ensures (fun ys => ys.length = xs.length ∧ ∀ y ∈ ys, Q y) (xs.mapM f) := by
  induction xs with
  | nil => exact ok (by simp)
  | cons x xs ih =>
    rw [List.forall_mem_cons] at h
    rw [List.mapM_cons]
    refine h.1.bind fun y hy => (ih h.2).bind fun ys hys => ok ?_
    simpa [hy] using hys

/-- What each step preserves holds at the end. -/
theorem foldlM {f : β → γ → Except ε β} {init : β} (h : Q init)
    (hf : ∀ s x, Q s → Ensures Q (f s x)) (xs : List γ) : Ensures Q (xs.foldlM f init) := by
  induction xs generalizing init with
  | nil => exact ok h
  | cons x xs ih =>
    rw [List.foldlM_cons]
    exact (hf init x h).bind fun s hs => ih hs

end Ensures

end Ensures

variable {α : Type} [Scalar α]

namespace Fn

section WellFormed

variable [LineScalar α]

/-- Products have factors, and the segments of piecewise functions are tiles. -/
inductive WellFormed : Fn α → Prop where
  | value {f v} (hv : f.value? = some v) : WellFormed f
  | undefined : WellFormed undefined
  | plain {k s} : WellFormed (unary k s none)
  | chain {k s f} (hf : WellFormed f) : WellFormed (unary k s (some f))
  | sum {ts : List (Fn α)} (ht : ∀ t ∈ ts, WellFormed t) : WellFormed (sum ts)
  | product {fs : List (Fn α)} (hne : fs ≠ []) (hf : ∀ f ∈ fs, WellFormed f) :
    WellFormed (product fs)
  | quotient {n d} (hn : WellFormed n) (hd : WellFormed d) : WellFormed (quotient n d)
  | piecewise {segments : List (Segment α (Fn α))} (htiles : Tiles segments)
    (hs : ∀ s ∈ segments, WellFormed s.payload) : WellFormed (piecewise segments)

theorem WellFormed.const (v : α) : (const v).WellFormed := .value rfl

theorem WellFormed.scaled {k : Kernel α} {s : α} {inner : Option (Fn α)}
    (h : ∀ f ∈ inner, f.WellFormed) : (scaled k s inner).WellFormed := by
  cases inner with
  | none => exact .plain
  | some f => exact .chain (h f rfl)

/-- A function is well-formed if it is made from segments with well-formed payloads. -/
theorem ensures_ofSegments {segments : List (Segment α (Fn α))}
    (h : ∀ s ∈ segments, s.range.isValid = true ∧ s.payload.WellFormed) :
    Ensures WellFormed (ofSegments segments) := by
  intro f hf
  obtain ⟨-, -, tiles, rfl, htiles, gaps, hperm, hgaps⟩ :=
    ofSegments_eq_ok (fun s hs => (h s hs).1) hf
  refine .piecewise htiles fun s hs => ?_
  rcases List.mem_append.1 (hperm.mem_iff.1 hs) with hs | hs
  · exact (h s hs).2
  · exact hgaps s hs ▸ .undefined

end WellFormed

/-! ## Inherited properties -/

/-- A property that functions have if the parts have it of which they are made. -/
structure Inherited (P : Fn α → Prop) : Prop where
  const (v : α) : P (const v)
  undefined : P undefined
  scaled {k : Kernel α} {s : α} {inner : Option (Fn α)} (h : ∀ f ∈ inner, P f) :
    P (scaled k s inner)
  sum {ts : List (Fn α)} (hne : ts ≠ []) (ht : ∀ t ∈ ts, P t) : P (sum ts)
  product {fs : List (Fn α)} (hne : fs ≠ []) (hf : ∀ f ∈ fs, P f) : P (product fs)
  quotient {n d : Fn α} (hn : P n) (hd : P d) : P (quotient n d)
  ofSegments {segments : List (Segment α (Fn α))}
    (h : ∀ s ∈ segments, s.range.isValid = true ∧ P s.payload) : Ensures P (ofSegments segments)

theorem inherited_wellFormed [LineScalar α] : Inherited (WellFormed : Fn α → Prop) where
  const := .const
  undefined := .undefined
  scaled := .scaled
  sum _ := .sum
  product := .product
  quotient := .quotient
  ofSegments := ensures_ofSegments

namespace Inherited

variable {P : Fn α → Prop}

theorem line (hP : Inherited P) (p q : α × α) : P (line p q) := by
  have hside (s b : α) :
      P (.quotient (.sum [.power none s 1, .const b]) (.const (q.1 - p.1))) := by
    refine hP.quotient (hP.sum (by simp) ?_) (hP.const _)
    simpa using ⟨hP.scaled (by simp), hP.const b⟩
  refine hP.sum (by simp) ?_
  simpa using ⟨hP.scaled (by simpa using hside ..), hP.scaled (by simpa using hside ..)⟩

theorem linesThrough (hP : Inherited P) {points : List (α × α)}
    (h : points.IsChain fun p q => Scalar.lt p.1 q.1 = true) (isFirst : Bool) :
    ∀ s ∈ linesThrough isFirst points, s.range.isValid = true ∧ P s.payload := by
  induction points generalizing isFirst with
  | nil => simp [Fn.linesThrough]
  | cons p rest ih =>
    cases rest with
    | nil => simp [Fn.linesThrough]
    | cons q rest =>
      rw [List.isChain_cons_cons] at h
      refine List.forall_mem_cons.2 ⟨⟨?_, hP.line p q⟩, ih h.2 false⟩
      simp [Interval.isValid, h.1]

end Inherited

/-! ## Functions through points -/

structure DistinctPoints (points : List (α × α)) : Prop where
  finite : ∀ p ∈ points, Scalar.isFinite p.1 = true ∧ Scalar.isFinite p.2 = true
  distinct : points.Pairwise fun p q => (p.1 == q.1) = false

theorem ensures_insertPoint {points : List (α × α)} (h : DistinctPoints points) (p : α × α) :
    Ensures DistinctPoints (insertPoint points p) := by
  unfold insertPoint
  split
  · exact .error _
  rename_i hp
  simp only [Bool.not_eq_true', Bool.not_eq_false, Bool.and_eq_true] at hp
  cases hfind : points.find? (·.1 == p.1) with
  | none =>
    rw [List.find?_eq_none] at hfind
    refine .ok ⟨fun q hq => ?_, List.pairwise_append.2 ⟨h.distinct, by simp, fun q hq r hr => ?_⟩⟩
    · rcases List.mem_append.1 hq with hq | hq
      · exact h.finite q hq
      · exact List.mem_singleton.1 hq ▸ hp
    · obtain rfl := List.mem_singleton.1 hr
      simpa using hfind q hq
  | some q =>
    dsimp only
    split
    · -- Only second coordinates change.
      have hfst (r : α × α) : (if r.1 == p.1 then (r.1, p.2) else r).1 = r.1 := by
        split <;> rfl
      refine .ok ⟨List.forall_mem_map.2 fun r hr => ⟨?_, ?_⟩, List.pairwise_map.2 ?_⟩
      · rw [hfst]
        exact (h.finite r hr).1
      · split
        exacts [hp.2, (h.finite r hr).2]
      · simpa only [hfst] using h.distinct
    · exact .error _

theorem pointBefore_iff [LineScalar α] {p q : α × α}
    (hp : Scalar.isNaN p.1 = false ∧ Scalar.isNaN p.2 = false)
    (hq : Scalar.isNaN q.1 = false ∧ Scalar.isNaN q.2 = false) :
    pointBefore p q = true ↔
      toLex (toEReal p.1, toEReal p.2) < toLex (toEReal q.1, toEReal q.2) := by
  rw [pointBefore, beq_eq hp.1 hq.1, lt_eq hp.1 hq.1, lt_eq hp.2 hq.2, Prod.Lex.toLex_lt_toLex]
  split_ifs with h
  · simp_all
  · simp_all

theorem orders_pointBefore [LineScalar α] :
    Orders pointBefore fun p : α × α => Scalar.isNaN p.1 = false ∧ Scalar.isNaN p.2 = false where
  asymm hp hq h := by
    rw [pointBefore_iff hp hq] at h
    rw [← Bool.not_eq_true, pointBefore_iff hq hp]
    exact h.asymm
  trans hp hq hr hqp hqr := by
    rw [← Bool.not_eq_true, pointBefore_iff hq hp, not_lt] at hqp
    rw [← Bool.not_eq_true, pointBefore_iff hr hq, not_lt] at hqr
    rw [← Bool.not_eq_true, pointBefore_iff hr hp, not_lt]
    exact hqp.trans hqr

/-- In sorted points, each one lies to the left of the next. -/
theorem DistinctPoints.isChain_sort [LineScalar α] {points : List (α × α)}
    (h : DistinctPoints points) :
    (sortStable pointBefore points).IsChain fun p q => Scalar.lt p.1 q.1 = true := by
  have hperm : (sortStable pointBefore points).Perm points := sortStable_perm pointBefore points
  have hnan : ∀ p ∈ points, Scalar.isNaN p.1 = false ∧ Scalar.isNaN p.2 = false := fun p hp =>
    ⟨(LineScalar.isFinite_iff.1 (h.finite p hp).1).1,
      (LineScalar.isFinite_iff.1 (h.finite p hp).2).1⟩
  have hdistinct : (sortStable pointBefore points).Pairwise fun p q => (p.1 == q.1) = false :=
    (hperm.pairwise_iff fun h => BEq.comm.trans h).2 h.distinct
  have hsorted := (sortStable_ascending orders_pointBefore hnan).pairwise
  refine ((hdistinct.and hsorted).imp_of_mem fun {p q} hp hq ⟨hne, hle⟩ => ?_).isChain
  have hpn := (hnan p (hperm.mem_iff.1 hp)).1
  have hqn := (hnan q (hperm.mem_iff.1 hq)).1
  rw [pointBefore, BEq.comm, hne, if_neg Bool.false_ne_true, lt_eq hqn hpn,
    decide_eq_false_iff_not, not_lt] at hle
  rw [beq_eq hpn hqn, decide_eq_false_iff_not] at hne
  rw [lt_eq hpn hqn, decide_eq_true_iff]
  exact lt_of_le_of_ne hle hne

/-- The piecewise linear function through points has all inherited properties. -/
theorem Inherited.throughPoints [LineScalar α] {P : Fn α → Prop} (hP : Inherited P)
    {points : List (α × α)} (h : DistinctPoints points) : Ensures P (throughPoints points) := by
  unfold Fn.throughPoints
  split
  · exact .error _
  · exact hP.ofSegments (hP.linesThrough h.isChain_sort true)

end Fn

/-! ## Constructors -/

def Argument.Satisfies (P : Fn α → Prop) : Argument α → Prop
  | function f => P f
  | interval range payload => range.isValid = true ∧ payload.Satisfies P
  | none | number _ | truth _ | text _ => True

section Constructors

variable {P : Fn α → Prop}

theorem Argument.ensures_toFunction (hP : Fn.Inherited P) {a : Argument α} (h : a.Satisfies P)
    (role : String) : Ensures P (a.toFunction role) := by
  cases a with
  | none => exact .error _
  | function f => exact .ok h
  | number | truth => exact .ok (hP.const _)
  | text | interval => exact (Ensures.any _).bind fun t _ => .error _

theorem Argument.ensures_toSegment {a : Argument α} (h : a.Satisfies P) :
    Ensures (fun s => s.range.isValid = true ∧ P s.payload) a.toSegment := by
  cases a with
  | interval range payload =>
    cases payload with
    | function f => exact .ok h
    | _ => exact .error _
  | _ => exact (Ensures.any _).bind fun t _ => .error _

namespace Constructor

variable {args : List (Argument α)} {inner : Argument α} {named : Option (Argument α)}

theorem ensures_toInner (h : inner.Satisfies P) :
    Ensures (fun o => ∀ f ∈ o, P f) (toInner inner) := by
  cases inner with
  | none => exact .ok (by simp)
  | function f =>
    refine .ok ?_
    rintro f ⟨⟩
    exact h
  | _ => exact (Ensures.any _).bind fun t _ => .error _

theorem ensures_splitInner (ha : ∀ a ∈ args.head?, a.Satisfies P) (hi : inner.Satisfies P) :
    Ensures (fun r => r.1.Satisfies P) (splitInner args inner) := by
  unfold splitInner
  split
  · split
    exacts [.ok trivial, .error _]
  · split
    exacts [.ok (ha _ rfl), .error _]
  · exact .ok hi

theorem ensures_makePower (hP : Fn.Inherited P) (ha : ∀ a ∈ args.head?, a.Satisfies P)
    (hi : inner.Satisfies P) : Ensures P (makePower args inner) := by
  refine (ensures_splitInner ha hi).bind fun ⟨inner, args⟩ hinner => ?_
  dsimp only
  split
  all_goals
    refine (Ensures.any _).bind fun r _ => (ensures_toInner hinner).bind fun o ho => ?_
    refine (Ensures.any _).bind fun w _ => ?_
    split
    exacts [.ok (hP.scaled ho), (Ensures.any _).bind fun p _ => .ok (hP.scaled ho)]

theorem ensures_makeStandard (hP : Fn.Inherited P) (kind : Fn.Kind) (defaults : List α)
    (kernel : List α → Kernel α) (ha : ∀ a ∈ args.head?, a.Satisfies P) (hi : inner.Satisfies P) :
    Ensures P (makeStandard kind defaults kernel args inner) := by
  refine (ensures_splitInner ha hi).bind fun r hr => ?_
  refine (Ensures.any _).bind fun _ _ => ?_
  refine (ensures_toInner hr).bind fun o ho => ?_
  refine (Ensures.any _).bind fun ps _ => ?_
  cases ps with
  | nil => exact .ok hP.undefined
  | cons s ps => exact .ok (hP.scaled ho)

theorem ensures_lastInner (ha : ∀ a ∈ args, a.Satisfies P) (hn : ∀ a ∈ named, a.Satisfies P)
    (call : String) (least most : Nat) :
    Ensures (fun r => r.2.Satisfies P) (lastInner call least most args named) := by
  unfold lastInner
  cases named with
  | some inner =>
    dsimp only
    split
    exacts [.error _, .ok (hn inner rfl)]
  | none =>
    dsimp only
    split
    · exact .error _
    · cases hlast : args[most - 1]? with
      | none => exact .ok trivial
      | some last => exact .ok (ha last (List.mem_of_getElem? hlast))

theorem ensures_makeCosine (hP : Fn.Inherited P) (ha : ∀ a ∈ args, a.Satisfies P)
    (hn : ∀ a ∈ named, a.Satisfies P) : Ensures P (makeCosine args named) := by
  refine (ensures_lastInner ha hn _ _ _).bind fun ⟨args, inner⟩ hinner => ?_
  dsimp only
  split
  all_goals
    refine (Ensures.any _).bind fun _ _ => (Ensures.any _).bind fun shift _ => ?_
    exact ensures_makeStandard hP _ _ _ (by simpa using hinner) trivial

theorem ensures_makeArcCosine (hP : Fn.Inherited P) (ha : ∀ a ∈ args, a.Satisfies P)
    (hn : ∀ a ∈ named, a.Satisfies P) : Ensures P (makeArcCosine args named) := by
  refine (ensures_lastInner ha hn _ _ _).bind fun ⟨args, inner⟩ hinner => ?_
  dsimp only
  split
  all_goals
    refine (Ensures.any _).bind fun omega _ => ?_
    exact ensures_makeStandard hP _ _ _ (by simpa using hinner) trivial

theorem ensures_makeLogarithm (hP : Fn.Inherited P) (ha : ∀ a ∈ args.head?, a.Satisfies P)
    (hi : inner.Satisfies P) : Ensures P (makeLogarithm args inner) := by
  refine (ensures_splitInner ha hi).bind fun r hr => ?_
  refine (Ensures.any _).bind fun _ _ => (Ensures.any _).bind fun _ _ => ?_
  refine (Ensures.any _).bind fun s _ => ?_
  exact (ensures_toInner hr).bind fun o ho => .ok (hP.scaled ho)

theorem ensures_makeScaledLogarithm (hP : Fn.Inherited P) (ha : ∀ a ∈ args, a.Satisfies P)
    (hn : ∀ a ∈ named, a.Satisfies P) : Ensures P (makeScaledLogarithm args named) := by
  refine (ensures_lastInner ha hn _ _ _).bind fun r hr => ?_
  dsimp only
  split
  · exact .error _
  · refine (ensures_toInner hr).bind fun o ho => ?_
    exact (Ensures.any _).bind fun s _ => .ok (hP.scaled ho)

theorem ensures_makePiecewise (hP : Fn.Inherited P) (ha : ∀ a ∈ args, a.Satisfies P) :
    Ensures P (makePiecewise args) :=
  (Ensures.mapM fun a h => Argument.ensures_toSegment (ha a h)).bind fun _ h => hP.ofSegments h.2

theorem ensures_interpolateArguments [LineScalar α] (hP : Fn.Inherited P)
    (points : List (Argument α × Argument α)) :
    Ensures P (interpolateArguments points) := by
  refine Ensures.bind (Q := Fn.DistinctPoints) (.foldlM ⟨by simp, .nil⟩ ?_ points) fun ps hps =>
    hP.throughPoints hps
  intro ps p hps
  refine (Ensures.any _).bind fun x _ => (Ensures.any _).bind fun y _ => ?_
  exact Fn.ensures_insertPoint hps (x, y)

omit [Scalar α] in
theorem ne_nil_of_length {β : Type} {ys : List β} (hne : ¬ args.isEmpty = true)
    (hlen : ys.length = args.length) : ys ≠ [] := by
  rintro rfl
  exact hne (List.isEmpty_iff_length_eq_zero.2 hlen.symm)

/-- Constructors make functions with the inherited properties of their arguments. -/
theorem ensures_apply [LineScalar α] (hP : Fn.Inherited P) (c : Constructor)
    (ha : ∀ a ∈ args, a.Satisfies P)
    (hn : ∀ a ∈ named, a.Satisfies P) : Ensures P (c.apply args named) := by
  have hhead : ∀ a ∈ args.head?, a.Satisfies P := fun a h => ha a (List.mem_of_mem_head? h)
  have hinner : (named.getD .none).Satisfies P := by
    cases named with
    | none => trivial
    | some inner => exact hn inner rfl
  cases c <;> simp only [apply]
  case power => exact ensures_makePower hP hhead hinner
  case sine | arcSine | arcTangent | exponential => exact ensures_makeStandard hP _ _ _ hhead hinner
  case cosine => exact ensures_makeCosine hP ha hn
  case arcCosine => exact ensures_makeArcCosine hP ha hn
  case logarithm => exact ensures_makeLogarithm hP hhead hinner
  case scaledLogarithm => exact ensures_makeScaledLogarithm hP ha hn
  -- The other constructors accept no inner function by name.
  all_goals
    split
    · exact .error _
  case constant =>
    split
    · exact (Ensures.any _).map fun v _ => hP.const v
    · exact .error _
    · exact .error _
  case undefined =>
    split
    exacts [.ok hP.undefined, .error _]
  case sum =>
    split
    · exact .error _
    · rename_i hne
      refine (Ensures.mapM fun a h => Argument.ensures_toFunction hP (ha a h) _).map
        fun ts h => hP.sum (ne_nil_of_length hne h.1) h.2
  case product =>
    split
    · exact .error _
    · rename_i hne
      refine (Ensures.mapM fun a h => Argument.ensures_toFunction hP (ha a h) _).map
        fun fs h => hP.product (ne_nil_of_length hne h.1) h.2
  case quotient =>
    split
    · refine (Argument.ensures_toFunction hP (ha _ (by simp)) _).bind fun n hn => ?_
      refine (Argument.ensures_toFunction hP (ha _ (by simp)) _).bind fun d hd => ?_
      exact .ok (hP.quotient hn hd)
    all_goals exact .error _
  case piecewise => exact ensures_makePiecewise hP ha
  case piecewiseLinear =>
    exact (Ensures.any _).bind fun points _ => ensures_interpolateArguments hP points

end Constructor

end Constructors

end FunctionAlgebra
