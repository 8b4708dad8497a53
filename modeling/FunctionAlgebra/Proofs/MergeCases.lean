import FunctionAlgebra.Fn.Simplify
import FunctionAlgebra.Proofs.Attempt

/-!
# What a merge gives

Each of the three merges has a few cases in which it gives a function. They are listed here once,
as inductive predicates.

## Main definitions

* `Fn.Multiplied`, `Fn.Divided`, `Fn.Added` — a function is the merged product, quotient or sum of
  two others.
* `Fn.Addable` — two functions have a merged sum.

## Main statements

* `Fn.multiplied_of_mergeMultiply?`, `Fn.divided_of_mergeDivide?`, `Fn.mergeAddWith_meets` — merges
  give nothing else.
-/

namespace FunctionAlgebra.Fn

variable {α : Type}

/-- A merged pair in a list is simplified. -/
theorem mergeSimplified_meets {E : Failure α → Prop} {simplify : Fn α → Attempt α (Fn α)}
    {merge : Fn α → Fn α → Attempt α (Option (Fn α))} {f g : Fn α} {P Q : Fn α → Prop}
    (h : (merge f g).Meets E fun merged => ∀ m ∈ merged, P m)
    (hs : ∀ m, P m → (simplify m).Meets E Q) :
    (mergeSimplified simplify merge f g).Meets E fun merged => ∀ m ∈ merged, Q m := by
  refine h.bind fun merged hm => ?_
  cases merged with
  | none => exact .pure fun m hm => by cases hm
  | some m =>
    refine (hs m (hm m rfl)).bind fun z hz => .pure fun y hy => ?_
    exact Option.some.inj hy ▸ hz

/-- A pair that is left in a list cannot be merged. -/
theorem merge_eq_none_of_mergeSimplified {simplify : Fn α → Attempt α (Fn α)}
    {merge : Fn α → Fn α → Attempt α (Option (Fn α))} {f g : Fn α}
    (h : (mergeSimplified simplify merge f g).outcome = .ok none) :
    (merge f g).outcome = .ok none := by
  obtain ⟨merged, hm, h⟩ := Attempt.bind_eq_ok_iff.1 h
  cases merged with
  | none => exact hm
  | some m => simp [Attempt.map_eq_ok_iff] at h

variable [Scalar α]

inductive Multiplied : Fn α → Fn α → Fn α → Prop where
  | absorbed (g) : Multiplied undefined g undefined
  | exponents {p s inner q t inner'} (h : equalInner inner inner' = true) :
    Multiplied (unary (.power p) s inner) (unary (.power q) t inner')
      (power inner (s * t) (p + q))
  | bases {p s inner q t inner'} (h : equalInner inner inner' = false) (hp : (p == q) = true) :
    Multiplied (unary (.power p) s inner) (unary (.power q) t inner')
      (power (some (product (sort [inner.getD identity, inner'.getD identity]))) (s * t) p)
  | values {f g v w} (hf : f.value? = some v) (hg : g.value? = some w) :
    Multiplied f g (const (v * w))

inductive Divided : Fn α → Fn α → Fn α → Prop where
  | absorbed (g) : Divided undefined g undefined
  | exponents {p s inner q t inner'} (ht : (t == 0) = false)
      (h : equalInner inner inner' = true) :
    Divided (unary (.power p) s inner) (unary (.power q) t inner') (power inner (s / t) (p - q))
  | values {f g v w} (hf : f.value? = some v) (hg : g.value? = some w) :
    Divided f g (const (v / w))

/-- A function is the merged sum of two others, given how the sum of two numerators is
simplified. -/
inductive Added (simplify : Fn α → Attempt α (Fn α)) : Fn α → Fn α → Fn α → Prop where
  | absorbed (g) : Added simplify undefined g undefined
  | scales {k s inner k' t inner'} (hk : (k == k') = true)
      (h : equalInner inner inner' = true) :
    Added simplify (unary k s inner) (unary k' t inner') (scaled k (s + t) inner)
  | heads {a as b bs} (h : equalAll as bs = true) (hu : (a.unit == b.unit) = true) :
    Added simplify (product (a :: as)) (product (b :: bs))
      (product (a.withScale (a.scale + b.scale) :: as))
  | numerators {n d n' d' top} (h : (d == d') = true)
      (ht : (simplify (sum [n, n'])).outcome = .ok top) :
    Added simplify (quotient n d) (quotient n' d') (quotient top d)
  | values {f g v w} (hf : f.value? = some v) (hg : g.value? = some w) :
    Added simplify f g (const (v + w))

theorem multiplied_of_mergeMultiply? {f g h : Fn α} (hm : mergeMultiply? f g = some h) :
    Multiplied f g h := by
  unfold mergeMultiply? at hm
  split at hm
  · obtain rfl := Option.some.inj hm
    exact .absorbed g
  · split_ifs at hm with hi hp
    · obtain rfl := Option.some.inj hm
      exact .exponents hi
    · obtain rfl := Option.some.inj hm
      exact .bases (Bool.eq_false_iff.2 hi) hp
  · split at hm
    · obtain rfl := Option.some.inj hm
      exact .values ‹_› ‹_›
    · cases hm

theorem divided_of_mergeDivide? {f g h : Fn α} (hm : mergeDivide? f g = some h) :
    Divided f g h := by
  unfold mergeDivide? at hm
  split at hm
  · obtain rfl := Option.some.inj hm
    exact .absorbed g
  · split_ifs at hm with ht hi
    obtain rfl := Option.some.inj hm
    exact .exponents (Bool.eq_false_iff.2 ht) hi
  · split at hm
    · obtain rfl := Option.some.inj hm
      exact .values ‹_› ‹_›
    · cases hm

theorem mergeAddWith_meets {E : Failure α → Prop} {simplify : Fn α → Attempt α (Fn α)} {f g : Fn α}
    (h : ∀ n d n' d', f = quotient n d → g = quotient n' d' →
      (simplify (sum [n, n'])).Meets E fun _ => True) :
    (mergeAddWith simplify f g).Meets E fun merged => ∀ m ∈ merged, Added simplify f g m := by
  unfold mergeAddWith
  split
  · exact .pure fun m hm => Option.some.inj hm ▸ .absorbed g
  · refine .pure fun m hm => ?_
    split_ifs at hm with hk
    · rw [Bool.and_eq_true] at hk
      exact Option.some.inj hm ▸ .scales hk.1 hk.2
    · cases hm
  · refine .pure fun m hm => ?_
    split_ifs at hm with hu
    · rw [Bool.and_eq_true] at hu
      exact Option.some.inj hm ▸ .heads hu.1 hu.2
    · cases hm
  · rename_i n d n' d'
    split_ifs with hd
    · refine (h n d n' d' rfl rfl).outcome.bind fun top ht => .pure fun m hm => ?_
      exact Option.some.inj hm ▸ .numerators hd ht.2
    · exact .pure fun m hm => by cases hm
  · split
    · exact .pure fun m hm => Option.some.inj hm ▸ .values ‹_› ‹_›
    · exact .pure fun m hm => by cases hm

/-! ## What cannot be merged -/

theorem Multiplied.mergeMultiply? {f g h : Fn α} (hm : Multiplied f g h) :
    mergeMultiply? f g = some h := by
  cases hm with
  | absorbed => rfl
  | exponents hi => simp [Fn.mergeMultiply?, hi]
  | bases hi hp => simp [Fn.mergeMultiply?, hi, hp]
  | values hf hg =>
    cases f <;> cases hf <;> simp only [Fn.mergeMultiply?, hg] <;> rfl

theorem Divided.mergeDivide? {f g h : Fn α} (hm : Divided f g h) :
    mergeDivide? f g = some h := by
  cases hm with
  | absorbed => rfl
  | exponents ht hi => simp [Fn.mergeDivide?, ht, hi]
  | values hf hg =>
    cases f <;> cases hf <;> simp only [Fn.mergeDivide?, hg] <;> rfl

theorem Added.mergeAddWith {simplify : Fn α → Attempt α (Fn α)} {f g h : Fn α}
    (hm : Added simplify f g h) : (mergeAddWith simplify f g).outcome = .ok (some h) := by
  cases hm with
  | absorbed => rfl
  | scales hk hi => simp [Fn.mergeAddWith, hk, hi]
  | heads has hu => simp [Fn.mergeAddWith, has, hu]
  | numerators hd ht => simp [Fn.mergeAddWith, hd, Attempt.map_eq_ok_iff, ht]
  | values hf hg =>
    cases f <;> cases hf <;> simp only [Fn.mergeAddWith, hg] <;> rfl

theorem mergeMultiply?_eq_none_iff {f g : Fn α} :
    mergeMultiply? f g = none ↔ ∀ h, ¬ Multiplied f g h := by
  rw [Option.eq_none_iff_forall_ne_some]
  exact forall_congr' fun h => not_congr ⟨multiplied_of_mergeMultiply?, (·.mergeMultiply?)⟩

theorem mergeDivide?_eq_none_iff {f g : Fn α} :
    mergeDivide? f g = none ↔ ∀ h, ¬ Divided f g h := by
  rw [Option.eq_none_iff_forall_ne_some]
  exact forall_congr' fun h => not_congr ⟨divided_of_mergeDivide?, (·.mergeDivide?)⟩

inductive Addable : Fn α → Fn α → Prop where
  | absorbed {g} : Addable undefined g
  | scales {k s inner k' t inner'} (hk : (k == k') = true) (h : equalInner inner inner' = true) :
    Addable (unary k s inner) (unary k' t inner')
  | heads {a as b bs} (h : equalAll as bs = true) (hu : (a.unit == b.unit) = true) :
    Addable (product (a :: as)) (product (b :: bs))
  | numerators {n d n' d'} (h : (d == d') = true) : Addable (quotient n d) (quotient n' d')
  | values {f g v w} (hf : f.value? = some v) (hg : g.value? = some w) : Addable f g

/-- Whether there is a sum does not depend on how numerators are simplified. -/
theorem mergeAddWith_eq_none_iff {simplify : Fn α → Attempt α (Fn α)} {f g : Fn α} :
    (mergeAddWith simplify f g).outcome = .ok none ↔ ¬ Addable f g := by
  constructor
  · intro h hadd
    cases hadd with
    | absorbed => simp [mergeAddWith] at h
    | scales hk hi => simp [mergeAddWith, hk, hi] at h
    | heads has hu => simp [mergeAddWith, has, hu] at h
    | numerators hd => simp [mergeAddWith, hd, Attempt.map_eq_ok_iff] at h
    | values hf hg =>
      cases f <;> cases hf <;> simp only [mergeAddWith, hg] at h <;> cases h
  · intro hadd
    unfold mergeAddWith
    split
    · exact (hadd .absorbed).elim
    · rw [Attempt.outcome_pure, if_neg]
      rw [Bool.and_eq_true]
      exact fun h => hadd (.scales h.1 h.2)
    · rw [Attempt.outcome_pure, if_neg]
      rw [Bool.and_eq_true]
      exact fun h => hadd (.heads h.1 h.2)
    · rw [if_neg fun h => hadd (.numerators h)]
      rfl
    · split
      · exact (hadd (.values ‹_› ‹_›)).elim
      · rfl

end FunctionAlgebra.Fn
