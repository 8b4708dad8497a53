import FunctionAlgebra.Proofs.Equality
import FunctionAlgebra.Proofs.Laws
import FunctionAlgebra.Proofs.Sorting

/-!
# Three-way comparison

What comparisons of numbers, lists and intervals need so that comparisons built from them are total
orders.

## Main definitions

* `Consistent` — three outcomes of comparisons fit together.
* `compareEach` — lists of one length are compared place by place.

## Main statements

* `Consistent.then` — lexicographic comparisons fit together if their parts do.
* `orders_of_consistent` — items are sorted by a comparison whose outcomes fit together.
* `Scalar.cmp_swap`, `Scalar.cmp_consistent`, `Scalar.cmp_eq_iff` — comparison of numbers other than
  NaN.
-/

namespace FunctionAlgebra

/-- The outcomes of comparing `x` to `y`, `y` to `z` and `x` to `z` fit together: if the first two
ascend, so does the third, strictly if one of them does. -/
def Consistent (a b c : Ordering) : Prop := a.isLE = true → b.isLE = true → c = a.then b

/-- Later parts count only where the parts before them are equal. -/
theorem Consistent.then {a b c a' b' c' : Ordering} (h : Consistent a b c)
    (h' : a = .eq → b = .eq → Consistent a' b' c') :
    Consistent (a.then a') (b.then b') (c.then c') := by
  intro ha hb
  cases a <;> cases b <;> cases a' <;> cases b' <;> simp_all [Consistent]

theorem Consistent.isLE {a b c : Ordering} (h : Consistent a b c) (ha : a.isLE = true)
    (hb : b.isLE = true) : c.isLE = true := by
  rw [h ha hb]
  cases a <;> cases b <;> simp_all

/-- What compares as equal compares alike to everything else. -/
theorem Consistent.eq_of_eq {a b : Ordering} (h : Consistent .eq b a)
    (h' : Consistent b.swap .eq a.swap) : a = b := by
  cases a <;> cases b <;> simp_all [Consistent]

theorem compareNat_then_eq_iff {m n : Nat} {a : Ordering} :
    (Ord.compare m n).then a = .eq ↔ m = n ∧ a = .eq := by
  rw [Ordering.then_eq_eq, Nat.compare_eq_eq]

theorem compareNat_consistent (l m n : Nat) :
    Consistent (Ord.compare l m) (Ord.compare m n) (Ord.compare l n) := by
  intro hlm hmn
  rw [Nat.isLE_compare] at hlm hmn
  rcases hlm.lt_or_eq with hlm | rfl
  · rw [Nat.compare_eq_lt.2 hlm, Nat.compare_eq_lt.2 (hlm.trans_le hmn)]
    rfl
  · rw [Nat.compare_eq_eq.2 rfl]
    rfl

theorem compareBool_consistent (a b c : Bool) :
    Consistent (Ord.compare a b) (Ord.compare b c) (Ord.compare a c) := by
  unfold Consistent
  revert a b c
  decide

theorem compareBool_consistent_reversed (a b c : Bool) :
    Consistent (Ord.compare b a) (Ord.compare c b) (Ord.compare c a) := by
  unfold Consistent
  revert a b c
  decide

/-! ## Sorting -/

section Sorting

variable {β : Type} {c : β → β → Ordering} {P : β → Prop}

theorem beq_lt_eq_false_iff (hswap : ∀ x y, c y x = (c x y).swap) {x y : β} :
    (c y x == .lt) = false ↔ (c x y).isLE = true := by
  rw [hswap x y]
  cases c x y <;> decide

/-- A comparison orders the items for which its outcomes fit together. -/
theorem orders_of_consistent (hswap : ∀ x y, c y x = (c x y).swap)
    (h : ∀ {x y z}, P x → P y → P z → Consistent (c x y) (c y z) (c x z)) :
    Orders (fun x y => c x y == .lt) P where
  asymm {x y} _ _ hlt := by
    rw [beq_lt_eq_false_iff hswap, beq_iff_eq.1 hlt]
    rfl
  trans {x y z} hx hy hz hxy hyz := by
    rw [beq_lt_eq_false_iff hswap] at *
    exact (h hx hy hz).isLE hxy hyz

end Sorting

/-! ## Numbers -/

namespace Scalar

variable {α : Type} [Scalar α] [LawfulScalar α] {a b c : α}

theorem cmp_swap (a b : α) : cmp b a = (cmp a b).swap := by
  rw [cmp, cmp]
  cases hab : lt a b with
  | true => simp [LawfulScalar.lt_asymm hab]
  | false => cases lt b a <;> simp

theorem cmp_consistent (ha : isNaN a = false) (hb : isNaN b = false) (hc : isNaN c = false) :
    Consistent (cmp a b) (cmp b c) (cmp a c) := by
  intro hab hbc
  have isLE_iff (x y : α) : (cmp x y).isLE = true ↔ lt y x = false := by
    rw [cmp]
    cases lt y x <;> cases lt x y <;> simp
  rw [isLE_iff] at hab hbc
  have hca : lt c a = false := by
    rw [← Bool.not_eq_true]
    intro h
    rcases LawfulScalar.lt_or_lt hb h with h | h <;> simp_all
  have hac : lt a c = (lt a b || lt b c) := by
    rw [Bool.eq_iff_iff, Bool.or_eq_true]
    constructor
    · exact LawfulScalar.lt_or_lt hb
    · rintro (h | h)
      · exact (LawfulScalar.lt_or_lt hc h).resolve_right (by simp [hbc])
      · exact (LawfulScalar.lt_or_lt ha h).resolve_left (by simp [hab])
  simp only [cmp, hab, hbc, hca, hac]
  cases lt a b <;> cases lt b c <;> rfl

theorem cmp_eq_iff (ha : isNaN a = false) (hb : isNaN b = false) :
    cmp a b = .eq ↔ (a == b) = true := by
  rw [LawfulScalar.beq_iff ha hb, cmp]
  cases lt a b <;> cases lt b a <;> simp

end Scalar

/-! ## Lists -/

section Lists

variable {β γ : Type} {c : β → β → Ordering}

def compareEach (c : β → β → Ordering) : List β → List β → Ordering
  | x :: xs, y :: ys => (c x y).then (compareEach c xs ys)
  | _, _ => .eq

theorem compareEach_swap {xs ys : List β} (h : ∀ x ∈ xs, ∀ y ∈ ys, c y x = (c x y).swap) :
    compareEach c ys xs = (compareEach c xs ys).swap := by
  induction xs generalizing ys with
  | nil => cases ys <;> rfl
  | cons x xs ih =>
    cases ys with
    | nil => rfl
    | cons y ys =>
      rw [compareEach, compareEach, Ordering.swap_then, h x (by simp) y (by simp),
        ih fun x hx y hy => h x (by simp [hx]) y (by simp [hy])]

theorem compareEach_consistent {xs ys zs : List β} (hxy : xs.length = ys.length)
    (hyz : ys.length = zs.length)
    (h : ∀ x ∈ xs, ∀ y ∈ ys, ∀ z ∈ zs, Consistent (c x y) (c y z) (c x z)) :
    Consistent (compareEach c xs ys) (compareEach c ys zs) (compareEach c xs zs) := by
  induction xs generalizing ys zs with
  | nil =>
    obtain rfl := List.length_eq_zero_iff.1 hxy.symm
    obtain rfl := List.length_eq_zero_iff.1 hyz.symm
    intro _ _
    rfl
  | cons x xs ih =>
    obtain ⟨y, ys, rfl⟩ := List.exists_cons_of_length_eq_add_one hxy.symm
    obtain ⟨z, zs, rfl⟩ := List.exists_cons_of_length_eq_add_one hyz.symm
    refine (h x (by simp) y (by simp) z (by simp)).then fun _ _ => ?_
    refine ih (by simpa using hxy) (by simpa using hyz) ?_
    exact fun x hx y hy z hz => h x (by simp [hx]) y (by simp [hy]) z (by simp [hz])

theorem compareEach_eq_iff {R : β → β → Prop} {xs ys : List β} (h : xs.length = ys.length)
    (hR : ∀ x ∈ xs, ∀ y ∈ ys, c x y = .eq ↔ R x y) :
    compareEach c xs ys = .eq ↔ List.Forall₂ R xs ys := by
  induction xs generalizing ys with
  | nil =>
    obtain rfl := List.length_eq_zero_iff.1 h.symm
    simp [compareEach]
  | cons x xs ih =>
    obtain ⟨y, ys, rfl⟩ := List.exists_cons_of_length_eq_add_one h.symm
    rw [compareEach, Ordering.then_eq_eq, List.forall₂_cons, hR x (by simp) y (by simp),
      ih (by simpa using h) fun x hx y hy => hR x (by simp [hx]) y (by simp [hy])]

theorem length_compareEach_eq_iff {R : β → β → Prop} {xs ys : List β}
    (hR : ∀ x ∈ xs, ∀ y ∈ ys, c x y = .eq ↔ R x y) :
    xs.length = ys.length ∧ compareEach c xs ys = .eq ↔ List.Forall₂ R xs ys := by
  constructor
  · rintro ⟨hl, h⟩
    exact (compareEach_eq_iff hl hR).1 h
  · intro h
    exact ⟨h.length_eq, (compareEach_eq_iff h.length_eq hR).2 h⟩

/-- Comparing one way and then another way finds no difference just if there is none in both ways
at any place. -/
theorem compareEach_then_eq_iff {c' : β → β → Ordering} {xs ys : List β} :
    (compareEach c xs ys).then (compareEach c' xs ys) = .eq ↔
      compareEach (fun x y => (c x y).then (c' x y)) xs ys = .eq := by
  induction xs generalizing ys with
  | nil => simp [compareEach]
  | cons x xs ih =>
    cases ys with
    | nil => simp [compareEach]
    | cons y ys =>
      simp only [compareEach, Ordering.then_eq_eq, ← ih]
      tauto

end Lists

/-! ## Lists of numbers, intervals -/

section Numbers

variable {α : Type} [Scalar α] [LawfulScalar α]

omit [LawfulScalar α] in
theorem cmpList_eq {as bs : List α} (h : as.length = bs.length) :
    Scalar.cmpList as bs = compareEach Scalar.cmp as bs := by
  induction as generalizing bs with
  | nil =>
    obtain rfl := List.length_eq_zero_iff.1 h.symm
    rfl
  | cons a as ih =>
    obtain ⟨b, bs, rfl⟩ := List.exists_cons_of_length_eq_add_one h.symm
    rw [Scalar.cmpList, compareEach, ih (by simpa using h)]

namespace Interval

def IsProper (i : Interval α) : Prop :=
  Scalar.isNaN i.low = false ∧ Scalar.isNaN i.high = false

theorem compare_swap (i j : Interval α) : j.compare i = (i.compare j).swap := by
  simp only [Interval.compare, Ordering.swap_then, ← Scalar.cmp_swap, ← Std.OrientedOrd.eq_swap]

theorem compare_consistent {i j k : Interval α} (hi : i.IsProper) (hj : j.IsProper)
    (hk : k.IsProper) : Consistent (i.compare j) (j.compare k) (i.compare k) := by
  refine (Scalar.cmp_consistent hi.1 hj.1 hk.1).then fun _ _ => ?_
  refine Consistent.then ?_ fun _ _ => ?_
  · exact compareBool_consistent_reversed _ _ _
  · refine (Scalar.cmp_consistent hi.2 hj.2 hk.2).then fun _ _ => ?_
    exact compareBool_consistent _ _ _

theorem compare_eq_iff {i j : Interval α} (hi : i.IsProper) (hj : j.IsProper) :
    i.compare j = .eq ↔ (i == j) = true := by
  rw [Interval.beq_iff_bounds]
  simp only [Interval.compare, Ordering.then_eq_eq, Scalar.cmp_eq_iff hi.1 hj.1,
    Scalar.cmp_eq_iff hi.2 hj.2, Std.compare_eq_iff_eq]
  exact and_congr_right fun _ => and_congr_left fun _ => eq_comm

end Interval

end Numbers

end FunctionAlgebra
