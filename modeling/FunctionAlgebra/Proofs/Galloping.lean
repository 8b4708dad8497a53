import FunctionAlgebra.Sorted.Gallop
import Mathlib.Data.List.Basic
import Mathlib.Tactic.Set

/-!
# Searching and galloping find what they look for

Where the items that satisfy a predicate stand together at one end of a list, galloping counts
exactly these, whichever end it starts from.

## Main statements

* `partitionPoint_spec` — halving finds the point where a predicate turns from false to true.
* `countLeading_spec` — all items counted satisfy the predicate, and no others do.
-/

namespace FunctionAlgebra

/-- The predicate fails below the point that is found, and holds from there on. -/
theorem partitionPoint_spec (p : Nat → Bool) (low high : Nat)
    (hp : ∀ i j, low ≤ i → i ≤ j → j < high → p i = true → p j = true) :
    (∀ i, low ≤ i → i < partitionPoint p low high → p i = false) ∧
      ∀ i, partitionPoint p low high ≤ i → i < high → p i = true := by
  fun_induction partitionPoint p low high with
  | case1 low high h mid hmid ih =>
    have := partitionPoint_le p (show low ≤ mid by omega)
    grind
  | case2 low high h mid hmid ih =>
    have := le_partitionPoint p (mid + 1) high
    grind
  | case3 low high h => grind

/-- The predicate holds below the range that galloping finds, and fails above it. -/
theorem gallop_spec {p : Nat → Bool} {size low : Nat}
    (hp : ∀ i j, i ≤ j → j < size → p j = true → p i = true)
    (hsize : low ≤ size) (hlow : ∀ i < low, p i = true) :
    (gallop p size low).1 ≤ (gallop p size low).2 ∧
      (∀ i < (gallop p size low).1, p i = true) ∧
        ∀ i, (gallop p size low).2 ≤ i → i < size → p i = false := by
  fun_induction gallop p size low with
  | case1 low probe hprobe hp' ih => grind
  | case2 low probe hprobe hp' => grind
  | case3 low probe hprobe => grind

variable {β : Type} {p : β → Bool} {xs : List β}

theorem any_getElem?_of_le (hp : xs.Pairwise fun a b => p b = true → p a = true) (i j : Nat)
    (hij : i ≤ j) (hj : j < xs.length) (h : xs[j]?.any p = true) : xs[i]?.any p = true := by
  rcases Nat.eq_or_lt_of_le hij with rfl | hij
  · exact h
  · have := List.pairwise_iff_getElem.1 hp i j (by omega) hj hij
    grind

theorem lt_countLeading_front_iff (hp : xs.Pairwise fun a b => p b = true → p a = true) {i : Nat}
    (hi : i < xs.length) : i < countLeading .front p xs ↔ xs[i]?.any p = true := by
  set holds := fun i : Nat => xs[i]?.any p
  have hanti : ∀ i j, i ≤ j → j < xs.length → holds j = true → holds i = true :=
    any_getElem?_of_le hp
  obtain ⟨hle, hbelow, habove⟩ := gallop_spec hanti (Nat.zero_le _) (by simp)
  have hsize := gallop_snd_le holds xs.length 0
  have hcount : countLeading .front p xs = partitionPoint (fun i => !holds i)
      (gallop holds xs.length 0).1 (gallop holds xs.length 0).2 := by
    simp [countLeading, holds]
  have hpoint := partitionPoint_spec (fun i => !holds i) (gallop holds xs.length 0).1
    (gallop holds xs.length 0).2 (by grind)
  grind

theorem lt_countLeading_back_iff (hp : xs.Pairwise fun a b => p b = true → p a = true) {i : Nat}
    (hi : i < xs.length) : i < countLeading .back p xs ↔ xs[i]?.any p = true := by
  set holds := fun i : Nat => xs[i]?.any p
  have hanti : ∀ i j, i ≤ j → j < xs.length → holds j = true → holds i = true :=
    any_getElem?_of_le hp
  obtain ⟨hle, hbelow, habove⟩ := gallop_spec hanti (Nat.zero_le _) (by simp)
  have hsize := gallop_snd_le holds xs.length 0
  set low := (gallop holds xs.length 0).1
  set high := (gallop holds xs.length 0).2
  have hcount : countLeading .back p xs = xs.length - partitionPoint
      (fun i => holds (xs.length - 1 - i)) (xs.length - high) (xs.length - low) := by
    simp [countLeading, holds, low, high]
  obtain ⟨hfails, hmeets⟩ := partitionPoint_spec (fun i => holds (xs.length - 1 - i))
    (xs.length - high) (xs.length - low) fun i j _ hij hj => hanti _ _ (by omega) (by omega)
  -- halving looks at the indices in reverse
  have hback : xs.length - 1 - (xs.length - 1 - i) = i := by omega
  rw [hcount]
  constructor
  · intro hlt
    by_cases hlow : i < low
    · exact hbelow i hlow
    · simpa only [hback] using hmeets (xs.length - 1 - i) (by omega) (by omega)
  · intro hmeet
    by_contra hlt
    have hfail : holds i = false := by
      by_cases hhigh : high ≤ i
      · exact habove i hhigh hi
      · simpa only [hback] using hfails (xs.length - 1 - i) (by omega) (by omega)
    exact Bool.false_ne_true (hfail.symm.trans hmeet)

/-- If the items that satisfy `p` come first, then just these are counted, at whichever end of the
run they are. -/
theorem countLeading_spec (e : End) (hp : xs.Pairwise fun a b => p b = true → p a = true) :
    (∀ x ∈ xs.take (countLeading e p xs), p x = true) ∧
      ∀ x ∈ xs.drop (countLeading e p xs), p x = false := by
  have hcount {i : Nat} (hi : i < xs.length) :
      i < countLeading e p xs ↔ xs[i]?.any p = true := by
    cases e with
    | front => exact lt_countLeading_front_iff hp hi
    | back => exact lt_countLeading_back_iff hp hi
  constructor
  · intro x hx
    obtain ⟨i, hi, rfl⟩ := List.mem_take_iff_getElem.1 hx
    have := (hcount (i := i) (by omega)).1 (by omega)
    grind
  · intro x hx
    obtain ⟨i, hi, rfl⟩ := List.mem_drop_iff_getElem.1 hx
    have := (hcount (i := i + countLeading e p xs) (by omega)).not.1 (by omega)
    grind

end FunctionAlgebra
