import FunctionAlgebra.Fn.Merge
import FunctionAlgebra.Proofs.Attempt

/-!
# Merging neighbours

What one merge of two neighbours does to a list determines what the whole loop of passes does.

## Main definitions

* `MergeLaw` — a relation between lists that every merge, and every sort, lies in.

## Main statements

* `MergeLaw.mergeNeighbours` — then the items that are left are related to those at the start.
* `mergePasses_matchedBy` — if merges of related items are related, so are the items left.
* `mergePasses_eq_mergeNeighbours` — the loop ends by itself.
* `mergeNeighbours_isChain` — no two neighbours among those that are left can be merged.
* `mergeNeighbours_of_isChain` — a list without mergeable neighbours is only sorted.
-/

namespace FunctionAlgebra

variable {α β : Type}

/-- A relation `R` between lists that holds between the list before and the list after a merge, and
after a sort. Merges are only looked at in lists that satisfy `Inv`, and their failures are among
those in `E`. -/
structure MergeLaw (E : Failure α → Prop) (Inv : List β → Prop) (R : List β → List β → Prop)
    (sort : List β → List β) (merge : β → β → Attempt α (Option β)) : Prop where
  refl : ∀ xs, R xs xs
  trans : ∀ {xs ys zs}, R xs ys → R ys zs → R xs zs
  cons : ∀ x {xs ys}, R xs ys → R (x :: xs) (x :: ys)
  sort : ∀ xs, R xs (sort xs)
  keeps : ∀ {xs ys}, R xs ys → Inv xs → Inv ys
  tail : ∀ {x xs}, Inv (x :: xs) → Inv xs
  merge : ∀ {x y rest}, Inv (x :: y :: rest) →
    (merge x y).Meets E fun merged => ∀ z ∈ merged, R (x :: y :: rest) (z :: rest)

namespace MergeLaw

variable {E : Failure α → Prop} {Inv : List β → Prop} {R : List β → List β → Prop}
  {sort : List β → List β} {merge : β → β → Attempt α (Option β)}

theorem mergePass (h : MergeLaw E Inv R sort merge) {x : β} {xs : List β} (hi : Inv (x :: xs)) :
    (mergePass merge x xs).Meets E fun pass => R (x :: xs) pass.2 := by
  induction xs generalizing x with
  | nil => exact h.refl _
  | cons y rest ih =>
    refine (h.merge hi).bind fun merged hm => ?_
    cases merged with
    | some z =>
      have hz := hm z rfl
      refine (ih (h.keeps hz hi)).bind fun pass hp => ?_
      exact h.trans hz hp
    | none =>
      refine (ih (h.tail hi)).bind fun pass hp => ?_
      exact h.cons x hp

theorem mergePasses (h : MergeLaw E Inv R sort merge) (n : Nat) {xs : List β} (hi : Inv xs) :
    (mergePasses sort merge n xs).Meets E (R xs) := by
  induction n generalizing xs with
  | zero => exact h.refl _
  | succ n ih =>
    cases xs with
    | nil => exact h.refl _
    | cons x rest =>
      refine (h.mergePass hi).bind fun pass hp => ?_
      obtain ⟨changed, items⟩ := pass
      cases changed with
      | false => exact hp
      | true =>
        have hs := h.trans hp (h.sort items)
        exact (ih (h.keeps hs hi)).mono fun ys hy => h.trans hs hy

theorem mergeNeighbours (h : MergeLaw E Inv R sort merge) {xs : List β} (hi : Inv xs) :
    (mergeNeighbours sort merge xs).Meets E (R xs) :=
  (h.mergePasses _ (h.keeps (h.sort xs) hi)).mono fun _ hy => h.trans (h.sort xs) hy

/-- What holds of all items is kept if merges keep it. -/
theorem forall_mem {P : β → Prop} (hsort : ∀ xs, (sort xs).Perm xs)
    (hm : ∀ x y, P x → P y → (merge x y).Meets E fun merged => ∀ z ∈ merged, P z) :
    MergeLaw E (fun xs => ∀ x ∈ xs, P x) (fun xs ys => (∀ x ∈ xs, P x) → ∀ y ∈ ys, P y)
      sort merge where
  refl _ := id
  trans h h' := h' ∘ h
  cons x xs ys h hx := by
    rw [List.forall_mem_cons] at hx ⊢
    exact ⟨hx.1, h hx.2⟩
  sort xs hx y hy := hx y ((hsort xs).mem_iff.1 hy)
  keeps h := h
  tail h := (List.forall_mem_cons.1 h).2
  merge {x y rest} h := by
    rw [List.forall_mem_cons, List.forall_mem_cons] at h
    refine (hm x y h.1 h.2.1).mono fun merged hz z hmem _ => ?_
    exact List.forall_mem_cons.2 ⟨hz z hmem, h.2.2⟩

end MergeLaw

section Approximates

variable {sort : List β → List β} {merge merge' : β → β → Attempt α (Option β)}

theorem mergePass_approximates (h : ∀ x y, (merge x y).Approximates (merge' x y)) (x : β)
    (xs : List β) : (mergePass merge x xs).Approximates (mergePass merge' x xs) := by
  induction xs generalizing x with
  | nil => exact .refl _
  | cons y rest ih =>
    refine (h x y).bind fun merged _ => ?_
    cases merged with
    | some z => exact (ih z).bind fun _ _ => .refl _
    | none => exact (ih y).bind fun _ _ => .refl _

theorem mergePasses_approximates (h : ∀ x y, (merge x y).Approximates (merge' x y)) (n : Nat)
    (xs : List β) :
    (mergePasses sort merge n xs).Approximates (mergePasses sort merge' n xs) := by
  induction n generalizing xs with
  | zero => exact .refl _
  | succ n ih =>
    cases xs with
    | nil => exact .refl _
    | cons x rest =>
      refine (mergePass_approximates h x rest).bind fun pass _ => ?_
      obtain ⟨changed, items⟩ := pass
      cases changed with
      | false => exact .refl _
      | true => exact ih (sort items)

theorem mergeNeighbours_approximates (h : ∀ x y, (merge x y).Approximates (merge' x y))
    (xs : List β) :
    (mergeNeighbours sort merge xs).Approximates (mergeNeighbours sort merge' xs) :=
  mergePasses_approximates h _ _

end Approximates

section MatchedBy

variable {γ : Type} {R : β → γ → Prop} {sort : List β → List β} {sort' : List γ → List γ}
  {merge : β → β → Attempt α (Option β)} {merge' : γ → γ → Attempt α (Option γ)}

theorem mergePass_matchedBy (h : ∀ {x y x' y'}, R x x' → R y y' →
      Attempt.MatchedBy (Option.Rel R) (merge x y) (merge' x' y'))
    {x : β} {x' : γ} (hx : R x x') {xs : List β} {xs' : List γ} (hxs : List.Forall₂ R xs xs') :
    Attempt.MatchedBy (fun pass pass' => pass.1 = pass'.1 ∧ List.Forall₂ R pass.2 pass'.2)
      (mergePass merge x xs) (mergePass merge' x' xs') := by
  induction hxs generalizing x x' with
  | nil => exact .pure ⟨rfl, .cons hx .nil⟩
  | cons hy _ ih =>
    refine (h hx hy).bind fun merged merged' hm => ?_
    cases hm with
    | some hz => exact (ih hz).bind fun _ _ hp => .pure ⟨rfl, hp.2⟩
    | none => exact (ih hy).bind fun _ _ hp => .pure ⟨hp.1, .cons hx hp.2⟩

theorem mergePasses_matchedBy
    (hsort : ∀ {xs xs'}, List.Forall₂ R xs xs' → List.Forall₂ R (sort xs) (sort' xs'))
    (h : ∀ {x y x' y'}, R x x' → R y y' →
      Attempt.MatchedBy (Option.Rel R) (merge x y) (merge' x' y'))
    (n : Nat) {xs : List β} {xs' : List γ} (hxs : List.Forall₂ R xs xs') :
    Attempt.MatchedBy (List.Forall₂ R) (mergePasses sort merge n xs)
      (mergePasses sort' merge' n xs') := by
  induction n generalizing xs xs' with
  | zero => exact .pure hxs
  | succ n ih =>
    cases hxs with
    | nil => exact .pure .nil
    | cons hx hxs =>
      refine (mergePass_matchedBy h hx hxs).bind fun pass pass' hp => ?_
      obtain ⟨changed, items⟩ := pass
      obtain ⟨changed', items'⟩ := pass'
      obtain ⟨rfl, hitems⟩ := hp
      cases changed with
      | false => exact .pure hitems
      | true => exact ih (hsort hitems)

end MatchedBy

/-- Neighbours in a list that is related to another one are related if those in the other one
are. -/
theorem isChain_of_forall₂ {S R : β → β → Prop} {xs ys : List β}
    (hR : ∀ {x x' y y'}, S x x' → S y y' → R x y → R x' y') (h : List.Forall₂ S xs ys)
    (hxs : xs.IsChain R) : ys.IsChain R := by
  induction h with
  | nil => exact .nil
  | cons hx hrest ih =>
    cases hrest with
    | nil => exact .singleton _
    | cons hy hrest =>
      rw [List.isChain_cons_cons] at hxs
      exact (ih hxs.2).cons_cons (hR hx hy hxs.1)

/-- Neighbours that are related in two ways. -/
theorem isChain_and {R S : β → β → Prop} {xs : List β} (hR : xs.IsChain R) (hS : xs.IsChain S) :
    xs.IsChain fun x y => R x y ∧ S x y := by
  induction hR with
  | nil => exact .nil
  | singleton x => exact .singleton x
  | cons_cons hxy _ ih =>
    rw [List.isChain_cons_cons] at hS
    exact (ih hS.2).cons_cons ⟨hxy, hS.1⟩

section Unmerged

variable {sort : List β → List β} {merge : β → β → Attempt α (Option β)}

def Apart (merge : β → β → Attempt α (Option β)) (x y : β) : Prop :=
  (merge x y).outcome = .ok none

/-- A pass either leaves a list without mergeable neighbours as it is, or shortens it. -/
theorem mergePass_outcome {x : β} {xs items : List β} {changed : Bool}
    (h : (mergePass merge x xs).outcome = .ok (changed, items)) :
    (changed = false ∧ items = x :: xs ∧ (x :: xs).IsChain (Apart merge)) ∨
      (changed = true ∧ items.length ≤ xs.length) := by
  induction xs generalizing x changed items with
  | nil =>
    obtain ⟨rfl, rfl⟩ : false = changed ∧ [x] = items := by simpa [mergePass] using h
    exact .inl ⟨rfl, rfl, .singleton x⟩
  | cons y rest ih =>
    obtain ⟨merged, hm, h⟩ := Attempt.bind_eq_ok_iff.1 h
    cases merged with
    | some z =>
      obtain ⟨⟨c, later⟩, hp, h⟩ := Attempt.bind_eq_ok_iff.1 h
      obtain ⟨rfl, rfl⟩ : true = changed ∧ later = items := by simpa using h
      refine .inr ⟨rfl, ?_⟩
      rcases ih hp with ⟨-, rfl, -⟩ | ⟨-, hl⟩
      · simp
      · exact Nat.le_succ_of_le hl
    | none =>
      obtain ⟨⟨c, later⟩, hp, h⟩ := Attempt.bind_eq_ok_iff.1 h
      obtain ⟨rfl, rfl⟩ : c = changed ∧ x :: later = items := by simpa using h
      rcases ih hp with ⟨rfl, rfl, hc⟩ | ⟨rfl, hl⟩
      · exact .inl ⟨rfl, rfl, hc.cons_cons hm⟩
      · exact .inr ⟨rfl, by simpa using hl⟩

theorem mergePass_of_isChain {x : β} {xs : List β} (h : (x :: xs).IsChain (Apart merge)) :
    (mergePass merge x xs).outcome = .ok (false, x :: xs) := by
  induction xs generalizing x with
  | nil => rfl
  | cons y rest ih =>
    obtain ⟨hxy, hrest⟩ := List.isChain_cons_cons.1 h
    refine Attempt.bind_eq_ok_iff.2 ⟨none, hxy, ?_⟩
    exact Attempt.bind_eq_ok_iff.2 ⟨_, ih hrest, rfl⟩

theorem mergePasses_isChain {n : Nat} {xs ys : List β} (hn : (sort xs).length ≤ n)
    (hsort : ∀ l, (sort l).length = l.length)
    (h : (mergePasses sort merge n (sort xs)).outcome = .ok ys) :
    (∃ l, ys = sort l) ∧ ys.IsChain (Apart merge) := by
  induction n generalizing xs with
  | zero =>
    obtain rfl : sort xs = ys := by simpa [mergePasses] using h
    exact ⟨⟨xs, rfl⟩, by rw [List.length_eq_zero_iff.1 (Nat.le_zero.1 hn)]; exact .nil⟩
  | succ n ih =>
    cases hxs : sort xs with
    | nil =>
      rw [hxs] at h
      obtain rfl : [] = ys := by simpa [mergePasses] using h
      exact ⟨⟨xs, hxs.symm⟩, .nil⟩
    | cons x rest =>
      rw [hxs] at h hn
      obtain ⟨⟨changed, items⟩, hp, h⟩ := Attempt.bind_eq_ok_iff.1 h
      rcases mergePass_outcome hp with ⟨rfl, rfl, hc⟩ | ⟨rfl, hl⟩
      · obtain rfl : x :: rest = ys := by simpa using h
        exact ⟨⟨xs, hxs.symm⟩, hc⟩
      · refine ih ?_ (by simpa using h)
        rw [hsort]
        simp at hn
        omega

/-- There are no more passes than items, so a higher bound on them changes nothing. -/
theorem mergePasses_eq_mergePasses (hsort : ∀ l, (sort l).length = l.length) {m n : Nat}
    {xs : List β} (hm : xs.length ≤ m) (hn : xs.length ≤ n) :
    mergePasses sort merge m xs = mergePasses sort merge n xs := by
  induction m generalizing n xs with
  | zero =>
    rw [List.length_eq_zero_iff.1 (Nat.le_zero.1 hm)]
    cases n <;> rfl
  | succ m ih =>
    match xs, n with
    | [], 0 | [], n + 1 => rfl
    | x :: rest, n + 1 =>
      refine Attempt.bind_congr_of_ok fun pass hp => ?_
      obtain ⟨changed, items⟩ := pass
      rcases mergePass_outcome hp with ⟨rfl, -, -⟩ | ⟨rfl, hl⟩
      · rfl
      · simp only [List.length_cons, Nat.add_le_add_iff_right] at hm hn
        exact ih (by rw [hsort]; omega) (by rw [hsort]; omega)

theorem mergePasses_eq_mergeNeighbours (hsort : ∀ l, (sort l).length = l.length) {n : Nat}
    {xs : List β} (hn : xs.length ≤ n) :
    mergePasses sort merge n (sort xs) = mergeNeighbours sort merge xs :=
  mergePasses_eq_mergePasses hsort (by rwa [hsort]) (Nat.le_of_eq (hsort xs))

/-- What is left is sorted, and no two neighbours in it can be merged. -/
theorem mergeNeighbours_isChain {xs ys : List β} (hsort : ∀ l, (sort l).length = l.length)
    (h : (mergeNeighbours sort merge xs).outcome = .ok ys) :
    (∃ l, ys = sort l) ∧ ys.IsChain (Apart merge) :=
  mergePasses_isChain (Nat.le_of_eq (hsort xs)) hsort h

/-- A list whose neighbours cannot be merged after sorting is only sorted. -/
theorem mergeNeighbours_of_isChain {xs : List β} (h : (sort xs).IsChain (Apart merge)) :
    (mergeNeighbours sort merge xs).outcome = .ok (sort xs) := by
  rw [mergeNeighbours]
  cases hxs : sort xs with
  | nil => cases xs.length <;> rfl
  | cons x rest =>
    cases xs.length with
    | zero => rfl
    | succ n =>
      rw [hxs] at h
      exact Attempt.bind_eq_ok_iff.2 ⟨_, mergePass_of_isChain h, rfl⟩

end Unmerged

end FunctionAlgebra
