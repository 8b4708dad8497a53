import FunctionAlgebra.Proofs.Galloping
import FunctionAlgebra.Sorted.Stable

/-!
# Sorting puts items into order

A merge keeps an invariant: what is merged already comes before all that is not, in either run. From
it follows that merged runs ascend, and so does the sorted list. Nothing is assumed of the
comparison but that it orders the items of the list.

## Main definitions

* `Orders` — a strict comparison orders the items with a property.
* `Ascending` — a list of such items is in order.
* `Merge.Ordered` — the invariant of a merge.

## Main statements

* `Merge.Ordered.run` — a merge keeps its invariant to the end.
* `sortStable_ascending` — the sorted list is in order.
-/

namespace FunctionAlgebra

variable {β : Type} {less : β → β → Bool} {P : β → Prop}

structure Orders (less : β → β → Bool) (P : β → Prop) : Prop where
  asymm {a b : β} : P a → P b → less a b = true → less b a = false
  trans {a b c : β} : P a → P b → P c → less b a = false → less c b = false → less c a = false

/-- A list of items with property `P` in which none is followed by a smaller one. -/
structure Ascending (less : β → β → Bool) (P : β → Prop) (xs : List β) : Prop where
  all : ∀ x ∈ xs, P x
  pairwise : xs.Pairwise fun a b => less b a = false

def End.Precedes (e : End) (less : β → β → Bool) (a b : β) : Prop :=
  e.longBefore less a b = false

theorem Orders.irrefl (h : Orders less P) {a : β} (ha : P a) : less a a = false := by
  by_contra hless
  rw [Bool.not_eq_false] at hless
  rw [h.asymm ha ha hless] at hless
  cases hless

theorem Orders.precedes_trans (h : Orders less P) (e : End) {a b c : β} (ha : P a) (hb : P b)
    (hc : P c) (hab : e.Precedes less a b) (hbc : e.Precedes less b c) : e.Precedes less a c := by
  cases e with
  | front => exact h.trans ha hb hc hab hbc
  | back => exact h.trans hc hb ha hbc hab

theorem Orders.precedes_of_longBefore (h : Orders less P) (e : End) {a b : β} (ha : P a)
    (hb : P b) (hab : e.longBefore less a b = true) : e.Precedes less b a := by
  cases e with
  | front => exact h.asymm hb ha hab
  | back => exact h.asymm ha hb hab

/-- What stands before the first item of a run stands before all of it. -/
theorem Orders.precedes_all (h : Orders less P) (e : End) {x y : β} {ys : List β} (hx : P x)
    (hys : ∀ b ∈ y :: ys, P b) (hpairs : (y :: ys).Pairwise (e.Precedes less))
    (hxy : e.Precedes less x y) : ∀ b ∈ y :: ys, e.Precedes less x b := by
  intro b hb
  rcases List.mem_cons.1 hb with rfl | hmem
  · exact hxy
  · exact h.precedes_trans e hx (hys y (by simp)) (hys b hb) hxy
      (List.rel_of_pairwise_cons hpairs hmem)

/-! ## Merging -/

namespace Merge

/-- The invariant of a merge: what is merged is in order and stands before the rest of both runs,
and the last item of the short run has its place behind the long run. -/
structure Ordered (e : End) (less : β → β → Bool) (P : β → Prop) (m : Merge β) : Prop where
  all : ∀ x ∈ m.toList, P x
  shorts : (m.merged.reverse ++ m.short).Pairwise (e.Precedes less)
  longs : (m.merged.reverse ++ m.long).Pairwise (e.Precedes less)
  last : ∀ l ∈ m.long, ∀ s ∈ m.short.getLast?, e.Precedes less l s

variable {e : End} {m : Merge β}

theorem Ordered.short (h : m.Ordered e less P) : ∀ s ∈ m.short, P s := by
  intro s hs
  exact h.all s (by simp [toList, hs])

theorem Ordered.long (h : m.Ordered e less P) : ∀ l ∈ m.long, P l := by
  intro l hl
  exact h.all l (by simp [toList, hl])

theorem Ordered.takeShort (h : m.Ordered e less P) {k : Nat}
    (hk : ∀ s ∈ m.short.take k, ∀ l ∈ m.long, e.Precedes less s l) :
    (m.takeShort k).Ordered e less P where
  all x hx := h.all x ((toList_takeShort_perm k m).mem_iff.1 hx)
  shorts := by simpa [Merge.takeShort] using h.shorts
  longs := by
    obtain ⟨hm, hs, hms⟩ := List.pairwise_append.1 h.shorts
    obtain ⟨-, hl, hml⟩ := List.pairwise_append.1 h.longs
    simp only [Merge.takeShort, List.reverse_append, List.reverse_reverse]
    refine List.pairwise_append.2 ⟨List.pairwise_append.2 ⟨hm, hs.take, ?_⟩, hl, ?_⟩
    · exact fun a ha b hb => hms a ha b (List.mem_of_mem_take hb)
    · intro a ha l hl
      rcases List.mem_append.1 ha with ha | ha
      · exact hml a ha l hl
      · exact hk a ha l hl
  last l hl s hs := by
    refine h.last l hl s ?_
    simp only [Merge.takeShort, List.getLast?_drop] at hs
    split at hs
    · cases hs
    · exact hs

theorem Ordered.takeLong (h : m.Ordered e less P) {k : Nat}
    (hk : ∀ l ∈ m.long.take k, ∀ s ∈ m.short, e.Precedes less l s) :
    (m.takeLong k).Ordered e less P where
  all x hx := h.all x (by rwa [toList_takeLong] at hx)
  longs := by simpa [Merge.takeLong] using h.longs
  shorts := by
    obtain ⟨hm, hs, hms⟩ := List.pairwise_append.1 h.shorts
    obtain ⟨-, hl, hml⟩ := List.pairwise_append.1 h.longs
    simp only [Merge.takeLong, List.reverse_append, List.reverse_reverse]
    refine List.pairwise_append.2 ⟨List.pairwise_append.2 ⟨hm, hl.take, ?_⟩, hs, ?_⟩
    · exact fun a ha b hb => hml a ha b (List.mem_of_mem_take hb)
    · intro a ha s hs
      rcases List.mem_append.1 ha with ha | ha
      · exact hms a ha s hs
      · exact hk a ha s hs
  last l hl s hs := h.last l (List.mem_of_mem_drop hl) s hs

/-- The items of the short run before the next of the long run, and that one too, have their place
behind what is merged. -/
theorem Ordered.gallopShort (h : m.Ordered e less P) (ho : Orders less P) :
    (m.gallopShort e less).1.Ordered e less P := by
  unfold Merge.gallopShort
  cases hl : m.long with
  | nil => exact h
  | cons l rest =>
    have hlong := (List.pairwise_append.1 h.longs).2.1
    have hshort := (List.pairwise_append.1 h.shorts).2.1
    have hPl := h.long l (by simp [hl])
    rw [hl] at hlong
    obtain ⟨hbefore, hbehind⟩ := countLeading_spec e (p := fun s => !e.longBefore less s l)
      (hshort.imp_of_mem fun ha hb hab h' => by
        rw [Bool.not_eq_true'] at h' ⊢
        exact ho.precedes_trans e (h.short _ ha) (h.short _ hb) hPl hab h')
    have htaken : (m.takeShort
        (countLeading e (fun s => !e.longBefore less s l) m.short)).Ordered e less P := by
      refine h.takeShort fun s hs => ?_
      rw [hl]
      refine ho.precedes_all e (h.short s (List.mem_of_mem_take hs)) (hl ▸ h.long) hlong ?_
      simpa [End.Precedes] using hbefore s hs
    dsimp only
    split
    · exact htaken
    · refine htaken.takeLong fun a ha s hs => ?_
      obtain rfl : a = l := by simpa [Merge.takeShort, hl] using ha
      exact ho.precedes_of_longBefore e (htaken.short s hs) hPl (by simpa using hbehind s hs)

/-- The items of the long run before the next of the short run, and that one too, have their place
behind what is merged. -/
theorem Ordered.gallopLong (h : m.Ordered e less P) (ho : Orders less P) :
    (m.gallopLong e less).1.Ordered e less P := by
  unfold Merge.gallopLong
  cases hs : m.short with
  | nil => exact h
  | cons s rest =>
    have hlong := (List.pairwise_append.1 h.longs).2.1
    have hshort := (List.pairwise_append.1 h.shorts).2.1
    have hPs := h.short s (by simp [hs])
    rw [hs] at hshort
    obtain ⟨hbefore, hbehind⟩ := countLeading_spec e (p := fun l => e.longBefore less s l)
      (hlong.imp_of_mem fun ha hb hab h' => by
        by_contra hsa
        rw [Bool.not_eq_true] at hsa
        rw [ho.precedes_trans e hPs (h.long _ ha) (h.long _ hb) hsa hab] at h'
        cases h')
    have htaken : (m.takeLong
        (countLeading e (fun l => e.longBefore less s l) m.long)).Ordered e less P := by
      refine h.takeLong fun l hl => ?_
      have hPl := h.long l (List.mem_of_mem_take hl)
      rw [hs]
      refine ho.precedes_all e hPl (hs ▸ h.short) hshort ?_
      exact ho.precedes_of_longBefore e hPs hPl (hbefore l hl)
    dsimp only
    split
    · exact htaken
    · refine htaken.takeShort fun a ha l hl => ?_
      obtain rfl : a = s := by simpa [Merge.takeLong, hs] using ha
      exact hbehind l hl

theorem Ordered.gallopBoth (h : m.Ordered e less P) (ho : Orders less P) :
    (m.gallopBoth e less).1.Ordered e less P := by
  unfold Merge.gallopBoth
  cases e with
  | front =>
    dsimp only
    split
    · exact h.gallopShort ho
    · exact (h.gallopShort ho).gallopLong ho
  | back =>
    dsimp only
    split
    · exact h.gallopLong ho
    · exact (h.gallopLong ho).gallopShort ho

/-- Taking the item that is chosen next keeps the invariant. -/
theorem Ordered.step (h : m.Ordered e less P) (ho : Orders less P) (hm : m.isDone = false) :
    (m.longNext e less = true → (m.takeLong 1).Ordered e less P) ∧
      (m.longNext e less = false → (m.takeShort 1).Ordered e less P) := by
  obtain ⟨short, long, merged⟩ := m
  cases short with
  | nil => simp [isDone] at hm
  | cons s ss =>
    cases long with
    | nil => cases ss <;> simp [isDone] at hm
    | cons l ls =>
      have hPs := h.short s (by simp)
      have hPl := h.long l (by simp)
      have hlong := (List.pairwise_append.1 h.longs).2.1
      have hshort := (List.pairwise_append.1 h.shorts).2.1
      constructor <;> intro hnext
      · refine h.takeLong fun a ha => ?_
        obtain rfl : a = l := by simpa using ha
        exact ho.precedes_all e hPl h.short hshort (ho.precedes_of_longBefore e hPs hPl hnext)
      · refine h.takeShort fun a ha => ?_
        obtain rfl : a = s := by simpa using ha
        exact ho.precedes_all e hPs h.long hlong hnext

/-- A merge keeps its invariant until all comparisons are done. -/
theorem Ordered.run (h : m.Ordered e less P) (ho : Orders less P) (pace : Pace) (patience : Nat) :
    (m.run e less pace patience).1.Ordered e less P ∧
      (m.run e less pace patience).1.isDone = true := by
  fun_induction Merge.run e less pace patience m with
  | case1 pace patience m hdone => exact ⟨h, hdone⟩
  | case2 patience m hdone shorts longs hnext pace ih =>
    exact ih ((h.step ho (by simpa using hdone)).1 hnext)
  | case3 patience m hdone shorts longs hnext pace ih =>
    exact ih ((h.step ho (by simpa using hdone)).2 (by simpa using hnext))
  | case4 patience m hdone taken hdone' => exact ⟨h.gallopBoth ho, hdone'⟩
  | case5 patience m hdone taken hdone' hlarge ih => exact ih (h.gallopBoth ho)
  | case6 patience m hdone taken hdone' hlarge ih => exact ih (h.gallopBoth ho)

/-- When all comparisons are done, the items are in order. -/
theorem Ordered.toList_pairwise (h : m.Ordered e less P) (hm : m.isDone = true) :
    m.toList.Pairwise (e.Precedes less) := by
  obtain ⟨short, long, merged⟩ := m
  match short, long with
  | [], long => simpa [toList] using h.longs
  | s :: ss, [] => simpa [toList] using h.shorts
  | [s], l :: ls =>
    refine List.pairwise_append.2 ⟨h.longs, List.pairwise_singleton _ s, ?_⟩
    intro a ha b hb
    obtain rfl := List.mem_singleton.1 hb
    rcases List.mem_append.1 ha with ha | ha
    · exact (List.pairwise_append.1 h.shorts).2.2 a ha b (by simp)
    · exact h.last a ha b rfl

end Merge

theorem Ascending.append {xs ys : List β} (hxs : Ascending less P xs) (hys : Ascending less P ys)
    (h : ∀ x ∈ xs, ∀ y ∈ ys, less y x = false) : Ascending less P (xs ++ ys) where
  all x hx := (List.mem_append.1 hx).elim (hxs.all x) (hys.all x)
  pairwise := List.pairwise_append.2 ⟨hxs.pairwise, hys.pairwise, h⟩

theorem Ascending.sublist {xs ys : List β} (hys : Ascending less P ys) (h : xs.Sublist ys) :
    Ascending less P xs where
  all x hx := hys.all x (h.subset hx)
  pairwise := hys.pairwise.sublist h

theorem Ascending.take_drop {xs : List β} (h : Ascending less P xs) {k : Nat} :
    ∀ a ∈ xs.take k, ∀ b ∈ xs.drop k, less b a = false := by
  have := h.pairwise
  rw [← List.take_append_drop k xs] at this
  exact (List.pairwise_append.1 this).2.2

theorem Ascending.le_getLast (ho : Orders less P) {xs : List β} (h : Ascending less P xs) {x : β}
    (hx : x ∈ xs.getLast?) : ∀ a ∈ xs, less x a = false := by
  intro a ha
  obtain ⟨ys, rfl⟩ := List.getLast?_eq_some_iff.1 hx
  rcases List.mem_append.1 ha with ha | ha
  · exact (List.pairwise_append.1 h.pairwise).2.2 a ha x (by simp)
  · obtain rfl := List.mem_singleton.1 ha
    exact ho.irrefl (h.all a (by simp))

theorem mem_head?_of_mem_take_one {xs : List β} {x : β} (h : x ∈ xs.take 1) : x ∈ xs.head? := by
  cases xs with
  | nil => simp at h
  | cons y ys => simp_all

/-- Runs whose items interleave at both ends are merged into one. -/
theorem interleave_ascending (ho : Orders less P) (patience : Nat) {first second : List β}
    (hfirst : Ascending less P first) (hsecond : Ascending less P second)
    (hfront : ∀ y ∈ second.head?, ∀ x ∈ first, less y x = true)
    (hback : ∀ x ∈ first.getLast?, ∀ y ∈ second, less y x = true) :
    Ascending less P (interleave less patience first second).1 := by
  refine ⟨fun x hx => ?_, ?_⟩
  · have := (interleave_perm less patience first second).mem_iff.1 hx
    exact (List.mem_append.1 this).elim (hfirst.all x) (hsecond.all x)
  unfold interleave
  split
  · have hstart : (⟨first, second, []⟩ : Merge β).Ordered .front less P := by
      refine ⟨?_, hfirst.pairwise, hsecond.pairwise, ?_⟩
      · intro x hx
        exact (List.mem_append.1 hx).elim (hsecond.all x) (hfirst.all x)
      · intro l hl s hs
        exact ho.asymm (hsecond.all l hl) (hfirst.all s (List.mem_of_getLast? hs)) (hback s hs l hl)
    have htaken := hstart.takeLong (k := 1) fun l hl s hs => by
      have hhead := mem_head?_of_mem_take_one hl
      exact ho.asymm (hsecond.all l (List.mem_of_mem_head? hhead)) (hfirst.all s hs)
        (hfront l hhead s hs)
    obtain ⟨hordered, hdone⟩ := htaken.run ho (.stepping 0 0) patience
    exact hordered.toList_pairwise hdone
  · have hstart : (⟨second.reverse, first.reverse, []⟩ : Merge β).Ordered .back less P := by
      refine ⟨?_, ?_, ?_, ?_⟩
      · intro x hx
        simp only [Merge.toList, List.reverse_nil, List.nil_append, List.mem_append,
          List.mem_reverse] at hx
        exact hx.elim (hfirst.all x) (hsecond.all x)
      · exact List.pairwise_reverse.2 hsecond.pairwise
      · exact List.pairwise_reverse.2 hfirst.pairwise
      · intro l hl s hs
        rw [List.getLast?_reverse] at hs
        rw [List.mem_reverse] at hl
        exact ho.asymm (hsecond.all s (List.mem_of_mem_head? hs)) (hfirst.all l hl)
          (hfront s hs l hl)
    have htaken := hstart.takeLong (k := 1) fun l hl s hs => by
      have hlast : l ∈ first.getLast? := List.head?_reverse ▸ mem_head?_of_mem_take_one hl
      rw [List.mem_reverse] at hs
      exact ho.asymm (hsecond.all s hs) (hfirst.all l (List.mem_of_getLast? hlast))
        (hback l hlast s hs)
    obtain ⟨hordered, hdone⟩ := htaken.run ho (.stepping 0 0) patience
    exact List.pairwise_reverse.2 (hordered.toList_pairwise hdone)

/-- Runs that interleave are merged between items that come before both and items that come after
both. -/
theorem interleave_between (ho : Orders less P) (patience : Nat)
    {before first second after : List β} (hfirst : Ascending less P (before ++ first))
    (hsecond : Ascending less P (second ++ after))
    (hfront : ∀ y ∈ second.head?, ∀ x ∈ first, less y x = true)
    (hback : ∀ x ∈ first.getLast?, ∀ y ∈ second, less y x = true)
    (hbefore : ∀ a ∈ before, ∀ y ∈ second ++ after, less y a = false)
    (hafter : ∀ x ∈ first, ∀ b ∈ after, less b x = false) :
    Ascending less P (before ++ (interleave less patience first second).1 ++ after) := by
  have hmiddle := interleave_ascending ho patience
    (hfirst.sublist (List.sublist_append_right before first))
    (hsecond.sublist (List.sublist_append_left second after)) hfront hback
  have hmem {a : β} (ha : a ∈ (interleave less patience first second).1) :
      a ∈ first ∨ a ∈ second :=
    List.mem_append.1 ((interleave_perm less patience first second).mem_iff.1 ha)
  refine ((hfirst.sublist (List.sublist_append_left before first)).append hmiddle ?_).append
    (hsecond.sublist (List.sublist_append_right second after)) ?_
  · intro a ha b hb
    rcases hmem hb with hb | hb
    · exact (List.pairwise_append.1 hfirst.pairwise).2.2 a ha b hb
    · exact hbefore a ha b (List.mem_append_left after hb)
  · intro a ha b hb
    rcases List.mem_append.1 ha with ha | ha
    · exact hbefore a ha b (List.mem_append_right second hb)
    rcases hmem ha with ha | ha
    · exact hafter a ha b hb
    · exact (List.pairwise_append.1 hsecond.pairwise).2.2 a ha b hb

/-- From the front of a run, the items are counted that are not greater than `y`. -/
theorem Ascending.countLeading_front (ho : Orders less P) {xs : List β} (h : Ascending less P xs)
    {y : β} (hy : P y) :
    (∀ x ∈ xs.take (countLeading .front (fun x => !less y x) xs), less y x = false) ∧
      ∀ x ∈ xs.drop (countLeading .front (fun x => !less y x) xs), less y x = true := by
  obtain ⟨htaken, hleft⟩ := countLeading_spec .front (p := fun x => !less y x)
    (h.pairwise.imp_of_mem fun ha hb hab hyb => by
      simpa using ho.trans (h.all _ ha) (h.all _ hb) hy hab (by simpa using hyb))
  exact ⟨fun x hx => by simpa using htaken x hx, fun x hx => by simpa using hleft x hx⟩

/-- From the back of a run, the items are counted that are not less than `x`. -/
theorem Ascending.countLeading_back (ho : Orders less P) {ys : List β} (h : Ascending less P ys)
    {x : β} (hx : P x) :
    (∀ y ∈ ys.take (ys.length - countLeading .back (fun y => !less y x) ys.reverse),
        less y x = true) ∧
      ∀ y ∈ ys.drop (ys.length - countLeading .back (fun y => !less y x) ys.reverse),
        less y x = false := by
  obtain ⟨htaken, hleft⟩ := countLeading_spec .back (p := fun y => !less y x)
    ((List.pairwise_reverse.2 h.pairwise).imp_of_mem fun ha hb hab hax => by
      rw [List.mem_reverse] at ha hb
      simpa using ho.trans hx (h.all _ hb) (h.all _ ha) (by simpa using hax) hab)
  rw [List.take_reverse] at htaken
  rw [List.drop_reverse] at hleft
  exact ⟨fun y hy => by simpa using hleft y (by simpa using hy),
    fun y hy => by simpa using htaken y (by simpa using hy)⟩

/-- Two runs in order are merged into one. -/
theorem mergeRuns_ascending (ho : Orders less P) (patience : Nat) {first second : List β}
    (hfirst : Ascending less P first) (hsecond : Ascending less P second) :
    Ascending less P (mergeRuns less patience first second).1 := by
  cases second with
  | nil => simpa [mergeRuns] using hfirst
  | cons y ys =>
    -- an item which is not greater than `y` is not greater than any item of the second run
    have hall (x) (hx : x ∈ first) (h : less y x = false) : ∀ y' ∈ y :: ys, less y' x = false :=
      ho.precedes_all .front (hfirst.all x hx) hsecond.all hsecond.pairwise h
    obtain ⟨hplaced, hrest⟩ := hfirst.countLeading_front ho (hsecond.all y (by simp))
    simp only [mergeRuns, List.head?_cons]
    generalize countLeading .front (fun x => !less y x) first = placed at hplaced hrest ⊢
    split
    · rename_i hnone
      have hlen : first.take placed = first := by
        rw [← List.append_nil (first.take placed), ← List.getLast?_eq_none_iff.1 hnone,
          List.take_append_drop]
      exact hfirst.append hsecond fun x hx => hall x hx (hplaced x (hlen.symm ▸ hx))
    · rename_i x hx
      have hPx := hfirst.all x (List.mem_of_mem_drop (List.mem_of_getLast? hx))
      obtain ⟨hmiddle, hbehind⟩ := hsecond.countLeading_back ho hPx
      generalize (y :: ys).length - countLeading .back (fun y' => !less y' x) (y :: ys).reverse =
        size at hbehind hmiddle ⊢
      have hdrop := hfirst.sublist (List.drop_sublist placed first)
      refine interleave_between ho patience (by rwa [List.take_append_drop])
        (by rwa [List.take_append_drop]) (fun y' hy' x' hx' => ?_) (fun x' hx' => ?_)
        (fun a ha => ?_) fun a ha b hb => ?_
      · obtain rfl : y' = y := by
          cases size <;> simp_all
        exact hrest x' hx'
      · obtain rfl : x = x' := by simpa [hx] using hx'
        exact hmiddle
      · rw [List.take_append_drop]
        exact hall a (List.mem_of_mem_take ha) (hplaced a ha)
      · exact ho.trans (hdrop.all a ha) hPx (hsecond.all b (List.mem_of_mem_drop hb))
          (hdrop.le_getLast ho hx a ha) (hbehind b hb)

/-! ## Runs -/

theorem Orders.less_trans (h : Orders less P) {a b c : β} (ha : P a) (hb : P b) (hc : P c)
    (hab : less a b = true) (hbc : less b c = true) : less a c = true := by
  by_contra hac
  rw [Bool.not_eq_true] at hac
  rw [h.trans hb hc ha (h.asymm hb hc hbc) hac] at hab
  cases hab

/-- A run that is split off is related throughout if the relation is transitive. -/
theorem splitRun_pairwise (step : β → β → Bool) {x : β} {ys : List β}
    (htrans : ∀ {a b c}, P a → P b → P c → step a b = true → step b c = true → step a c = true)
    (hP : ∀ y ∈ x :: ys, P y) :
    (x :: (splitRun step x ys).1).Pairwise fun a b => step a b = true := by
  fun_induction splitRun step x ys with
  | case1 x => exact List.pairwise_singleton _ x
  | case2 x y ys hstep run rest hrun ih =>
    have hpairs := ih fun z hz => hP z (List.mem_cons_of_mem x hz)
    rw [hrun] at hpairs
    refine List.pairwise_cons.2 ⟨fun z hz => ?_, hpairs⟩
    rcases List.mem_cons.1 hz with rfl | hmem
    · exact hstep
    · have hPz : P z := by
        apply hP
        have := splitRun_append step y ys
        rw [hrun] at this
        simp [← this, hmem]
      exact htrans (hP x (by simp)) (hP y (by simp)) hPz hstep
        (List.rel_of_pairwise_cons hpairs hmem)
  | case3 x y ys hstep => exact List.pairwise_singleton _ x

theorem initialRun_ascending (ho : Orders less P) {x : β} {ys : List β}
    (hP : ∀ y ∈ x :: ys, P y) : Ascending less P (initialRun less x ys).1 := by
  refine ⟨fun y hy => ?_, ?_⟩
  · exact hP y ((initialRun_perm less x ys).mem_iff.1 (List.mem_append_left _ hy))
  unfold initialRun
  split
  · have hpairs := splitRun_pairwise (fun a b => less b a)
      (fun ha hb hc hab hbc => ho.less_trans hc hb ha hbc hab) hP
    have hPrun (y) (hy : y ∈ x :: (splitRun (fun a b => less b a) x ys).1) : P y := by
      refine hP y ?_
      rw [← splitRun_append (fun a b => less b a) x ys]
      exact List.mem_cons.2 ((List.mem_cons.1 hy).imp_right (List.mem_append_left _))
    exact List.pairwise_reverse.2
      (hpairs.imp_of_mem fun ha hb hab => ho.asymm (hPrun _ hb) (hPrun _ ha) hab)
  · have hpairs := splitRun_pairwise (fun a b => !less b a)
      (fun ha hb hc hab hbc => by
        simpa using ho.trans ha hb hc (by simpa using hab) (by simpa using hbc)) hP
    simpa using hpairs

/-- Putting an item into its place keeps the items in order. -/
theorem insertSorted_ascending (ho : Orders less P) {sorted : Array β}
    (h : Ascending less P sorted.toList) {x : β} (hx : P x) :
    Ascending less P (insertSorted less sorted x).toList := by
  refine ⟨fun y hy => ?_, ?_⟩
  · have := (insertSorted_perm less sorted x).mem_iff.1 hy
    exact (List.mem_cons.1 this).elim (fun h => h ▸ hx) (h.all y)
  obtain ⟨behind, hbehind, hinsert⟩ : ∃ behind : Nat → Bool,
      (∀ i (hi : i < sorted.size), behind i = less x sorted[i]) ∧
      insertSorted less sorted x = (sorted.take (partitionPoint behind 0 sorted.size)).push x ++
        sorted.drop (partitionPoint behind 0 sorted.size) :=
    ⟨_, fun i hi => by simp [hi], rfl⟩
  have hP (i : Nat) (hi : i < sorted.size) : P sorted[i] := h.all _ (by simp)
  have hmono (i j) (_ : 0 ≤ i) (hij : i ≤ j) (hj : j < sorted.size) (hi : behind i = true) :
      behind j = true := by
    rcases Nat.eq_or_lt_of_le hij with rfl | hij
    · exact hi
    rw [hbehind i (by omega)] at hi
    rw [hbehind j hj]
    by_contra hxj
    rw [Bool.not_eq_true] at hxj
    have hle := List.pairwise_iff_getElem.1 h.pairwise i j (by simp; omega) (by simpa) hij
    rw [ho.trans (hP i (by omega)) (hP j hj) hx hle hxj] at hi
    cases hi
  obtain ⟨hlow, hhigh⟩ := partitionPoint_spec behind 0 sorted.size hmono
  have hresult : (insertSorted less sorted x).toList =
      sorted.toList.take (partitionPoint behind 0 sorted.size) ++
        x :: sorted.toList.drop (partitionPoint behind 0 sorted.size) := by
    simp [hinsert, List.take_of_length_le]
  rw [hresult]
  generalize partitionPoint behind 0 sorted.size = k at hlow hhigh ⊢
  have htake (a) (ha : a ∈ sorted.toList.take k) : less x a = false := by
    obtain ⟨i, hi, rfl⟩ := List.mem_take_iff_getElem.1 ha
    rw [Array.length_toList] at hi
    have := hlow i (Nat.zero_le i) (by omega)
    rwa [hbehind i (by omega)] at this
  have hdrop (b) (hb : b ∈ sorted.toList.drop k) : less b x = false := by
    obtain ⟨i, hi, rfl⟩ := List.mem_drop_iff_getElem.1 hb
    rw [Array.length_toList] at hi
    have := hhigh (k + i) (by omega) (by omega)
    rw [hbehind (k + i) (by omega)] at this
    exact ho.asymm hx (hP (k + i) (by omega)) this
  refine List.pairwise_append.2 ⟨h.pairwise.take, ?_, ?_⟩
  · exact List.pairwise_cons.2 ⟨hdrop, h.pairwise.drop⟩
  · intro a ha b hb
    rcases List.mem_cons.1 hb with rfl | hb
    · exact htake a ha
    · exact h.take_drop a ha b hb

theorem foldl_insertSorted_ascending (ho : Orders less P) {xs : List β} (hxs : ∀ x ∈ xs, P x)
    {sorted : Array β} (h : Ascending less P sorted.toList) :
    Ascending less P (xs.foldl (insertSorted less) sorted).toList := by
  induction xs generalizing sorted with
  | nil => exact h
  | cons x xs ih =>
    rw [List.forall_mem_cons] at hxs
    exact ih hxs.2 (insertSorted_ascending ho h hxs.1)

/-- Each of the runs into which a list is cut is in order. -/
theorem runs_ascending (ho : Orders less P) (least : Nat) {xs : List β} (hxs : ∀ x ∈ xs, P x) :
    ∀ run ∈ runs less least xs, Ascending less P run := by
  fun_induction runs less least xs with
  | case1 => simp
  | case2 x ys run rest missing ih =>
    have hrest (y) (hy : y ∈ rest) : P y :=
      hxs y ((initialRun_perm less x ys).mem_iff.1 (List.mem_append_right _ hy))
    rw [List.forall_mem_cons]
    refine ⟨?_, ih fun y hy => hrest y (List.mem_of_mem_drop hy)⟩
    apply foldl_insertSorted_ascending ho fun y hy => hrest y (List.mem_of_mem_take hy)
    exact initialRun_ascending ho hxs

/-! ## Sorting -/

namespace Pending

structure Ordered (less : β → β → Bool) (P : β → Prop) (p : Pending β) : Prop where
  last : Ascending less P p.last
  earlier : ∀ run ∈ p.earlier, Ascending less P run.1

theorem Ordered.collapse (ho : Orders less P) {p : Pending β} (h : p.Ordered less P)
    (power : Nat) : (p.collapse less power).Ordered less P := by
  fun_induction Pending.collapse less power p with
  | case1 => exact h
  | case2 last run depth earlier patience hdeep merged ih =>
    obtain ⟨hrun, hearlier⟩ := List.forall_mem_cons.1 h.earlier
    exact ih ⟨mergeRuns_ascending ho patience hrun h.last, hearlier⟩
  | case3 => exact h

theorem Ordered.add (ho : Orders less P) {p : Pending β} (h : p.Ordered less P) (size : Nat)
    {run : List β} (hrun : Ascending less P run) : (p.add less size run).Ordered less P where
  last := hrun
  earlier := by
    have := h.collapse ho (boundaryPower size (p.earlier.map (·.1)).flatten.length p.last.length
      run.length)
    exact List.forall_mem_cons.2 ⟨this.last, this.earlier⟩

theorem Ordered.foldl_add (ho : Orders less P) (size : Nat) {later : List (List β)}
    (hlater : ∀ run ∈ later, Ascending less P run) {p : Pending β} (h : p.Ordered less P) :
    (later.foldl (Pending.add less size) p).Ordered less P := by
  induction later generalizing p with
  | nil => exact h
  | cons run later ih =>
    rw [List.forall_mem_cons] at hlater
    exact ih hlater.2 (h.add ho size hlater.1)

theorem Ordered.mergeAll (ho : Orders less P) {p : Pending β} (h : p.Ordered less P) :
    Ascending less P (p.mergeAll less) := by
  fun_induction Pending.mergeAll less p with
  | case1 => exact h.last
  | case2 last run power patience =>
    exact mergeRuns_ascending ho patience (h.earlier (run, power) (by simp)) h.last
  | case3 last run power before depth earlier patience hshort merged ih =>
    obtain ⟨hrun, hbefore, hearlier⟩ : _ ∧ _ ∧ _ := by
      simpa only [List.forall_mem_cons] using h.earlier
    refine ih ⟨h.last, List.forall_mem_cons.2 ⟨?_, hearlier⟩⟩
    exact mergeRuns_ascending ho patience hbefore hrun
  | case4 last run power before depth earlier patience hlong merged ih =>
    obtain ⟨hrun, hearlier⟩ := List.forall_mem_cons.1 h.earlier
    exact ih ⟨mergeRuns_ascending ho patience hrun h.last, hearlier⟩

end Pending

/-- Sorting puts items into order that the comparison orders. -/
theorem sortStable_ascending (ho : Orders less P) {xs : List β} (hxs : ∀ x ∈ xs, P x) :
    Ascending less P (sortStable less xs) := by
  have hruns := runs_ascending ho (leastRun xs.length) hxs
  unfold sortStable
  cases h : runs less (leastRun xs.length) xs with
  | nil => exact ⟨by simp, List.Pairwise.nil⟩
  | cons run later =>
    rw [h, List.forall_mem_cons] at hruns
    apply Pending.Ordered.mergeAll ho
    exact Pending.Ordered.foldl_add ho xs.length hruns.2 ⟨hruns.1, by simp⟩

/-! ## The sorted list is the only one -/

/-- If any item of a list in order is not greater than `t`, neither is the first. -/
theorem Ascending.head_le (ho : Orders less P) {x : β} {xs : List β}
    (h : Ascending less P (x :: xs)) {t : β} (ht : P t)
    (hcount : 0 < (x :: xs).countP fun a => !less t a) : less t x = false := by
  obtain ⟨a, ha, hta⟩ := List.countP_pos_iff.1 hcount
  rw [Bool.not_eq_true'] at hta
  have hx := h.all x (by simp)
  refine ho.trans hx (h.all a ha) ht ?_ hta
  rcases List.mem_cons.1 ha with rfl | hmem
  · exact ho.irrefl hx
  · exact List.rel_of_pairwise_cons h.pairwise hmem

theorem Ascending.tail {x : β} {xs : List β} (h : Ascending less P (x :: xs)) :
    Ascending less P xs :=
  h.sublist (List.sublist_cons_self x xs)

theorem countP_head_pos (ho : Orders less P) {x : β} (hx : P x) (xs : List β) :
    0 < (x :: xs).countP fun a => !less x a :=
  List.countP_pos_iff.2 ⟨x, by simp, by simp [ho.irrefl hx]⟩

/-- Lists in order agree, up to items that the comparison does not tell apart, if for each item they
have the same number of items that are not greater. -/
theorem Ascending.forall₂_of_countP (ho : Orders less P) {xs ys : List β}
    (hxs : Ascending less P xs) (hys : Ascending less P ys)
    (hcount : ∀ t, P t → xs.countP (fun a => !less t a) = ys.countP (fun a => !less t a)) :
    List.Forall₂ (fun a b => P a ∧ P b ∧ less a b = false ∧ less b a = false) xs ys := by
  induction xs generalizing ys with
  | nil =>
    cases ys with
    | nil => exact .nil
    | cons y ys =>
      have hy := hys.all y (by simp)
      have := countP_head_pos ho hy ys
      rw [← hcount y hy] at this
      simp at this
  | cons x xs ih =>
    have hx := hxs.all x (by simp)
    have hxpos := countP_head_pos ho hx xs
    rw [hcount x hx] at hxpos
    cases ys with
    | nil => simp at hxpos
    | cons y ys =>
      have hy := hys.all y (by simp)
      have hypos := countP_head_pos ho hy ys
      rw [← hcount y hy] at hypos
      have hxy : less x y = false := hys.head_le ho hx hxpos
      have hyx : less y x = false := hxs.head_le ho hy hypos
      -- the heads stand in the same relation to every item, so the tails have the same counts
      have hheads (t) (ht : P t) : less t x = less t y := by
        rw [Bool.eq_iff_iff, ← not_iff_not, Bool.not_eq_true, Bool.not_eq_true]
        exact ⟨ho.trans hy hx ht hxy, ho.trans hx hy ht hyx⟩
      refine .cons ⟨hx, hy, hxy, hyx⟩ (ih hxs.tail hys.tail fun t ht => ?_)
      have := hcount t ht
      rw [List.countP_cons, List.countP_cons, hheads t ht] at this
      exact Nat.add_right_cancel this

/-- Lists in order with the same items agree up to items that the comparison does not tell apart. -/
theorem Ascending.forall₂_of_perm (ho : Orders less P) {xs ys : List β}
    (hxs : Ascending less P xs) (hys : Ascending less P ys) (h : xs.Perm ys) :
    List.Forall₂ (fun a b => P a ∧ P b ∧ less a b = false ∧ less b a = false) xs ys :=
  hxs.forall₂_of_countP ho hys fun _ _ => h.countP_eq _

end FunctionAlgebra
