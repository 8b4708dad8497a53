import FunctionAlgebra.Sorted.Search

/-!
# Runs

Cuts a list into runs, which are ascending pieces. A run goes on for as long as the list ascends,
or it is a strictly descending piece in reverse. One that is short is filled up with the items
behind it, each put into its place by binary search. Equal items keep their order.

## Main definitions

* `initialRun` — the first ascending or strictly descending piece.
* `insertSorted` — an item in its place among sorted ones.
* `runs` — the list as runs.
* `leastRun` — the size to which runs are filled up.
-/

namespace FunctionAlgebra

variable {β : Type}

def splitRun (step : β → β → Bool) : β → List β → List β × List β
  | _, [] => ([], [])
  | x, y :: ys =>
    if step x y then
      let (run, rest) := splitRun step y ys
      (y :: run, rest)
    else ([], y :: ys)

@[simp] theorem splitRun_append (step : β → β → Bool) (x : β) (ys : List β) :
    (splitRun step x ys).1 ++ (splitRun step x ys).2 = ys := by
  fun_induction splitRun step x ys <;> grind

def initialRun (less : β → β → Bool) (x : β) (ys : List β) : List β × List β :=
  if ys.head?.any (less · x) then
    let (run, rest) := splitRun (fun a b => less b a) x ys
    ((x :: run).reverse, rest)
  else
    let (run, rest) := splitRun (fun a b => !less b a) x ys
    (x :: run, rest)

theorem length_initialRun_snd_le (less : β → β → Bool) (x : β) (ys : List β) :
    (initialRun less x ys).2.length ≤ ys.length := by
  have (step : β → β → Bool) : (splitRun step x ys).2.length ≤ ys.length := by
    grind [splitRun_append step x ys]
  grind [initialRun]

theorem initialRun_perm (less : β → β → Bool) (x : β) (ys : List β) :
    ((initialRun less x ys).1 ++ (initialRun less x ys).2).Perm (x :: ys) := by
  have ascending := splitRun_append (fun a b => !less b a) x ys
  have descending := splitRun_append (fun a b => less b a) x ys
  grind [initialRun, List.reverse_perm, List.Perm.append_right, List.Perm.refl]

def insertSorted (less : β → β → Bool) (sorted : Array β) (x : β) : Array β :=
  let i := partitionPoint (fun i => match sorted[i]? with
    | some y => less x y
    | none => true) 0 sorted.size
  (sorted.take i).push x ++ sorted.drop i

theorem insertSorted_perm (less : β → β → Bool) (sorted : Array β) (x : β) :
    (insertSorted less sorted x).toList.Perm (x :: sorted.toList) := by
  simp only [insertSorted]
  generalize partitionPoint _ _ _ = i
  have : (sorted.toList.take i ++ x :: sorted.toList.drop i).Perm
      (x :: (sorted.toList.take i ++ sorted.toList.drop i)) := List.perm_middle
  simpa [List.take_of_length_le] using this

theorem foldl_insertSorted_perm (less : β → β → Bool) (xs : List β) (sorted : Array β) :
    (xs.foldl (insertSorted less) sorted).toList.Perm (sorted.toList ++ xs) := by
  induction xs generalizing sorted with
  | nil => simp
  | cons x xs ih =>
    refine (ih _).trans ?_
    exact ((insertSorted_perm less sorted x).append_right xs).trans List.perm_middle.symm

/-- A list as runs of at least `least` items, the last one apart. -/
def runs (less : β → β → Bool) (least : Nat) : List β → List (List β)
  | [] => []
  | x :: ys =>
    let run := (initialRun less x ys).1
    let rest := (initialRun less x ys).2
    let missing := least - run.length
    ((rest.take missing).foldl (insertSorted less) run.toArray).toList ::
      runs less least (rest.drop missing)
termination_by xs => xs.length
decreasing_by grind [length_initialRun_snd_le less x ys]

theorem flatten_runs_perm (less : β → β → Bool) (least : Nat) (xs : List β) :
    (runs less least xs).flatten.Perm xs := by
  fun_induction runs less least xs with
  | case1 => simp
  | case2 x ys run rest missing ih =>
    rw [List.flatten_cons]
    refine ((foldl_insertSorted_perm less _ _).append ih).trans ?_
    simpa using initialRun_perm less x ys

/-- Runs have 32 to 64 items, so many that the number of runs in a list of the given size is a
power of two or a little less. Shorter lists are one run. -/
def leastRun (size : Nat) : Nat :=
  if size < 64 then size
  else
    let halvings := size.log2 - 5
    (size + (1 <<< halvings) - 1) >>> halvings

end FunctionAlgebra
