import FunctionAlgebra.Sorted.Merge
import FunctionAlgebra.Sorted.Run

/-!
# Stable sorting

A natural merge sort: a list is cut into runs, and neighbouring runs are merged. A run waits until
the boundary behind it lies higher in a balanced tree of merges than the one before it.

The answer depends on the comparison alone where that is a total preorder. Where it is not, as
with items that contain a NaN, the answer is still the one that this algorithm gives.

## Main definitions

* `boundaryPower` — how deep the boundary between two runs lies.
* `Pending` — runs that wait to be merged.
* `sortStable` — the sorted list.

## Main statements

* `sortStable_perm` — sorting keeps all items, whatever the comparison is.
-/

namespace FunctionAlgebra

variable {β : Type}

/-- The depth of the boundary between two runs in a balanced tree over a list of the given size:
one more than the number of binary digits that the middles of the two runs have in common, as
fractions of the list. The first run begins at `start`. -/
def boundaryPower (size start first second : Nat) : Nat :=
  let low := 2 * start + first
  let high := low + first + second
  let agree (digits : Nat) : Bool := (low <<< digits) / size == (high <<< digits) / size
  ((List.range (size.log2 + 2)).takeWhile agree).length + 1

structure Pending (β : Type) where
  last : List β
  /-- The runs before the last one, the nearest first, each with the power of the boundary behind
  it. -/
  earlier : List (List β × Nat)
  /-- The number of choices in a row that starts galloping. -/
  patience : Nat

namespace Pending

def toList (p : Pending β) : List β := (p.earlier.reverse.map (·.1)).flatten ++ p.last

/-- Merge the last run with those before it for as long as the boundary between them is deeper than
`power`. -/
def collapse (less : β → β → Bool) (power : Nat) : Pending β → Pending β
  | ⟨last, [], patience⟩ => ⟨last, [], patience⟩
  | ⟨last, (run, depth) :: earlier, patience⟩ =>
    if power < depth then
      let merged := mergeRuns less patience run last
      collapse less power ⟨merged.1, earlier, merged.2⟩
    else ⟨last, (run, depth) :: earlier, patience⟩
termination_by p => p.earlier.length

theorem toList_collapse_perm (less : β → β → Bool) (power : Nat) (p : Pending β) :
    (p.collapse less power).toList.Perm p.toList := by
  fun_induction collapse less power p with
  | case1 => rfl
  | case2 last run depth earlier patience h merged ih =>
    refine ih.trans ?_
    simpa [toList] using (mergeRuns_perm less patience run last).append_left _
  | case3 => rfl

def add (less : β → β → Bool) (size : Nat) (p : Pending β) (run : List β) : Pending β :=
  let start := (p.earlier.map (·.1)).flatten.length
  let power := boundaryPower size start p.last.length run.length
  let p := p.collapse less power
  ⟨run, (p.last, power) :: p.earlier, p.patience⟩

theorem toList_add_perm (less : β → β → Bool) (size : Nat) (p : Pending β) (run : List β) :
    (p.add less size run).toList.Perm (p.toList ++ run) := by
  simp only [add]
  generalize boundaryPower _ _ _ _ = power
  simpa [toList] using (toList_collapse_perm less power p).append_right run

theorem toList_foldl_add_perm (less : β → β → Bool) (size : Nat) (later : List (List β))
    (p : Pending β) : (later.foldl (add less size) p).toList.Perm (p.toList ++ later.flatten) := by
  induction later generalizing p with
  | nil => simp
  | cons run later ih =>
    refine (ih _).trans ?_
    simpa using (p.toList_add_perm less size run).append_right later.flatten

/-- Merge all runs, from the last one on. The run before the last one is merged with the shorter of
its neighbours. -/
def mergeAll (less : β → β → Bool) : Pending β → List β
  | ⟨last, [], _⟩ => last
  | ⟨last, [(run, _)], patience⟩ => (mergeRuns less patience run last).1
  | ⟨last, (run, power) :: (before, depth) :: earlier, patience⟩ =>
    if before.length < last.length then
      let merged := mergeRuns less patience before run
      mergeAll less ⟨last, (merged.1, power) :: earlier, merged.2⟩
    else
      let merged := mergeRuns less patience run last
      mergeAll less ⟨merged.1, (before, depth) :: earlier, merged.2⟩
termination_by p => p.earlier.length

theorem mergeAll_perm (less : β → β → Bool) (p : Pending β) :
    (p.mergeAll less).Perm p.toList := by
  fun_induction mergeAll less p with
  | case1 => simp [toList]
  | case2 last run power patience => simpa [toList] using mergeRuns_perm less patience run last
  | case3 last run power before depth earlier patience h merged ih =>
    refine ih.trans ?_
    simpa [toList] using ((mergeRuns_perm less patience before run).append_right last).append_left _
  | case4 last run power before depth earlier patience h merged ih =>
    refine ih.trans ?_
    simpa [toList] using ((mergeRuns_perm less patience run last).append_left before).append_left _

end Pending

/-- Sort by a strict comparison. Galloping starts after seven choices in a row at first. -/
def sortStable (less : β → β → Bool) (xs : List β) : List β :=
  match runs less (leastRun xs.length) xs with
  | [] => []
  | run :: later => (later.foldl (Pending.add less xs.length) ⟨run, [], 7⟩).mergeAll less

theorem sortStable_perm (less : β → β → Bool) (xs : List β) : (sortStable less xs).Perm xs := by
  refine List.Perm.trans ?_ (flatten_runs_perm less (leastRun xs.length) xs)
  rw [sortStable]
  split
  · simp [*]
  · rename_i run later eq
    rw [eq]
    refine (Pending.mergeAll_perm less _).trans ?_
    simpa [Pending.toList] using Pending.toList_foldl_add_perm less xs.length later ⟨run, [], 7⟩

end FunctionAlgebra
