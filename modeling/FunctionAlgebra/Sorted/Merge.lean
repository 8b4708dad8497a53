import FunctionAlgebra.Sorted.Gallop

/-!
# Merging neighbouring runs

Two runs that follow each other are merged from the end at which the shorter one stands. Items are
compared one by one until one run has been chosen many times in a row; from then on whole pieces
are moved for as long as they are long enough. Equal items keep their order.

A merge remembers how many choices in a row it takes to start galloping. The number falls while
galloping pays and rises when it does not.

## Main definitions

* `Merge` — two runs on their way into one.
* `Merge.run` — what a merge becomes when all comparisons are done.
* `mergeRuns` — two neighbouring runs as one.
-/

namespace FunctionAlgebra

variable {β : Type}

/-- Two runs that are merged, listed from the end at which they are merged. -/
structure Merge (β : Type) where
  short : List β
  long : List β
  /-- The items in their place, the last one first. -/
  merged : List β

inductive Pace where
  /-- Item by item. The numbers say how many times in a row each run has been chosen. -/
  | stepping (shorts longs : Nat)
  /-- By pieces of runs. -/
  | galloping

/-- Whether an item of the long run is merged before one of the short run. The short run is the
first of two that are merged from the front and the second of two that are merged from the back.
Either way its items have precedence over equal ones. -/
def End.longBefore (e : End) (less : β → β → Bool) (short long : β) : Bool :=
  match e with
  | .front => less long short
  | .back => less short long

namespace Merge

def size (m : Merge β) : Nat := m.short.length + m.long.length

def takeShort (k : Nat) (m : Merge β) : Merge β :=
  { m with short := m.short.drop k, merged := (m.short.take k).reverse ++ m.merged }

def takeLong (k : Nat) (m : Merge β) : Merge β :=
  { m with long := m.long.drop k, merged := (m.long.take k).reverse ++ m.merged }

/-- Nothing is left to compare. The last item of the short run is not compared, because it has its
place behind the whole long run. -/
def isDone (m : Merge β) : Bool :=
  match m.short with
  | _ :: _ :: _ => m.long.isEmpty
  | _ => true

def toList (m : Merge β) : List β := m.merged.reverse ++ m.long ++ m.short

def longNext (e : End) (less : β → β → Bool) (m : Merge β) : Bool :=
  match m.short, m.long with
  | s :: _, l :: _ => e.longBefore less s l
  | _, _ => false

/-- Take the items of the short run that come before the next of the long run, and that one too.
Tells the number of the former. -/
def gallopShort (e : End) (less : β → β → Bool) (m : Merge β) : Merge β × Nat :=
  match m.long with
  | [] => (m, 0)
  | l :: _ =>
    let k := countLeading e (fun s => !e.longBefore less s l) m.short
    let m := m.takeShort k
    (if m.isDone then m else m.takeLong 1, k)

def gallopLong (e : End) (less : β → β → Bool) (m : Merge β) : Merge β × Nat :=
  match m.short with
  | [] => (m, 0)
  | s :: _ =>
    let k := countLeading e (fun l => e.longBefore less s l) m.long
    let m := m.takeLong k
    (if m.isDone then m else m.takeShort 1, k)

/-- Take pieces of both runs, the one that comes first in the list also first here. Tells the size
of the larger piece. -/
def gallopBoth (e : End) (less : β → β → Bool) (m : Merge β) : Merge β × Nat :=
  let (first, second) := match e with
    | .front => (gallopShort e less, gallopLong e less)
    | .back => (gallopLong e less, gallopShort e less)
  let (m, j) := first m
  if m.isDone then (m, j)
  else
    let (m, k) := second m
    (m, max j k)

@[grind =] theorem isDone_eq_false_iff {m : Merge β} :
    m.isDone = false ↔ 2 ≤ m.short.length ∧ 1 ≤ m.long.length := by
  rcases m with ⟨_ | ⟨_, _ | _⟩, _ | _, _⟩ <;> simp [isDone]

@[grind =] theorem size_takeShort (k : Nat) (m : Merge β) :
    (m.takeShort k).size = m.short.length - k + m.long.length := by
  simp [takeShort, size]

@[grind =] theorem size_takeLong (k : Nat) (m : Merge β) :
    (m.takeLong k).size = m.short.length + (m.long.length - k) := by
  simp [takeLong, size]

theorem size_gallopShort_le (e : End) (less : β → β → Bool) (m : Merge β) :
    (m.gallopShort e less).1.size ≤ m.size := by
  grind [gallopShort, takeShort, takeLong, size]

theorem size_gallopLong_le (e : End) (less : β → β → Bool) (m : Merge β) :
    (m.gallopLong e less).1.size ≤ m.size := by
  grind [gallopLong, takeShort, takeLong, size]

theorem size_gallopShort_lt (e : End) (less : β → β → Bool) {m : Merge β}
    (h : (m.gallopShort e less).1.isDone = false) (hm : m.isDone = false) :
    (m.gallopShort e less).1.size < m.size := by
  grind [gallopShort, takeShort, takeLong, size]

theorem size_gallopLong_lt (e : End) (less : β → β → Bool) {m : Merge β}
    (h : (m.gallopLong e less).1.isDone = false) (hm : m.isDone = false) :
    (m.gallopLong e less).1.size < m.size := by
  grind [gallopLong, takeShort, takeLong, size]

theorem size_gallopBoth_lt (e : End) (less : β → β → Bool) {m : Merge β}
    (h : (m.gallopBoth e less).1.isDone = false) (hm : m.isDone = false) :
    (m.gallopBoth e less).1.size < m.size := by
  cases e with
  | front => grind [gallopBoth, size_gallopLong_le, → size_gallopShort_lt]
  | back => grind [gallopBoth, size_gallopShort_le, → size_gallopLong_lt]

/-- Merge until all comparisons are done. Galloping goes on for as long as a piece of seven items
was among those just taken. Gives the new number of choices in a row that starts it. -/
def run (e : End) (less : β → β → Bool) (pace : Pace) (patience : Nat) (m : Merge β) :
    Merge β × Nat :=
  if m.isDone then (m, patience)
  else
    match pace with
    | .stepping shorts longs =>
      if m.longNext e less then
        let pace := if patience ≤ longs + 1 then .galloping else .stepping 0 (longs + 1)
        run e less pace patience (m.takeLong 1)
      else
        let pace := if patience ≤ shorts + 1 then .galloping else .stepping (shorts + 1) 0
        run e less pace patience (m.takeShort 1)
    | .galloping =>
      let taken := m.gallopBoth e less
      if taken.1.isDone then (taken.1, patience)
      else if 7 ≤ taken.2 then run e less .galloping (max 1 (patience - 1)) taken.1
      else run e less (.stepping 0 0) (patience + 1) taken.1
termination_by m.size
decreasing_by all_goals grind [size, → size_gallopBoth_lt]

theorem toList_takeShort_perm (k : Nat) (m : Merge β) : (m.takeShort k).toList.Perm m.toList := by
  have := List.perm_append_comm_assoc (m.short.take k) m.long (m.short.drop k)
  simpa [toList, takeShort] using this.append_left m.merged.reverse

theorem toList_takeLong (k : Nat) (m : Merge β) : (m.takeLong k).toList = m.toList := by
  simp [toList, takeLong, List.append_assoc m.merged.reverse]

theorem toList_gallopShort_perm (e : End) (less : β → β → Bool) (m : Merge β) :
    (m.gallopShort e less).1.toList.Perm m.toList := by
  grind [gallopShort, toList_takeShort_perm, toList_takeLong, List.Perm.refl]

theorem toList_gallopLong_perm (e : End) (less : β → β → Bool) (m : Merge β) :
    (m.gallopLong e less).1.toList.Perm m.toList := by
  grind [gallopLong, toList_takeShort_perm, toList_takeLong, List.Perm.refl]

theorem toList_gallopBoth_perm (e : End) (less : β → β → Bool) (m : Merge β) :
    (m.gallopBoth e less).1.toList.Perm m.toList := by
  cases e <;> grind [gallopBoth, toList_gallopShort_perm, toList_gallopLong_perm, List.Perm.trans]

theorem toList_run_perm (e : End) (less : β → β → Bool) (pace : Pace) (patience : Nat)
    (m : Merge β) : (m.run e less pace patience).1.toList.Perm m.toList := by
  fun_induction run e less pace patience m <;>
    grind [toList_takeShort_perm, toList_takeLong, toList_gallopBoth_perm, List.Perm.trans,
      List.Perm.refl]

end Merge

/-- Merge two neighbouring runs whose items are known to interleave: the first item of the second
run goes to the very front, and the last item of the first run to the very back. -/
def interleave (less : β → β → Bool) (patience : Nat) (first second : List β) : List β × Nat :=
  if first.length ≤ second.length then
    let m := Merge.takeLong 1 ⟨first, second, []⟩
    let (m, patience) := m.run .front less (.stepping 0 0) patience
    (m.toList, patience)
  else
    let m := Merge.takeLong 1 ⟨second.reverse, first.reverse, []⟩
    let (m, patience) := m.run .back less (.stepping 0 0) patience
    (m.toList.reverse, patience)

theorem interleave_perm (less : β → β → Bool) (patience : Nat) (first second : List β) :
    (interleave less patience first second).1.Perm (first ++ second) := by
  rw [interleave]
  split
  · refine (Merge.toList_run_perm ..).trans ?_
    rw [Merge.toList_takeLong]
    simpa [Merge.toList] using List.perm_append_comm
  · refine (List.reverse_perm _).trans ((Merge.toList_run_perm ..).trans ?_)
    rw [Merge.toList_takeLong]
    simpa [Merge.toList] using (List.reverse_perm first).append (List.reverse_perm second)

/-- Two neighbouring runs as one, and the number of choices in a row that starts galloping next
time. Items at the front and the back that have their place already stay there. -/
def mergeRuns (less : β → β → Bool) (patience : Nat) (first second : List β) : List β × Nat :=
  let placed := match second.head? with
    | some y => countLeading .front (fun x => !less y x) first
    | none => first.length
  match (first.drop placed).getLast? with
  | none => (first ++ second, patience)
  | some x =>
    let size := second.length - countLeading .back (fun y => !less y x) second.reverse
    let (middle, patience) := interleave less patience (first.drop placed) (second.take size)
    (first.take placed ++ middle ++ second.drop size, patience)

theorem mergeRuns_perm (less : β → β → Bool) (patience : Nat) (first second : List β) :
    (mergeRuns less patience first second).1.Perm (first ++ second) := by
  simp only [mergeRuns]
  generalize (match second.head? with | some _ => _ | none => _ : Nat) = placed
  split
  · rfl
  · rename_i x _
    generalize second.length - _ = size
    refine (((interleave_perm ..).append_left _).append_right _).trans ?_
    rw [← List.append_assoc, List.take_append_drop, List.append_assoc, List.take_append_drop]

end FunctionAlgebra
