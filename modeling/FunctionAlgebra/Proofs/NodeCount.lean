import FunctionAlgebra.Double
import FunctionAlgebra.Proofs.Preorder
import FunctionAlgebra.Proofs.Recursion

/-!
# The number of nodes

A power of `x` has no node for its base. Where such powers are multiplied with powers of another
base, the base `x` becomes a node, and if there are other factors left, the simplified form has
more nodes than the function. There is no other way to more nodes: if each power of `x` is counted
together with its base, simplification makes no function larger.

## Main definitions

* `Fn.isBarePower` — a power of `x` other than `x` itself.
* `Fn.countNodes`, `Fn.countBarePowers` — how many nodes a walk through the tree visits, and how
  many of them are such powers.

## Main statements

* `Fn.weight_nodes` — nodes and bases of powers together are a weight.
* `Fn.simplify_countNodes` — simplification adds at most one node for each power of `x`.
* `Fn.simplify_adds_node` — a simplified form with one node more.
-/

namespace FunctionAlgebra.Fn

variable {α : Type} [Scalar α]

/-- Whether this is a power of `x` other than a multiple of `x`. Its base is not a node. -/
def isBarePower : Fn α → Bool
  | unary (.power p) _ none => !(p == 1)
  | _ => false

def countNodes (f : Fn α) : Nat := (f.walk true).length

def countBarePowers (f : Fn α) : Nat := (f.walk true).countP (·.node.isBarePower)

/-- The number of visits, where a visit to a power of `x` counts for its base too. -/
def size (visits : List (Visit α)) : Nat :=
  visits.length + visits.countP (·.node.isBarePower)

@[simp] theorem size_nil : size ([] : List (Visit α)) = 0 := rfl

@[simp] theorem size_append (vs ws : List (Visit α)) : size (vs ++ ws) = size vs + size ws := by
  simp only [size, List.length_append, List.countP_append]
  omega

theorem size_cons (v : Visit α) (vs : List (Visit α)) : size (v :: vs) = size [v] + size vs :=
  size_append [v] vs

/-- Only the node matters to the size of one visit. -/
theorem size_visit (above : List (Fn α)) (key : String) (f : Fn α) :
    size [⟨above, key, f⟩] = if f.isBarePower then 2 else 1 := by
  simp only [size, List.countP_singleton, List.length_singleton]
  split <;> rfl

theorem size_walkAll {fs : List (Fn α)}
    (h : ∀ f ∈ fs, ∀ above key, size (⟨above, key, f⟩ :: walkBelow above f) = f.weight .nodes)
    (above : List (Fn α)) (word : String) (i : Nat) :
    size (walkAll above word i fs) = totalWeight .nodes fs := by
  induction fs generalizing i with
  | nil => rfl
  | cons f fs ih =>
    rw [List.forall_mem_cons] at h
    rw [walkAll, size_append, h.1, ih h.2, totalWeight_cons]

/-- A walk through a part of a function has the size that the part weighs. -/
theorem size_walkBelow (f : Fn α) (above : List (Fn α)) (key : String) :
    size (⟨above, key, f⟩ :: walkBelow above f) = f.weight .nodes := by
  induction f generalizing above key with
  | zero | one | const v | undefined => rfl
  | plain k s =>
    rw [size_cons, size_visit]
    cases k <;> simp [isBarePower, walkBelow, weight, Weights.nodes]
    split <;> simp_all
  | chain k s f ih =>
    have hbare : (unary k s (some f)).isBarePower = false := by cases k <;> rfl
    rw [size_cons, size_visit, hbare, walkBelow, ih, weight_chain]
    exact Nat.add_comm 1 _
  | sum ts ih =>
    rw [size_cons, size_visit, walkBelow, size_walkAll ih, weight_sum]
    exact Nat.add_comm 1 _
  | product fs ih =>
    rw [size_cons, size_visit, walkBelow, size_walkAll ih, weight_product]
    exact Nat.add_comm 1 _
  | quotient n d ihn ihd =>
    rw [size_cons, size_visit, walkBelow, size_append, ihn, ihd, weight_quotient]
    exact Nat.add_comm 1 _
  | piecewise segments ih =>
    rw [size_cons, size_visit, walkBelow, walkSegments_eq, size_walkAll (List.forall_mem_map.2 ih),
      weight_piecewise]
    exact Nat.add_comm 1 _

/-- The nodes of a function and the bases of its powers of `x` are its weight. -/
theorem weight_nodes (f : Fn α) : f.weight .nodes = f.countNodes + f.countBarePowers :=
  (size_walkBelow f [] "").symm

/-- Simplification adds no nodes but those for the bases of powers of `x`: if each such power is
counted twice, the simplified form is not larger. So it adds at most as many nodes as there are such
powers, and none if there are none. -/
theorem simplify_countNodes [LawfulScalar α] (f : Fn α) :
    f.simplify.Meets Failure.IsAngle fun g =>
      g.countNodes + g.countBarePowers ≤ f.countNodes + f.countBarePowers := by
  have hends : f.simplify.Meets Failure.IsAngle fun _ => True :=
    (simplify_cost_le f).mono fun _ _ => trivial
  have hlight : f.simplify.Meets (fun _ => True) fun g => g.weight .nodes ≤ f.weight .nodes :=
    (simplify_lightens .nodes).weight_le f
  refine (hends.and_of_ok hlight).mono fun g hg => ?_
  rw [← weight_nodes, ← weight_nodes]
  exact hg.1

/-- There is no such power in `exp x + exp x`, so its simplified form has no more nodes. -/
theorem simplify_countNodes_exponential :
    let f : Fn Exact := sum [unary .exponential 1 none, unary .exponential 1 none]
    f.countBarePowers = 0 ∧ f.simplify.Meets Failure.IsAngle fun g => g.countNodes ≤ f.countNodes := by
  intro f
  have hpowers : f.countBarePowers = 0 := rfl
  refine ⟨hpowers, (simplify_countNodes f).mono fun g hg => ?_⟩
  omega

/-- In the product of `exp x`, `x ^ 2` and `(sin x) ^ 2` the last two factors become the square of
the product of `sin x` and `x`, and this `x` is one node more. -/
theorem simplify_adds_node :
    let f : Fn Float := product [unary .exponential 1 none, power none 1 2,
      power (some (unary (.sine 1 0) 1 none)) 1 2]
    f.countNodes = 5 ∧ f.countBarePowers = 1 ∧
      ∃ g, f.simplify.outcome = .ok g ∧ g.countNodes = 6 ∧ g.countBarePowers = 0 := by
  intro f
  have hrun : (f.simplify.outcome.toOption.map fun g => (g.countNodes, g.countBarePowers)) =
      some (6, 0) := by
    decide +kernel
  refine ⟨by decide, by decide, ?_⟩
  cases hg : f.simplify.outcome with
  | error e => simp [hg, Except.toOption] at hrun
  | ok g =>
    rw [hg] at hrun
    obtain ⟨hnodes, hpowers⟩ := Prod.mk.inj (Option.some.inj hrun)
    exact ⟨g, rfl, hnodes, hpowers⟩

end FunctionAlgebra.Fn
