import FunctionAlgebra.Proofs.Coefficients
import FunctionAlgebra.Proofs.Equality
import FunctionAlgebra.Proofs.Laws
import FunctionAlgebra.Proofs.MergeCases
import FunctionAlgebra.Proofs.SimplifyCases
import FunctionAlgebra.Proofs.Induction
import Mathlib.Algebra.Order.BigOperators.Group.List
import Mathlib.Algebra.BigOperators.Group.List.Basic

/-!
# Weights of functions

A function weighs as much as its nodes. Neither scaling nor splitting off coefficients nor merging
makes functions heavier, for several choices of what a node weighs. One of them is `Fn.cost`, which
bounds the depth of simplification. With another one, every merge makes two functions lighter.

## Main definitions

* `Weights` — what the nodes of a tree weigh.
* `Weights.cost`, `Weights.nodes` — the weights that give the cost and the number of nodes.
* `Fn.weight`, `Fn.totalWeight` — the weight of a function, and of all functions in a list.
* `Fn.netWeight` — the weight without the exponent one of an inner function.

## Main statements

* `Fn.cost_eq` — the cost is a weight.
* `Fn.weight_scaleBy_le`, `Fn.weight_withScale_le` — a scaled function is no heavier.
* `Fn.Multiplied.netWeight_le`, `Fn.Divided.weight_le`, `Fn.Added.weight_lt` — neither is a merged
  function than the two that it was merged from.
-/

namespace FunctionAlgebra

/-- What the nodes of a tree weigh: multiples of `x`, other powers of `x`, other standard functions
of `x`, and standard functions of an inner function. All other nodes weigh one. The bounds are what
makes merged products no heavier. -/
structure Weights where
  x : Nat
  power : Nat
  plain : Nat
  chain : Nat
  x_pos : 1 ≤ x
  chain_pos : 1 ≤ chain
  lt_power : x + 1 ≤ power
  power_le : power ≤ x + chain
  power_le_two : power ≤ 2 * x
  x_le_plain : x ≤ plain
  plain_le_power : plain ≤ power

namespace Weights

def cost : Weights where
  x := 1
  power := 2
  plain := 2
  chain := 1
  x_pos := by decide
  chain_pos := by decide
  lt_power := by decide
  power_le := by decide
  power_le_two := by decide
  x_le_plain := by decide
  plain_le_power := by decide

/-- The weights that count the nodes, and with a power of `x` also the `x`. -/
def nodes : Weights where
  x := 1
  power := 2
  plain := 1
  chain := 1
  x_pos := by decide
  chain_pos := by decide
  lt_power := by decide
  power_le := by decide
  power_le_two := by decide
  x_le_plain := by decide
  plain_le_power := by decide

@[simp] theorem chain_cost : cost.chain = 1 := rfl

end Weights

namespace Fn

variable {α : Type} [Scalar α]

mutual

def weight (w : Weights) : Fn α → Nat
  | zero | one | const _ | undefined => 1
  | unary (.power p) _ none => if p == 1 then w.x else w.power
  | unary _ _ none => w.plain
  | unary _ _ (some f) => f.weight w + w.chain
  | sum fs => weightAll w fs + 1
  | product fs => weightAll w fs + 1
  | quotient n d => n.weight w + d.weight w + 1
  | piecewise segments => weightSegments w segments + 1

def weightAll (w : Weights) : List (Fn α) → Nat
  | [] => 0
  | f :: fs => f.weight w + weightAll w fs

def weightSegments (w : Weights) : List (Segment α (Fn α)) → Nat
  | [] => 0
  | ⟨_, f⟩ :: rest => f.weight w + weightSegments w rest

end

variable (w : Weights)

def totalWeight (fs : List (Fn α)) : Nat := (fs.map (weight w)).sum

@[simp] theorem totalWeight_nil : totalWeight w ([] : List (Fn α)) = 0 := rfl

@[simp] theorem totalWeight_cons (f : Fn α) (fs : List (Fn α)) :
    totalWeight w (f :: fs) = f.weight w + totalWeight w fs := by
  simp [totalWeight]

@[simp] theorem totalWeight_append (fs gs : List (Fn α)) :
    totalWeight w (fs ++ gs) = totalWeight w fs + totalWeight w gs := by
  simp [totalWeight]

variable {w}

theorem totalWeight_perm {fs gs : List (Fn α)} (h : fs.Perm gs) :
    totalWeight w fs = totalWeight w gs :=
  (h.map (weight w)).sum_eq

theorem totalWeight_sublist {fs gs : List (Fn α)} (h : fs.Sublist gs) :
    totalWeight w fs ≤ totalWeight w gs :=
  List.Sublist.sum_le_sum (h.map (weight w)) fun _ _ => Nat.zero_le _

theorem weight_le_totalWeight {f : Fn α} {fs : List (Fn α)} (h : f ∈ fs) :
    f.weight w ≤ totalWeight w fs := by
  simpa using totalWeight_sublist (List.singleton_sublist.2 h)

theorem totalWeight_le_of_forall₂ {fs gs : List (Fn α)}
    (h : List.Forall₂ (fun f g => g.weight w ≤ f.weight w) fs gs) :
    totalWeight w gs ≤ totalWeight w fs := by
  induction h with
  | nil => exact Nat.le_refl _
  | cons h _ ih => simpa using Nat.add_le_add h ih

theorem weightAll_eq (fs : List (Fn α)) : weightAll w fs = totalWeight w fs := by
  induction fs with
  | nil => rfl
  | cons f fs ih => simp [weightAll, ih]

theorem weightSegments_eq (segments : List (Segment α (Fn α))) :
    weightSegments w segments = totalWeight w (segments.map (·.payload)) := by
  induction segments with
  | nil => rfl
  | cons s rest ih => simp [weightSegments, ih]

@[simp] theorem weight_zero : (zero : Fn α).weight w = 1 := rfl

@[simp] theorem weight_one : (one : Fn α).weight w = 1 := rfl

@[simp] theorem weight_const (v : α) : (const v).weight w = 1 := rfl

@[simp] theorem weight_undefined : (undefined : Fn α).weight w = 1 := rfl

@[simp] theorem weight_chain (k : Kernel α) (s : α) (f : Fn α) :
    (unary k s (some f)).weight w = f.weight w + w.chain := by
  cases k <;> simp [weight]

@[simp] theorem weight_sum (ts : List (Fn α)) : (sum ts).weight w = totalWeight w ts + 1 :=
  congrArg (· + 1) (weightAll_eq ts)

@[simp] theorem weight_product (fs : List (Fn α)) :
    (product fs).weight w = totalWeight w fs + 1 := congrArg (· + 1) (weightAll_eq fs)

@[simp] theorem weight_quotient (n d : Fn α) :
    (quotient n d).weight w = n.weight w + d.weight w + 1 := rfl

@[simp] theorem weight_piecewise (segments : List (Segment α (Fn α))) :
    (piecewise segments).weight w = totalWeight w (segments.map (·.payload)) + 1 :=
  congrArg (· + 1) (weightSegments_eq segments)

theorem weight_plain_power (p s : α) :
    (unary (.power p) s none).weight w = if p == 1 then w.x else w.power := by
  simp [weight]

theorem weight_plain_le (k : Kernel α) (s : α) : (unary k s none).weight w ≤ w.power := by
  have := w.lt_power
  have := w.plain_le_power
  cases k <;> simp only [weight] <;> try omega
  split_ifs <;> omega

theorem le_weight_plain (k : Kernel α) (s : α) : w.x ≤ (unary k s none).weight w := by
  have := w.lt_power
  have := w.x_le_plain
  cases k <;> simp only [weight] <;> try omega
  split_ifs <;> omega

theorem weight_pos (f : Fn α) : 1 ≤ f.weight w := by
  have := w.x_pos
  cases f with
  | unary k s inner =>
    cases inner with
    | some f =>
      have := w.chain_pos
      rw [weight_chain]
      omega
    | none => exact w.x_pos.trans (le_weight_plain k s)
  | _ => simp

/-- The cost is a weight. -/
theorem cost_eq (f : Fn α) : f.cost = f.weight .cost := by
  have all {fs : List (Fn α)} (h : ∀ f ∈ fs, f.cost = f.weight .cost) :
      costAll fs = totalWeight .cost fs := by
    induction fs with
    | nil => rfl
    | cons f fs ih =>
      rw [costAll, totalWeight_cons, h f (by simp), ih fun g hg => h g (by simp [hg])]
  induction f with
  | zero | one | const v | undefined => simp [cost]
  | plain k s => cases k <;> simp [cost, weight, Weights.cost]
  | chain k s f ih =>
    rw [weight_chain, ← ih]
    cases k <;> simp [cost, Weights.cost]
  | sum ts ih => simp [cost, all ih]
  | product fs ih => simp [cost, all ih]
  | quotient n d ihn ihd => simp [cost, ihn, ihd]
  | piecewise segments ih =>
    rw [cost, weight_piecewise, Nat.add_right_cancel_iff]
    induction segments with
    | nil => rfl
    | cons s rest ih' =>
      rw [costSegments, List.map_cons, totalWeight_cons, ih s (by simp),
        ih' fun t ht => ih t (by simp [ht])]

theorem totalWeight_toTerms_le (f : Fn α) : totalWeight w f.toTerms ≤ f.weight w := by
  cases f <;> simp [toTerms]

theorem totalWeight_toFactors_le (f : Fn α) : totalWeight w f.toFactors ≤ f.weight w := by
  cases f <;> simp [toFactors]

theorem totalWeight_flatMap_le {φ : Fn α → List (Fn α)}
    (h : ∀ f, totalWeight w (φ f) ≤ f.weight w) (fs : List (Fn α)) :
    totalWeight w (fs.flatMap φ) ≤ totalWeight w fs := by
  induction fs with
  | nil => exact Nat.le_refl _
  | cons f fs ih => simpa using Nat.add_le_add (h f) ih

/-! ## The exponent one -/

/-- The weight without the exponent one of an inner function, which simplification takes away. -/
def netWeight (w : Weights) : Fn α → Nat
  | unary (.power p) _ (some f) => if p == 1 then f.weight w else f.weight w + w.chain
  | f => f.weight w

theorem netWeight_le (f : Fn α) : f.netWeight w ≤ f.weight w := by
  unfold netWeight
  split
  · rw [weight_chain]
    split_ifs <;> omega
  · exact Nat.le_refl _

theorem netWeight_pos (f : Fn α) : 1 ≤ f.netWeight w := by
  unfold netWeight
  split
  · rename_i f
    have := weight_pos (w := w) f
    split_ifs <;> omega
  · exact weight_pos _

theorem netWeight_of_kind {k : Kernel α} (h : k.kind ≠ .power) (s : α) (inner : Option (Fn α)) :
    (unary k s inner).netWeight w = (unary k s inner).weight w := by
  cases k with
  | power => exact (h rfl).elim
  | _ => rfl

/-- A standard function is no heavier with a lighter inner function. -/
theorem netWeight_chain_mono (k : Kernel α) (s : α) {f g : Fn α}
    (h : g.weight w ≤ f.weight w) :
    (unary k s (some g)).netWeight w ≤ (unary k s (some f)).netWeight w := by
  cases k <;> simp only [netWeight, weight_chain] <;> try omega
  split_ifs <;> omega

theorem netWeight_plain_le (k : Kernel α) (s : α) {f : Fn α} (h : w.x ≤ f.weight w) :
    (unary k s none).netWeight w ≤ (unary k s (some f)).netWeight w := by
  have := w.power_le
  cases k with
  | power p =>
    simp only [netWeight, weight_plain_power]
    split_ifs <;> omega
  | _ =>
    simp only [netWeight, weight_chain]
    exact (weight_plain_le ..).trans (by omega)

theorem weight_of_isIdentity {f : Fn α} (h : f.isIdentity = true) : f.weight w = w.x := by
  unfold isIdentity at h
  split at h
  · rw [Bool.and_eq_true] at h
    rw [weight_plain_power, if_pos h.2]
  · cases h

/-! ## Scaling -/

section Scaling

variable [LawfulScalar α]

@[simp] theorem weight_identity : (identity : Fn α).weight w = w.x := by
  rw [identity, weight_plain_power, if_pos LawfulScalar.one_beq_one]

omit [LawfulScalar α] in
@[simp] theorem weight_ofValue (v : α) : (ofValue v).weight w = 1 := by
  rw [ofValue]
  split_ifs <;> simp

theorem weight_scaled_le (k : Kernel α) (s t : α) (inner : Option (Fn α)) :
    (scaled k s inner).weight w ≤ (unary k t inner).weight w := by
  cases inner with
  | some f => simp [scaled]
  | none =>
    have := w.lt_power
    cases k with
    | power p =>
      simp only [scaled, Kernel.atScale, weight_plain_power]
      split_ifs with hs h1 hp <;> simp_all [LawfulScalar.one_beq_one]
      omega
    | _ => exact Nat.le_refl _

theorem weight_scaleBy_le (c : α) (f : Fn α) : (f.scaleBy c).weight w ≤ f.weight w := by
  refine scaleBy_induct (motive := fun f g => g.weight w ≤ f.weight w) c
    (fun f => Nat.le_refl _) (fun f => ?_) (fun f v _ => ?_) (fun _ k s inner => ?_)
    (fun ts ih => ?_) (fun f fs ih => ?_) (fun n d ih => ?_) (fun segments ih => ?_) f
  · simpa using weight_pos f
  · simpa using weight_pos f
  · exact weight_scaled_le ..
  · simp only [weight_sum, Nat.add_le_add_iff_right]
    exact totalWeight_le_of_forall₂ (List.forall₂_map_right_iff.2 (List.forall₂_same.2 ih))
  · simpa using ih
  · simpa using ih
  · simp only [weight_piecewise, Nat.add_le_add_iff_right]
    refine totalWeight_le_of_forall₂ ?_
    rw [List.forall₂_map_left_iff, List.map_map, List.forall₂_map_right_iff]
    exact List.forall₂_same.2 ih

theorem weight_withScale_le (c : α) (f : Fn α) : (f.withScale c).weight w ≤ f.weight w := by
  refine withScale_induct (motive := fun f g => g.weight w ≤ f.weight w) c
    (fun f => Nat.le_refl _) (fun f v _ => ?_) (fun k s inner => ?_) (fun n d ih => ?_)
    (fun f => weight_scaleBy_le ..) f
  · simpa using weight_pos f
  · exact weight_scaled_le ..
  · simpa using ih

theorem ScaledFirst.totalWeight_le {c : α} {us gs : List (Fn α)} (h : ScaledFirst c us gs) :
    totalWeight w gs ≤ totalWeight w us := by
  cases h with
  | one => exact Nat.le_refl _
  | @head u => simpa using weight_scaleBy_le c u

theorem weight_unit_le (f : Fn α) : f.unit.weight w ≤ f.weight w := by
  rw [unit]
  split_ifs
  · exact Nat.le_refl _
  · exact weight_withScale_le 1 f

theorem totalWeight_splitCoefficient_le (fs : List (Fn α)) :
    totalWeight w (splitCoefficient fs).2 ≤ totalWeight w fs := by
  rw [splitCoefficient, splitCoefficientFrom_snd]
  set rest := fs.filter (·.value?.isNone)
  have hunit : totalWeight w (rest.map unit) ≤ totalWeight w rest :=
    totalWeight_le_of_forall₂ (List.forall₂_map_right_iff.2 (List.forall₂_same.2 fun f _ =>
      weight_unit_le f))
  exact hunit.trans (totalWeight_sublist List.filter_sublist)

/-! ## Merging -/

omit [LawfulScalar α] in
/-- Powers of one base: an inner function counts once where it stood twice. -/
theorem weight_exponents_le {inner inner' : Option (Fn α)} (h : equalInner inner inner' = true)
    (k k' l : Kernel α) (s t r : α) :
    (unary l r inner).weight w ≤
      (unary k s inner).weight w + (unary k' t inner').weight w := by
  have := w.power_le_two
  have := w.chain_pos
  rcases equalInner_iff.1 h with ⟨rfl, rfl⟩ | ⟨f, g, rfl, rfl, -⟩
  · have := weight_plain_le (w := w) l r
    have := le_weight_plain (w := w) k s
    have := le_weight_plain (w := w) k' t
    omega
  · simp only [weight_chain]
    omega

/-- Powers with one exponent: an inner `x` that appears in the product of the bases is paid by the
weight of `x ^ p`, unless `p` is one. -/
theorem netWeight_bases_le {p q : α} {inner inner' : Option (Fn α)} (s t : α)
    (hi : equalInner inner inner' = false) (hp : (p == q) = true) :
    (power (some (product (sort [inner.getD identity, inner'.getD identity]))) (s * t) p).netWeight w
      ≤ (unary (.power p) s inner).weight w + (unary (.power q) t inner').weight w := by
  set a := inner.getD identity
  set b := inner'.getD identity
  have hsort : (product (sort [a, b])).weight w = a.weight w + b.weight w + 1 := by
    simp [totalWeight_perm (sortStable_perm less [a, b]), sort]
  have := w.chain_pos
  have := w.lt_power
  cases hp1 : p == 1 with
  | true =>
    have hcost : a.weight w + b.weight w + 1 ≤ (unary (.power p) s inner).weight w +
        (unary (.power q) t inner').weight w := by
      have := le_weight_plain (w := w) (.power p) s
      have := le_weight_plain (w := w) (.power q) t
      cases inner <;> cases inner' <;> simp_all [a, b, equalInner] <;> omega
    have hk : (Kernel.power p).atScale (s * t) = .power (if s * t == 0 then 1 else p) := rfl
    have h1 : ((if s * t == 0 then 1 else p) == 1) = true := by
      split_ifs
      · exact LawfulScalar.one_beq_one
      · exact hp1
    simp only [power, scaled, hk, netWeight, h1, if_true, hsort]
    omega
  | false =>
    have hq1 : (q == 1) = false := (BEq.congr_left hp).symm.trans hp1
    refine (netWeight_le _).trans ?_
    have := weight_scaled_le (w := w) (.power p) (s * t) 0 (some (product (sort [a, b])))
    rw [weight_chain, hsort] at this
    rw [power]
    cases inner <;> cases inner' <;>
      simp_all [a, b, equalInner, weight_plain_power] <;> omega

theorem Multiplied.netWeight_le {f g h : Fn α} (hm : Multiplied f g h) :
    h.netWeight w ≤ f.weight w + g.weight w := by
  cases hm with
  | absorbed =>
    refine (Fn.netWeight_le _).trans ?_
    have := weight_pos (w := w) g
    simp only [weight_undefined]
    omega
  | @exponents p s inner q t inner' hi =>
    refine (Fn.netWeight_le _).trans ?_
    have := weight_scaled_le (w := w) (.power (p + q)) (s * t) 0 inner
    have := weight_exponents_le (w := w) hi (.power p) (.power q) (.power (p + q)) s t 0
    rw [power]
    omega
  | values hf hg =>
    refine (Fn.netWeight_le _).trans ?_
    have := weight_pos (w := w) f
    have := weight_pos (w := w) g
    simp only [weight_const]
    omega
  | bases hi hp => exact netWeight_bases_le _ _ hi hp

theorem Divided.weight_le {f g h : Fn α} (hm : Divided f g h) :
    h.weight w ≤ f.weight w + g.weight w := by
  cases hm with
  | absorbed => simp
  | @exponents p s inner q t inner' ht hi =>
    have := weight_scaled_le (w := w) (.power (p - q)) (s / t) 0 inner
    have := weight_exponents_le (w := w) hi (.power p) (.power q) (.power (p - q)) s t 0
    rw [power]
    omega
  | values hf hg =>
    have := weight_pos (w := w) f
    simp only [weight_const]
    omega

theorem Added.weight_lt {simplify : Fn α → Attempt α (Fn α)} {f g h : Fn α}
    (hm : Added simplify f g h)
    (hs : ∀ n d n' d' top, f = quotient n d → g = quotient n' d' →
      (simplify (sum [n, n'])).outcome = .ok top →
        top.weight w ≤ n.weight w + n'.weight w + 1) :
    h.weight w < f.weight w + g.weight w := by
  have hf := weight_pos (w := w) f
  have hg := weight_pos (w := w) g
  cases hm with
  | absorbed =>
    simp only [weight_undefined]
    omega
  | @scales k s inner k' t inner' hk hi =>
    have := weight_scaled_le (w := w) k (s + t) s inner
    omega
  | @heads a as b bs h hu =>
    have := weight_withScale_le (w := w) (a.scale + b.scale) a
    simp only [weight_product, totalWeight_cons] at hg ⊢
    omega
  | @numerators n d n' d' top h ht =>
    have := weight_pos (w := w) d'
    have := hs n d n' d' top rfl rfl ht
    simp only [weight_quotient]
    omega
  | values hv hw =>
    simp only [weight_const]
    omega

end Scaling

end Fn

end FunctionAlgebra
