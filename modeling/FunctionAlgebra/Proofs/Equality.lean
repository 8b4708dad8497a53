import FunctionAlgebra.Fn.Equality
import FunctionAlgebra.Proofs.Exact
import FunctionAlgebra.Proofs.Numbers
import Mathlib.Data.List.Forall2

/-!
# Equal functions

Over exact numbers two functions are equal if they are the same tree, apart from which of their
constants are canonical, and hold no undefined number.

## Main definitions

* `Fn.forget` — a function with constants in place of its canonical leaves.

## Main statements

* `Fn.equalAll_iff_forall₂`, `Fn.sameChildren_iff_forall₂` — lists are compared place by place.
* `Fn.beq_iff` — equality of functions over exact numbers.
-/

namespace FunctionAlgebra

variable {α : Type}

/-- Intervals are equal bound by bound. -/
theorem Interval.beq_iff_bounds [Scalar α] {i j : Interval α} :
    (i == j) = true ↔ (i.low == j.low) = true ∧ i.lowClosed = j.lowClosed ∧
      (i.high == j.high) = true ∧ i.highClosed = j.highClosed := by
  have : (i == j) = (i.low == j.low && i.lowClosed == j.lowClosed && i.high == j.high &&
    i.highClosed == j.highClosed) := rfl
  simp [this, and_assoc]

namespace Fn

section Lists

variable [Scalar α]

theorem equalAll_iff_forall₂ {fs gs : List (Fn α)} :
    equalAll fs gs = true ↔ List.Forall₂ (fun f g => (f == g) = true) fs gs := by
  induction fs generalizing gs with
  | nil => cases gs <;> simp [equalAll]
  | cons f fs ih =>
    cases gs with
    | nil => simp [equalAll]
    | cons g gs =>
      rw [equalAll, Bool.and_eq_true, ih, List.forall₂_cons]
      rfl

theorem equalSegments_iff_forall₂ {ss ts : List (Segment α (Fn α))} :
    equalSegments ss ts = true ↔
      List.Forall₂ (fun s t => (s.range == t.range) = true ∧ (s.payload == t.payload) = true)
        ss ts := by
  induction ss generalizing ts with
  | nil => cases ts <;> simp [equalSegments]
  | cons s ss ih =>
    cases ts with
    | nil => simp [equalSegments]
    | cons t ts =>
      rw [equalSegments, Bool.and_eq_true, Bool.and_eq_true, ih, List.forall₂_cons]
      rfl

theorem sameChildren_iff_forall₂ {fs gs : List (Fn α)} :
    sameChildren fs gs = true ↔
      List.Forall₂ (fun f g => f.same g = true ∨ (f == g) = true) fs gs := by
  induction fs generalizing gs with
  | nil => cases gs <;> simp [sameChildren]
  | cons f fs ih => cases gs <;> simp [sameChildren, ih]

theorem sameAll_iff_forall₂ {fs gs : List (Fn α)} :
    sameAll fs gs = true ↔ List.Forall₂ (fun f g => f.same g = true) fs gs := by
  induction fs generalizing gs with
  | nil => cases gs <;> simp [sameAll]
  | cons f fs ih => cases gs <;> simp [sameAll, ih]

theorem sameSegments_iff_forall₂ {ss ts : List (Segment α (Fn α))} :
    sameSegments ss ts = true ↔
      List.Forall₂ (fun s t => s.range.same t.range = true ∧ s.payload.same t.payload = true)
        ss ts := by
  induction ss generalizing ts with
  | nil => cases ts <;> simp [sameSegments]
  | cons s ss ih => cases ts <;> simp [sameSegments, ih, and_assoc]

theorem equalInner_iff {inner inner' : Option (Fn α)} :
    equalInner inner inner' = true ↔
      (inner = none ∧ inner' = none) ∨
        ∃ f g, inner = some f ∧ inner' = some g ∧ (f == g) = true := by
  cases inner <;> cases inner' <;> simp [equalInner]

theorem unary_beq_unary (k k' : Kernel α) (s s' : α) (inner inner' : Option (Fn α)) :
    (unary k s inner == unary k' s' inner') =
      (s == s' && k == k' && equalInner inner inner') := by
  cases inner <;> cases inner' <;> simp [BEq.beq, equal, equalInner]

theorem sum_beq_sum {ts us : List (Fn α)} :
    (sum ts == sum us) = true ↔ List.Forall₂ (fun t u => (t == u) = true) ts us := by
  rw [← equalAll_iff_forall₂]
  simp [BEq.beq, equal]

theorem product_beq_product {fs gs : List (Fn α)} :
    (product fs == product gs) = true ↔ List.Forall₂ (fun f g => (f == g) = true) fs gs := by
  rw [← equalAll_iff_forall₂]
  simp [BEq.beq, equal]

theorem quotient_beq_quotient {n d n' d' : Fn α} :
    (quotient n d == quotient n' d') = true ↔ (n == n') = true ∧ (d == d') = true := by
  simp [BEq.beq, equal]

theorem piecewise_beq_piecewise {ss ts : List (Segment α (Fn α))} :
    (piecewise ss == piecewise ts) = true ↔
      List.Forall₂ (fun s t => (s.range == t.range) = true ∧ (s.payload == t.payload) = true)
        ss ts := by
  rw [← equalSegments_iff_forall₂]
  simp [BEq.beq, equal]

end Lists

/-! ## Canonical leaves -/

mutual

/-- A function with constants in place of its canonical leaves. -/
def forget [Zero α] [One α] : Fn α → Fn α
  | zero => const 0
  | one => const 1
  | const v => const v
  | undefined => undefined
  | unary k s none => unary k s none
  | unary k s (some f) => unary k s (some f.forget)
  | sum ts => sum (forgetAll ts)
  | product fs => product (forgetAll fs)
  | quotient n d => quotient n.forget d.forget
  | piecewise segments => piecewise (forgetSegments segments)

def forgetAll [Zero α] [One α] : List (Fn α) → List (Fn α)
  | [] => []
  | f :: fs => f.forget :: forgetAll fs

def forgetSegments [Zero α] [One α] : List (Segment α (Fn α)) → List (Segment α (Fn α))
  | [] => []
  | ⟨range, f⟩ :: rest => ⟨range, f.forget⟩ :: forgetSegments rest

end

section Forget

variable [Zero α] [One α]

theorem forgetAll_eq_map (fs : List (Fn α)) : forgetAll fs = fs.map forget := by
  induction fs with
  | nil => rfl
  | cons f fs ih => simp [forgetAll, ih]

theorem forgetSegments_eq_map (segments : List (Segment α (Fn α))) :
    forgetSegments segments = segments.map (·.map forget) := by
  induction segments with
  | nil => rfl
  | cons s rest ih => simp [forgetSegments, Segment.map, ih]

@[simp] theorem forget_zero : (zero : Fn α).forget = const 0 := rfl

@[simp] theorem forget_one : (one : Fn α).forget = const 1 := rfl

@[simp] theorem forget_const (v : α) : (const v).forget = const v := rfl

@[simp] theorem forget_undefined : (undefined : Fn α).forget = undefined := rfl

@[simp] theorem forget_unary (k : Kernel α) (s : α) (inner : Option (Fn α)) :
    (unary k s inner).forget = unary k s (inner.map forget) := by
  cases inner <;> simp [forget]

@[simp] theorem forget_sum (ts : List (Fn α)) : (sum ts).forget = sum (ts.map forget) :=
  congrArg sum (forgetAll_eq_map ts)

@[simp] theorem forget_product (fs : List (Fn α)) :
    (product fs).forget = product (fs.map forget) := congrArg product (forgetAll_eq_map fs)

@[simp] theorem forget_quotient (n d : Fn α) :
    (quotient n d).forget = quotient n.forget d.forget := rfl

@[simp] theorem forget_piecewise (segments : List (Segment α (Fn α))) :
    (piecewise segments).forget = piecewise (segments.map (·.map forget)) :=
  congrArg piecewise (forgetSegments_eq_map segments)

@[simp] theorem forget_forget (f : Fn α) : f.forget.forget = f.forget := by
  induction f with
  | zero | one | const v | undefined => simp
  | plain k s => simp
  | chain k s f ih => simp [ih]
  | sum ts ih => simpa using ih
  | product fs ih => simpa using ih
  | quotient n d ihn ihd => simp [ihn, ihd]
  | piecewise segments ih =>
    simpa [Segment.map] using ih

end Forget

@[simp] theorem scale_forget (f : Fn Exact) : f.forget.scale = f.scale := by
  induction f with
  | quotient n d ihn => simpa [scale] using ihn
  | _ => simp [scale]

end Fn

/-! ## Exact numbers -/

theorem Exact.isNaN_eq_false_iff {a : Exact} : Scalar.isNaN a = false ↔ a ≠ nan := by
  rw [← Bool.not_eq_true, isNaN_iff]

theorem Kernel.beq_iff {k k' : Kernel Exact} :
    (k == k') = true ↔ k = k' ∧ ∀ p ∈ k.parameters, Scalar.isNaN p = false := by
  have hlist (as bs : List Exact) :
      (as == bs) = true ↔ as = bs ∧ ∀ p ∈ as, Scalar.isNaN p = false := by
    induction as generalizing bs with
    | nil => cases bs <;> simp
    | cons a as ih =>
      cases bs with
      | nil => simp
      | cons b bs =>
        rw [List.cons_beq_cons, Bool.and_eq_true, ih, Exact.beq_iff]
        simp only [List.cons.injEq, List.forall_mem_cons, Exact.isNaN_eq_false_iff]
        tauto
  have hk : (k == k') = true ↔ k.kind = k'.kind ∧ (k.parameters == k'.parameters) = true := by
    simp [BEq.beq]
  rw [hk, hlist]
  cases k <;> cases k' <;> simp [Kernel.kind, Kernel.parameters]

theorem Kernel.same_iff {k k' : Kernel Exact} : k.same k' = true ↔ k = k' := by
  cases k <;> cases k' <;>
    simp [Kernel.same, Kernel.kind, Kernel.parameters, Exact.same_iff]

theorem Interval.beq_iff {i j : Interval Exact} :
    (i == j) = true ↔ i = j ∧ Scalar.isNaN i.low = false ∧ Scalar.isNaN i.high = false := by
  rw [Interval.beq_iff_bounds]
  obtain ⟨a, b, c, d⟩ := i
  obtain ⟨a', b', c', d'⟩ := j
  simp only [Exact.beq_iff, Exact.isNaN_eq_false_iff, Interval.mk.injEq]
  tauto

theorem Interval.same_iff {i j : Interval Exact} : i.same j = true ↔ i = j := by
  obtain ⟨a, b, c, d⟩ := i
  obtain ⟨a', b', c', d'⟩ := j
  simp [Interval.same, Exact.same_iff, and_assoc]

namespace Fn

/-- Two lists with equal items place by place have equal images, and the other way round. -/
theorem forall₂_map_eq_iff {β γ : Type} {u : β → γ} {P : β → Prop} {Q : β → β → Prop}
    {xs ys : List β} (h : ∀ x ∈ xs, ∀ y, Q x y ↔ u x = u y ∧ P x) :
    List.Forall₂ Q xs ys ↔ xs.map u = ys.map u ∧ ∀ x ∈ xs, P x := by
  induction xs generalizing ys with
  | nil => cases ys <;> simp
  | cons x xs ih =>
    cases ys with
    | nil => simp
    | cons y ys =>
      rw [List.forall₂_cons, h x (by simp), ih fun z hz => h z (by simp [hz])]
      simp only [List.map_cons, List.cons.injEq, List.forall_mem_cons]
      tauto

theorem beq_of_value [Scalar α] {f g : Fn α} {v : α} (h : f.value? = some v) :
    (f == g) = g.value?.any (v == ·) := by
  cases f <;> simp only [value?, Option.some.injEq, reduceCtorEq] at h <;> subst h <;> rfl

theorem forget_eq_const_iff [Scalar α] {f : Fn α} {v : α} :
    f.forget = const v ↔ f.value? = some v := by
  cases f <;> simp [value?]

theorem constant_beq_iff {f g : Fn Exact} {v : Exact} (h : f.value? = some v) :
    (f == g) = true ↔ f.forget = g.forget ∧ f.HasNoNaN := by
  have hn : f.HasNoNaN ↔ v ≠ .nan := by
    cases f <;> simp only [value?, Option.some.injEq, reduceCtorEq] at h <;> subst h <;>
      simp [HasNoNaN, Exact.isNaN_eq_false_iff, Exact.zero_eq, Exact.one_eq]
  rw [beq_of_value h, forget_eq_const_iff.2 h, @eq_comm _ (const v), forget_eq_const_iff, hn]
  cases g.value? with
  | none => simp
  | some w =>
    simp only [Option.any_some, Exact.beq_iff, Option.some.injEq]
    exact and_congr_left fun _ => eq_comm

/-- Equality of functions over exact numbers. -/
theorem beq_iff {f g : Fn Exact} : (f == g) = true ↔ f.forget = g.forget ∧ f.HasNoNaN := by
  induction f generalizing g with
  | zero => exact constant_beq_iff rfl
  | one => exact constant_beq_iff rfl
  | const v => exact constant_beq_iff rfl
  | undefined => cases g <;> simp [BEq.beq, equal, HasNoNaN]
  | plain k s =>
    cases g with
    | unary k' s' inner' =>
      rw [unary_beq_unary]
      cases inner' <;>
        simp [equalInner, Kernel.beq_iff, Exact.beq_iff, HasNoNaN, Exact.isNaN_eq_false_iff]
      tauto
    | _ => simp [BEq.beq, equal]
  | chain k s f ih =>
    cases g with
    | unary k' s' inner' =>
      rw [unary_beq_unary]
      cases inner' with
      | none => simp [equalInner]
      | some g =>
        simp only [equalInner, Bool.and_eq_true, Kernel.beq_iff, Exact.beq_iff, ih, HasNoNaN,
          numbers_unary, forget_unary, Option.map_some, unary.injEq, Option.some.injEq,
          Option.mem_def, forall_eq', Exact.isNaN_eq_false_iff]
        tauto
    | _ => simp [BEq.beq, equal]
  | sum ts ih =>
    cases g with
    | sum us =>
      rw [sum_beq_sum, forall₂_map_eq_iff fun t ht v => ih t ht]
      simp [HasNoNaN]
    | _ => simp [BEq.beq, equal]
  | product fs ih =>
    cases g with
    | product gs =>
      rw [product_beq_product, forall₂_map_eq_iff fun t ht v => ih t ht]
      simp [HasNoNaN]
    | _ => simp [BEq.beq, equal]
  | quotient n d ihn ihd =>
    cases g with
    | quotient n' d' =>
      rw [quotient_beq_quotient, ihn, ihd]
      simp only [HasNoNaN, numbers_quotient, forget_quotient, quotient.injEq]
      tauto
    | _ => simp [BEq.beq, equal]
  | piecewise segments ih =>
    cases g with
    | piecewise ts =>
      rw [piecewise_beq_piecewise,
        forall₂_map_eq_iff (u := fun s => s.map forget) (P := fun s =>
          (Scalar.isNaN s.range.low = false ∧ Scalar.isNaN s.range.high = false) ∧
            s.payload.HasNoNaN) fun s hs t => ?_]
      · simp [HasNoNaN]
      · rw [ih s hs, Interval.beq_iff]
        simp only [Segment.map, Segment.mk.injEq]
        tauto
    | _ => simp [BEq.beq, equal]

/-- Indistinguishable functions over exact numbers are the same tree. -/
theorem same_iff {f g : Fn Exact} : f.same g = true ↔ f = g := by
  induction f generalizing g with
  | zero | one | undefined => cases g <;> simp [same]
  | const v => cases g <;> simp [same, Exact.same_iff]
  | plain k s =>
    cases g with
    | unary k' s' inner' =>
      cases inner' <;> simp [same, Exact.same_iff, Kernel.same_iff, and_comm]
    | _ => simp [same]
  | chain k s f ih =>
    cases g with
    | unary k' s' inner' =>
      cases inner' with
      | none => simp [same]
      | some g =>
        simp only [same, Bool.and_eq_true, Exact.same_iff, Kernel.same_iff, ih, unary.injEq,
          Option.some.injEq]
        tauto
    | _ => simp [same]
  | sum ts ih =>
    cases g with
    | sum us =>
      rw [same, sameAll_iff_forall₂, forall₂_map_eq_iff (u := id) (P := fun _ => True)
        fun t ht v => by simp [ih t ht]]
      simp
    | _ => simp [same]
  | product fs ih =>
    cases g with
    | product gs =>
      rw [same, sameAll_iff_forall₂, forall₂_map_eq_iff (u := id) (P := fun _ => True)
        fun t ht v => by simp [ih t ht]]
      simp
    | _ => simp [same]
  | quotient n d ihn ihd => cases g <;> simp [same, ihn, ihd]
  | piecewise segments ih =>
    cases g with
    | piecewise ts =>
      rw [same, sameSegments_iff_forall₂, forall₂_map_eq_iff (u := id) (P := fun _ => True)
        fun s hs t => ?_]
      · simp
      · rw [ih s hs, Interval.same_iff]
        obtain ⟨i, f⟩ := s
        obtain ⟨j, g⟩ := t
        simp
    | _ => simp [same]

/-- Children that count as the same differ only in their canonical leaves. -/
theorem map_forget_of_sameChildren {fs gs : List (Fn Exact)} (h : sameChildren fs gs = true) :
    fs.map forget = gs.map forget := by
  rw [sameChildren_iff_forall₂] at h
  induction h with
  | nil => rfl
  | cons hfg _ ih =>
    have : _ = _ := hfg.elim (fun h => congrArg forget (same_iff.1 h)) fun h => (beq_iff.1 h).1
    simp [this, ih]

end Fn

end FunctionAlgebra
