import FunctionAlgebra.Fn.Evaluate
import FunctionAlgebra.Proofs.Exact
import FunctionAlgebra.Proofs.Induction

/-!
# Real values of functions

Over exact numbers a function has a real value at a point if all parts that are visited there have
one. The value itself is a total function of the tree, and where the function is not defined it
means nothing.

## Main definitions

* `visited?` — the index of the segment whose payload is evaluated.
* `Fn.DefinedAt` — all parts that are visited at a point have real values.
* `Fn.value` — the real value.
* `Fn.Gives` — a function is defined at a point and has a given value there.

## Main statements

* `Fn.evaluate_eq_value` — where a function is defined, evaluation gives its real value.
-/

namespace FunctionAlgebra

open Exact (real)

noncomputable section

/-! ## Standard functions -/

namespace Kernel

def value (k : Kernel Exact) (y : ℝ) : ℝ :=
  match k with
  | power p => y ^ p.toReal
  | sine omega shift => Real.sin (omega.toReal * y + shift.toReal)
  | arcSine shift => Real.arcsin y + shift.toReal
  | arcTangent shift => Real.arctan y + shift.toReal
  | exponential => Real.exp y
  | logarithm => Real.log y

/-- A standard function with real parameters has a real value: no negative power of zero, no
non-integer power of a negative number, no argument outside the domain. -/
def DefinedAt (k : Kernel Exact) (y : ℝ) : Prop :=
  match k with
  | power p => p.IsReal ∧ (y = 0 → 0 ≤ p.toReal) ∧ (y < 0 → ∃ n : ℤ, p.toReal = n)
  | sine omega shift => omega.IsReal ∧ shift.IsReal
  | arcSine shift => shift.IsReal ∧ -1 ≤ y ∧ y ≤ 1
  | arcTangent shift => shift.IsReal
  | exponential => True
  | logarithm => 0 < y

theorem apply_power {p s : Exact} {y : ℝ} (h : (power p).DefinedAt y) (hs : s.IsReal) :
    (power p).apply s (real y) = real (s.toReal * y ^ p.toReal) := by
  obtain ⟨hp, hzero, hneg⟩ := h
  rw [hp.eq_real, hs.eq_real] at *
  simp only [Exact.toReal_real] at *
  generalize p.toReal = p at *
  generalize s.toReal = s
  simp only [apply, Exact.zero_eq, Exact.one_eq, Exact.real_beq, decide_eq_true_eq]
  split_ifs with h0 h1
  · simp [h0]
  · simp [h1]
  · have hpow : Scalar.pow (real y) (real p) = real (y ^ p) := by
      simp only [Scalar.pow, Exact.pow]
      rw [if_neg fun h => absurd (hzero h.1) (not_le.2 h.2), if_neg fun h => h.2 (hneg h.1)]
    rw [hpow, Exact.real_mul]

theorem apply_eq_value {k : Kernel Exact} {s : Exact} {y : ℝ} (h : k.DefinedAt y)
    (hs : s.IsReal) : k.apply s (real y) = real (s.toReal * k.value y) := by
  cases k with
  | power p => exact apply_power h hs
  | sine omega shift =>
    obtain ⟨ho, hf⟩ := h
    rw [ho.eq_real, hf.eq_real, hs.eq_real]
    rfl
  | arcSine shift =>
    obtain ⟨hf, hy⟩ := h
    rw [hf.eq_real, hs.eq_real]
    have : Scalar.asin (real y) = real (Real.arcsin y) := if_pos hy
    simp [apply, this, value]
  | arcTangent shift =>
    rw [Exact.IsReal.eq_real h, hs.eq_real]
    rfl
  | exponential =>
    rw [hs.eq_real]
    rfl
  | logarithm =>
    rw [hs.eq_real]
    have : Scalar.log (real y) = real (Real.log y) := if_pos h
    simp [apply, this, value]

end Kernel

/-! ## Functions -/

def visited? {α β : Type} [Scalar α] (segments : List (Segment α β)) (x : α) : Option Nat :=
  match hull? segments with
  | none => none
  | some domain =>
    if Scalar.lt x domain.low || Scalar.lt domain.high x then none
    else locate? (segments.map (·.range)).toArray x

/-- The segment that is visited does not depend on payloads. -/
theorem visited?_congr {α β γ : Type} [Scalar α] {ss : List (Segment α β)} {ts : List (Segment α γ)}
    (h : ss.map (·.range) = ts.map (·.range)) (x : α) : visited? ss x = visited? ts x := by
  have hull?_eq {δ : Type} (us : List (Segment α δ)) :
      hull? us = (us.map (·.range)).head?.bind fun first =>
        (us.map (·.range)).getLast?.map fun last => .closed first.low last.high := by
    rw [hull?, List.head?_map, List.getLast?_map]
    cases us.head? <;> cases us.getLast? <;> rfl
  rw [visited?, visited?, hull?_eq ss, hull?_eq ts, h]

namespace Fn

mutual

def value (x : ℝ) : Fn Exact → ℝ
  | zero => 0
  | one => 1
  | const v => v.toReal
  | undefined => 0
  | unary k s none => s.toReal * k.value x
  | unary k s (some f) => s.toReal * k.value (f.value x)
  | sum ts => sumValue x ts
  | product fs => productValue x fs
  | quotient n d => n.value x / d.value x
  | piecewise segments => payloadValue x (visited? segments (real x)) segments

def sumValue (x : ℝ) : List (Fn Exact) → ℝ
  | [] => 0
  | t :: ts => t.value x + sumValue x ts

def productValue (x : ℝ) : List (Fn Exact) → ℝ
  | [] => 1
  | f :: fs => f.value x * productValue x fs

def payloadValue (x : ℝ) : Option Nat → List (Segment Exact (Fn Exact)) → ℝ
  | some 0, ⟨_, f⟩ :: _ => f.value x
  | some (i + 1), _ :: rest => payloadValue x (some i) rest
  | _, _ => 0

end

mutual

/-- A function has a real value at a point, and so has each of its parts that is visited there: all
numbers are real, arguments lie in the domains of standard functions, and denominators are not
zero. The inner function of a standard function with scale zero is not visited. A product has
factors. -/
def DefinedAt (x : ℝ) : Fn Exact → Prop
  | zero | one => True
  | const v => v.IsReal
  | undefined => False
  | unary k s none => s = 0 ∨ s.IsReal ∧ k.DefinedAt x
  | unary k s (some f) => s = 0 ∨ s.IsReal ∧ f.DefinedAt x ∧ k.DefinedAt (f.value x)
  | sum ts => AllDefinedAt x ts
  | product fs => fs ≠ [] ∧ AllDefinedAt x fs
  | quotient n d => n.DefinedAt x ∧ d.DefinedAt x ∧ d.value x ≠ 0
  | piecewise segments => PayloadDefinedAt x (visited? segments (real x)) segments

def AllDefinedAt (x : ℝ) : List (Fn Exact) → Prop
  | [] => True
  | f :: fs => f.DefinedAt x ∧ AllDefinedAt x fs

def PayloadDefinedAt (x : ℝ) : Option Nat → List (Segment Exact (Fn Exact)) → Prop
  | some 0, ⟨_, f⟩ :: _ => f.DefinedAt x
  | some (i + 1), _ :: rest => PayloadDefinedAt x (some i) rest
  | _, _ => False

end

variable {x : ℝ}

theorem sumValue_eq (ts : List (Fn Exact)) : sumValue x ts = (ts.map (value x)).sum := by
  induction ts with
  | nil => rfl
  | cons t ts ih => simp [sumValue, ih]

theorem productValue_eq (fs : List (Fn Exact)) :
    productValue x fs = (fs.map (value x)).prod := by
  induction fs with
  | nil => rfl
  | cons f fs ih => simp [productValue, ih]

theorem payloadValue_eq (i : Nat) (segments : List (Segment Exact (Fn Exact))) :
    payloadValue x (some i) segments = (segments[i]?.map fun s => s.payload.value x).getD 0 := by
  induction segments generalizing i with
  | nil => simp [payloadValue]
  | cons s rest ih => cases i <;> simp [payloadValue, ih]

theorem allDefinedAt_iff (fs : List (Fn Exact)) :
    AllDefinedAt x fs ↔ ∀ f ∈ fs, f.DefinedAt x := by
  induction fs with
  | nil => simp [AllDefinedAt]
  | cons f fs ih => simp [AllDefinedAt, ih]

theorem payloadDefinedAt_iff (i : Nat) (segments : List (Segment Exact (Fn Exact))) :
    PayloadDefinedAt x (some i) segments ↔ ∃ s, segments[i]? = some s ∧ s.payload.DefinedAt x := by
  induction segments generalizing i with
  | nil => simp [PayloadDefinedAt]
  | cons s rest ih => cases i <;> simp [PayloadDefinedAt, ih]

@[simp] theorem value_zero : (zero : Fn Exact).value x = 0 := rfl

@[simp] theorem value_one : (one : Fn Exact).value x = 1 := rfl

@[simp] theorem value_const (v : Exact) : (const v).value x = v.toReal := rfl

@[simp] theorem value_sum (ts : List (Fn Exact)) :
    (sum ts).value x = (ts.map (value x)).sum := sumValue_eq ts

@[simp] theorem value_product (fs : List (Fn Exact)) :
    (product fs).value x = (fs.map (value x)).prod := productValue_eq fs

@[simp] theorem value_quotient (n d : Fn Exact) :
    (quotient n d).value x = n.value x / d.value x := rfl

def innerValue (x : ℝ) (inner : Option (Fn Exact)) : ℝ := (inner.map (value x)).getD x

def InnerDefinedAt (x : ℝ) (inner : Option (Fn Exact)) : Prop := ∀ f ∈ inner, f.DefinedAt x

theorem value_unary (k : Kernel Exact) (s : Exact) (inner : Option (Fn Exact)) :
    (unary k s inner).value x = s.toReal * k.value (innerValue x inner) := by
  cases inner <;> rfl

theorem definedAt_unary (k : Kernel Exact) (s : Exact) (inner : Option (Fn Exact)) :
    (unary k s inner).DefinedAt x ↔
      s = 0 ∨ s.IsReal ∧ InnerDefinedAt x inner ∧ k.DefinedAt (innerValue x inner) := by
  cases inner <;> simp [DefinedAt, InnerDefinedAt, innerValue]

@[simp] theorem definedAt_zero : (zero : Fn Exact).DefinedAt x := trivial

@[simp] theorem definedAt_one : (one : Fn Exact).DefinedAt x := trivial

@[simp] theorem definedAt_const (v : Exact) : (const v).DefinedAt x ↔ v.IsReal := Iff.rfl

@[simp] theorem not_definedAt_undefined : ¬ (undefined : Fn Exact).DefinedAt x := id

@[simp] theorem definedAt_sum (ts : List (Fn Exact)) :
    (sum ts).DefinedAt x ↔ ∀ t ∈ ts, t.DefinedAt x := allDefinedAt_iff ts

@[simp] theorem definedAt_product (fs : List (Fn Exact)) :
    (product fs).DefinedAt x ↔ fs ≠ [] ∧ ∀ f ∈ fs, f.DefinedAt x :=
  and_congr_right fun _ => allDefinedAt_iff fs

@[simp] theorem definedAt_quotient (n d : Fn Exact) :
    (quotient n d).DefinedAt x ↔ n.DefinedAt x ∧ d.DefinedAt x ∧ d.value x ≠ 0 := Iff.rfl

theorem definedAt_piecewise (segments : List (Segment Exact (Fn Exact))) :
    (piecewise segments).DefinedAt x ↔
      ∃ i s, visited? segments (real x) = some i ∧ segments[i]? = some s ∧
        s.payload.DefinedAt x := by
  rw [DefinedAt]
  cases visited? segments (real x) with
  | none => simp [PayloadDefinedAt]
  | some i => simp [payloadDefinedAt_iff]

theorem value_piecewise {segments : List (Segment Exact (Fn Exact))} {i : Nat}
    {s : Segment Exact (Fn Exact)} (hi : visited? segments (real x) = some i)
    (hs : segments[i]? = some s) : (piecewise segments).value x = s.payload.value x := by
  simp [value, hi, payloadValue_eq, hs]

structure Gives (x : ℝ) (f : Fn Exact) (r : ℝ) : Prop where
  defined : f.DefinedAt x
  value_eq : f.value x = r

theorem DefinedAt.gives {f : Fn Exact} (h : f.DefinedAt x) : f.Gives x (f.value x) := ⟨h, rfl⟩

theorem Gives.add {f g : Fn Exact} {r s : ℝ} (hf : f.Gives x r) (hg : g.Gives x s) :
    (sum [f, g]).Gives x (r + s) :=
  ⟨by simpa using ⟨hf.defined, hg.defined⟩, by simp [hf.value_eq, hg.value_eq]⟩

theorem Gives.mul {f g : Fn Exact} {r s : ℝ} (hf : f.Gives x r) (hg : g.Gives x s) :
    (product [f, g]).Gives x (r * s) :=
  ⟨by simpa using ⟨hf.defined, hg.defined⟩, by simp [hf.value_eq, hg.value_eq]⟩

theorem Gives.div {f g : Fn Exact} {r s : ℝ} (hf : f.Gives x r) (hg : g.Gives x s) (hs : s ≠ 0) :
    (quotient f g).Gives x (r / s) :=
  ⟨(definedAt_quotient ..).2 ⟨hf.defined, hg.defined, hg.value_eq ▸ hs⟩,
    by rw [value_quotient, hf.value_eq, hg.value_eq]⟩

theorem sum_gives {ts : List (Fn Exact)} {rs : List ℝ}
    (h : List.Forall₂ (fun r t => t.Gives x r) rs ts) : (sum ts).Gives x rs.sum := by
  induction h with
  | nil => exact ⟨by simp, by simp⟩
  | cons ht _ ih =>
    refine ⟨?_, ?_⟩
    · rw [definedAt_sum, List.forall_mem_cons]
      exact ⟨ht.defined, (definedAt_sum _).1 ih.defined⟩
    · rw [value_sum, List.map_cons, List.sum_cons, List.sum_cons, ht.value_eq, ← value_sum,
        ih.value_eq]

theorem piecewise_gives {segments : List (Segment Exact (Fn Exact))} {i : Nat}
    {s : Segment Exact (Fn Exact)} {r : ℝ} (hi : visited? segments (real x) = some i)
    (hs : segments[i]? = some s) (h : s.payload.Gives x r) : (piecewise segments).Gives x r :=
  ⟨(definedAt_piecewise segments).2 ⟨i, s, hi, hs, h.defined⟩,
    (value_piecewise hi hs).trans h.value_eq⟩

/-! ## Evaluation -/

theorem sumAt_eq (total : ℝ) {ts : List (Fn Exact)}
    (h : ∀ t ∈ ts, t.evaluate (real x) = .ok (real (t.value x))) :
    sumAt (real x) (real total) ts = .ok (real (total + (ts.map (value x)).sum)) := by
  induction ts generalizing total with
  | nil => simp [sumAt]
  | cons t ts ih =>
    have ht := h t (by simp)
    have hts := ih (total + t.value x) fun u hu => h u (by simp [hu])
    simp [sumAt, ht, bind, Except.bind, hts, add_assoc]

theorem productAt_eq (total : ℝ) {fs : List (Fn Exact)}
    (h : ∀ f ∈ fs, f.evaluate (real x) = .ok (real (f.value x))) :
    productAt (real x) (real total) fs = .ok (real (total * (fs.map (value x)).prod)) := by
  induction fs generalizing total with
  | nil => simp [productAt]
  | cons f fs ih =>
    have hf := h f (by simp)
    have hfs := ih (total * f.value x) fun g hg => h g (by simp [hg])
    simp [productAt, hf, bind, Except.bind, hfs, mul_assoc]

theorem payloadAt_eq {α : Type} [Scalar α] {x : α} {i : Nat} {segments : List (Segment α (Fn α))}
    {s : Segment α (Fn α)} (hs : segments[i]? = some s) :
    payloadAt x i segments = s.payload.evaluate x := by
  induction segments generalizing i with
  | nil => simp at hs
  | cons t rest ih =>
    cases i with
    | zero => simp_all [payloadAt]
    | succ i => simpa [payloadAt] using ih (by simpa using hs)

theorem evaluate_piecewise {α : Type} [Scalar α] {x : α} {segments : List (Segment α (Fn α))}
    {i : Nat} {s : Segment α (Fn α)} (hx : Scalar.isNaN x = false)
    (hi : visited? segments x = some i) (hs : segments[i]? = some s) :
    (piecewise segments).evaluate x = s.payload.evaluate x := by
  rw [visited?] at hi
  rw [evaluate, if_neg (by simp [hx])]
  cases hd : hull? segments with
  | none => simp [hd] at hi
  | some domain =>
    simp only [hd] at hi ⊢
    split_ifs at hi with hdomain
    simp only [hdomain, Bool.false_eq_true, if_false, hi]
    exact payloadAt_eq hs

/-- Where a function is defined, evaluation gives its real value. -/
theorem evaluate_eq_value {f : Fn Exact} (h : f.DefinedAt x) :
    f.evaluate (real x) = .ok (real (f.value x)) := by
  induction f with
  | zero => rfl
  | one => rfl
  | const v =>
    rw [definedAt_const] at h
    rw [evaluate, value_const, ← h.eq_real]
  | undefined => exact (not_definedAt_undefined h).elim
  | plain k s =>
    rcases (definedAt_unary ..).1 h with rfl | ⟨hs, -, hk⟩
    · simp [evaluate, value, Exact.zero_eq]
    · rw [evaluate]
      split_ifs with h0
      · obtain rfl := Exact.beq_zero_iff.1 h0
        simp [value, Exact.zero_eq]
      · exact congrArg _ (Kernel.apply_eq_value hk hs)
  | chain k s f ih =>
    rcases (definedAt_unary ..).1 h with rfl | ⟨hs, hf, hk⟩
    · simp [evaluate, value, Exact.zero_eq]
    · rw [evaluate]
      split_ifs with h0
      · obtain rfl := Exact.beq_zero_iff.1 h0
        simp [value, Exact.zero_eq]
      · rw [ih (hf f rfl)]
        exact congrArg _ (Kernel.apply_eq_value hk hs)
  | sum ts ih =>
    rw [definedAt_sum] at h
    have := sumAt_eq 0 fun t ht => ih t ht (h t ht)
    rw [evaluate, Exact.zero_eq, this]
    simp
  | product fs ih =>
    rw [definedAt_product] at h
    have := productAt_eq 1 fun f hf => ih f hf (h.2 f hf)
    rw [evaluate, Exact.one_eq, this]
    simp
  | quotient n d ihn ihd =>
    obtain ⟨hn, hd, h0⟩ := (definedAt_quotient n d).1 h
    rw [evaluate, ihn hn, ihd hd]
    exact congrArg _ (Exact.real_div _ h0)
  | piecewise segments ih =>
    obtain ⟨i, s, hi, hs, hd⟩ := (definedAt_piecewise segments).1 h
    rw [evaluate_piecewise (Exact.isNaN_real x) hi hs, value_piecewise hi hs]
    exact ih s (List.mem_of_getElem? hs) hd

theorem Gives.evaluate {f : Fn Exact} {r : ℝ} (h : f.Gives x r) :
    f.evaluate (real x) = .ok (real r) := by
  rw [evaluate_eq_value h.defined, h.value_eq]

end Fn

end

end FunctionAlgebra
