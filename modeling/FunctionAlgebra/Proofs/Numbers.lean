import FunctionAlgebra.Proofs.Induction

/-!
# The numbers in a function

## Main definitions

* `Fn.Numbers` — all parameters satisfy one condition and all bounds of segments another.
* `Fn.HasFiniteNumbers`, `Fn.HasNoNaN` — the conditions under which statements are made.
-/

namespace FunctionAlgebra

variable {α : Type}

namespace Fn

mutual

/-- All values, scales and parameters of kernels satisfy `P`, all bounds of segments satisfy `B`. -/
def Numbers (P B : α → Prop) : Fn α → Prop
  | zero | one | undefined => True
  | const v => P v
  | unary k s none => P s ∧ ∀ p ∈ k.parameters, P p
  | unary k s (some f) => (P s ∧ ∀ p ∈ k.parameters, P p) ∧ f.Numbers P B
  | sum ts => NumbersAll P B ts
  | product fs => NumbersAll P B fs
  | quotient n d => n.Numbers P B ∧ d.Numbers P B
  | piecewise segments => NumbersSegments P B segments

def NumbersAll (P B : α → Prop) : List (Fn α) → Prop
  | [] => True
  | f :: fs => f.Numbers P B ∧ NumbersAll P B fs

def NumbersSegments (P B : α → Prop) : List (Segment α (Fn α)) → Prop
  | [] => True
  | ⟨range, f⟩ :: rest => (B range.low ∧ B range.high) ∧ f.Numbers P B ∧ NumbersSegments P B rest

end

variable {P B : α → Prop}

theorem numbersAll_iff (fs : List (Fn α)) :
    NumbersAll P B fs ↔ ∀ f ∈ fs, f.Numbers P B := by
  induction fs with
  | nil => simp [NumbersAll]
  | cons f fs ih => simp [NumbersAll, ih]

theorem numbersSegments_iff (segments : List (Segment α (Fn α))) :
    NumbersSegments P B segments ↔
      ∀ s ∈ segments, (B s.range.low ∧ B s.range.high) ∧ s.payload.Numbers P B := by
  induction segments with
  | nil => simp [NumbersSegments]
  | cons s rest ih => simp [NumbersSegments, ih, and_assoc]

@[simp] theorem numbers_zero : (zero : Fn α).Numbers P B := trivial

@[simp] theorem numbers_one : (one : Fn α).Numbers P B := trivial

@[simp] theorem numbers_undefined : (undefined : Fn α).Numbers P B := trivial

@[simp] theorem numbers_const (v : α) : (const v).Numbers P B ↔ P v := Iff.rfl

@[simp] theorem numbers_unary (k : Kernel α) (s : α) (inner : Option (Fn α)) :
    (unary k s inner).Numbers P B ↔
      P s ∧ (∀ p ∈ k.parameters, P p) ∧ ∀ f ∈ inner, f.Numbers P B := by
  cases inner <;> simp [Numbers, and_assoc]

@[simp] theorem numbers_sum (ts : List (Fn α)) :
    (sum ts).Numbers P B ↔ ∀ t ∈ ts, t.Numbers P B := numbersAll_iff ts

@[simp] theorem numbers_product (fs : List (Fn α)) :
    (product fs).Numbers P B ↔ ∀ f ∈ fs, f.Numbers P B := numbersAll_iff fs

@[simp] theorem numbers_quotient (n d : Fn α) :
    (quotient n d).Numbers P B ↔ n.Numbers P B ∧ d.Numbers P B := Iff.rfl

@[simp] theorem numbers_piecewise (segments : List (Segment α (Fn α))) :
    (piecewise segments).Numbers P B ↔
      ∀ s ∈ segments, (B s.range.low ∧ B s.range.high) ∧ s.payload.Numbers P B :=
  numbersSegments_iff segments

theorem Numbers.mono {P' B' : α → Prop} {f : Fn α} (h : f.Numbers P B) (hP : ∀ a, P a → P' a)
    (hB : ∀ a, B a → B' a) : f.Numbers P' B' := by
  induction f with
  | zero | one | undefined => simp
  | const v => simpa using hP v (by simpa using h)
  | plain k s =>
    obtain ⟨hs, hk, -⟩ := (numbers_unary ..).1 h
    simpa using ⟨hP s hs, fun p hp => hP p (hk p hp)⟩
  | chain k s f ih =>
    obtain ⟨hs, hk, hf⟩ := (numbers_unary ..).1 h
    simpa using ⟨hP s hs, fun p hp => hP p (hk p hp), ih (hf f rfl)⟩
  | sum ts ih =>
    rw [numbers_sum] at h ⊢
    exact fun t ht => ih t ht (h t ht)
  | product fs ih =>
    rw [numbers_product] at h ⊢
    exact fun f hf => ih f hf (h f hf)
  | quotient n d ihn ihd =>
    rw [numbers_quotient] at h ⊢
    exact ⟨ihn h.1, ihd h.2⟩
  | piecewise segments ih =>
    rw [numbers_piecewise] at h ⊢
    intro s hs
    obtain ⟨⟨hl, hh⟩, hp⟩ := h s hs
    exact ⟨⟨hB _ hl, hB _ hh⟩, ih s hs hp⟩

variable [Scalar α]

/-- All parameters are finite. Bounds of segments may be infinite, but they are numbers. -/
def HasFiniteNumbers (f : Fn α) : Prop :=
  f.Numbers (fun a => Scalar.isFinite a = true) fun a => Scalar.isNaN a = false

def HasNoNaN (f : Fn α) : Prop :=
  f.Numbers (fun a => Scalar.isNaN a = false) fun a => Scalar.isNaN a = false

end Fn

end FunctionAlgebra
