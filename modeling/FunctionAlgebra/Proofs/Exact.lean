import FunctionAlgebra.Scalar
import Mathlib.Analysis.SpecialFunctions.Pow.Real
import Mathlib.Analysis.SpecialFunctions.Trigonometric.Inverse
import Mathlib.Analysis.SpecialFunctions.Trigonometric.Arctan

/-!
# Exact numbers

Real numbers without rounding, completed by the two infinities and the undefined number in the way
of IEEE arithmetic. There is one zero, which counts as positive.

## Main definitions

* `Exact` — the numbers.
* `Exact.toReal`, `Exact.IsReal` — the real number in an exact number, and whether there is one.
* the instance `Scalar Exact`.
-/

namespace FunctionAlgebra

noncomputable section

/-- A real number, an infinity or an undefined number. -/
inductive Exact where
  | real (r : ℝ)
  | posInf
  | negInf
  | nan

namespace Exact

def toReal : Exact → ℝ
  | real r => r
  | _ => 0

def IsReal : Exact → Prop
  | real _ => True
  | _ => False

def infinityOf (r : ℝ) : Exact := if 0 < r then posInf else if r < 0 then negInf else nan

def add : Exact → Exact → Exact
  | real r, real s => real (r + s)
  | nan, _ | _, nan | posInf, negInf | negInf, posInf => nan
  | posInf, _ | _, posInf => posInf
  | negInf, _ | _, negInf => negInf

def neg : Exact → Exact
  | real r => real (-r)
  | posInf => negInf
  | negInf => posInf
  | nan => nan

def mul : Exact → Exact → Exact
  | real r, real s => real (r * s)
  | nan, _ | _, nan => nan
  | real r, posInf | posInf, real r => infinityOf r
  | real r, negInf | negInf, real r => infinityOf (-r)
  | posInf, posInf | negInf, negInf => posInf
  | posInf, negInf | negInf, posInf => negInf

def div : Exact → Exact → Exact
  | real r, real s => if s = 0 then infinityOf r else real (r / s)
  | real _, posInf | real _, negInf => real 0
  | posInf, real s => if s < 0 then negInf else posInf
  | negInf, real s => if s < 0 then posInf else negInf
  | _, _ => nan

def beq : Exact → Exact → Bool
  | real r, real s => decide (r = s)
  | posInf, posInf | negInf, negInf => true
  | _, _ => false

def lt : Exact → Exact → Bool
  | real r, real s => decide (r < s)
  | negInf, real _ | real _, posInf | negInf, posInf => true
  | _, _ => false

def roundReal (r : ℝ) : ℤ :=
  if r - ⌊r⌋ < 1 / 2 then ⌊r⌋
  else if 1 / 2 < r - ⌊r⌋ then ⌊r⌋ + 1
  else if ⌊r⌋ % 2 = 0 then ⌊r⌋ else ⌊r⌋ + 1

def sin : Exact → Exact
  | real r => real (Real.sin r)
  | _ => nan

def exp : Exact → Exact
  | real r => real (Real.exp r)
  | posInf => posInf
  | negInf => real 0
  | nan => nan

def log : Exact → Exact
  | real r => if 0 < r then real (Real.log r) else if r = 0 then negInf else nan
  | posInf => posInf
  | _ => nan

def asin : Exact → Exact
  | real r => if -1 ≤ r ∧ r ≤ 1 then real (Real.arcsin r) else nan
  | _ => nan

def atan : Exact → Exact
  | real r => real (Real.arctan r)
  | posInf => real (Real.pi / 2)
  | negInf => real (-(Real.pi / 2))
  | nan => nan

def IsOdd (p : ℝ) : Prop := ∃ n : ℤ, p = 2 * n + 1

open Classical in
/-- Powers of real numbers are real but for poles at zero and roots of negative numbers. Exponent
zero and base one give one in all cases. -/
def pow : Exact → Exact → Exact
  | real x, real p =>
    if x = 0 ∧ p < 0 then posInf
    else if x < 0 ∧ ¬ ∃ n : ℤ, p = n then nan
    else real (x ^ p)
  | real x, posInf => if |x| < 1 then real 0 else if |x| = 1 then real 1 else posInf
  | real x, negInf => if |x| < 1 then posInf else if |x| = 1 then real 1 else real 0
  | posInf, real p => if p < 0 then real 0 else if p = 0 then real 1 else posInf
  | negInf, real p =>
    if p < 0 then real 0 else if p = 0 then real 1 else if IsOdd p then negInf else posInf
  | posInf, posInf | negInf, posInf => posInf
  | posInf, negInf | negInf, negInf => real 0
  | nan, real p => if p = 0 then real 1 else nan
  | real x, nan => if x = 1 then real 1 else nan
  | _, _ => nan

open Classical in
/-- Real numbers are all written alike, since they have no finite text. -/
instance : Scalar Exact where
  zero := real 0
  one := real 1
  add := add
  sub a b := add a (neg b)
  mul := mul
  div := div
  neg := neg
  beq := beq
  ofScientific m negative e := real (OfScientific.ofScientific m negative e)
  lt := lt
  same a b := decide (a = b)
  isFinite
    | real _ => true
    | _ => false
  floor a := ⌊a.toReal⌋
  round a := roundReal a.toReal
  ofInt n := real n
  nan := nan
  infinity := posInf
  pi := real Real.pi
  e := real (Real.exp 1)
  sin := sin
  exp := exp
  log := log
  asin := asin
  atan := atan
  pow := pow
  numeral
    | real _ => "real"
    | posInf => "inf"
    | negInf => "-inf"
    | nan => "nan"

@[simp] theorem toReal_real (r : ℝ) : (real r).toReal = r := rfl

@[simp] theorem isReal_real (r : ℝ) : (real r).IsReal := trivial

theorem isReal_iff {a : Exact} : a.IsReal ↔ ∃ r, a = real r := by
  cases a <;> simp [IsReal]

theorem IsReal.eq_real {a : Exact} (h : a.IsReal) : a = real a.toReal := by
  cases a <;> first | rfl | exact h.elim

theorem zero_eq : (0 : Exact) = real 0 := rfl

theorem one_eq : (1 : Exact) = real 1 := rfl

@[simp] theorem real_eq_zero_iff {r : ℝ} : real r = 0 ↔ r = 0 := by simp [zero_eq]

@[simp] theorem real_eq_one_iff {r : ℝ} : real r = 1 ↔ r = 1 := by simp [one_eq]

@[simp] theorem real_beq_zero (r : ℝ) : (real r == 0) = decide (r = 0) := rfl

@[simp] theorem real_beq_one (r : ℝ) : (real r == 1) = decide (r = 1) := rfl

@[simp] theorem toReal_zero : (0 : Exact).toReal = 0 := rfl

@[simp] theorem toReal_one : (1 : Exact).toReal = 1 := rfl

@[simp] theorem isReal_zero : (0 : Exact).IsReal := trivial

@[simp] theorem isReal_one : (1 : Exact).IsReal := trivial

@[simp] theorem real_add (r s : ℝ) : real r + real s = real (r + s) := rfl

@[simp] theorem real_sub (r s : ℝ) : real r - real s = real (r - s) := by
  change real (r + -s) = _
  rw [sub_eq_add_neg]

@[simp] theorem real_mul (r s : ℝ) : real r * real s = real (r * s) := rfl

@[simp] theorem neg_real (r : ℝ) : -real r = real (-r) := rfl

theorem real_div (r : ℝ) {s : ℝ} (h : s ≠ 0) : real r / real s = real (r / s) := by
  change (if s = 0 then _ else _) = _
  rw [if_neg h]

@[simp] theorem real_beq (r s : ℝ) : (real r == real s) = decide (r = s) := rfl

@[simp] theorem lt_real (r s : ℝ) : Scalar.lt (real r) (real s) = decide (r < s) := rfl

@[simp] theorem isFinite_real (r : ℝ) : Scalar.isFinite (real r) = true := rfl

theorem isFinite_iff {a : Exact} : Scalar.isFinite a = true ↔ a.IsReal := by
  cases a <;> simp [Scalar.isFinite, IsReal]

@[simp] theorem isNaN_real (r : ℝ) : Scalar.isNaN (real r) = false := by
  simp [Scalar.isNaN]

theorem isNaN_iff {a : Exact} : Scalar.isNaN a = true ↔ a = nan := by
  cases a <;> simp [Scalar.isNaN, BEq.beq, beq]

theorem same_iff {a b : Exact} : Scalar.same a b = true ↔ a = b := by
  simp [Scalar.same]

/-- Equality of exact numbers is equality, only that the undefined number differs from itself. -/
theorem beq_iff {a b : Exact} : (a == b) = true ↔ a = b ∧ a ≠ nan := by
  cases a <;> cases b <;> simp [BEq.beq, beq]

@[simp] theorem beq_zero_iff {a : Exact} : (a == 0) = true ↔ a = 0 := by
  simp only [beq_iff, and_iff_left_iff_imp]
  rintro rfl
  simp [zero_eq]

@[simp] theorem beq_zero_eq_false_iff {a : Exact} : (a == 0) = false ↔ a ≠ 0 := by
  rw [← Bool.not_eq_true, beq_zero_iff]

@[simp] theorem beq_one_iff {a : Exact} : (a == 1) = true ↔ a = 1 := by
  simp only [beq_iff, and_iff_left_iff_imp]
  rintro rfl
  simp [one_eq]

@[simp] theorem beq_one_eq_false_iff {a : Exact} : (a == 1) = false ↔ a ≠ 1 := by
  rw [← Bool.not_eq_true, beq_one_iff]

theorem IsReal.add {a b : Exact} (ha : a.IsReal) (hb : b.IsReal) : (a + b).IsReal := by
  rw [ha.eq_real, hb.eq_real]
  trivial

theorem IsReal.sub {a b : Exact} (ha : a.IsReal) (hb : b.IsReal) : (a - b).IsReal := by
  rw [ha.eq_real, hb.eq_real]
  trivial

theorem IsReal.mul {a b : Exact} (ha : a.IsReal) (hb : b.IsReal) : (a * b).IsReal := by
  rw [ha.eq_real, hb.eq_real]
  trivial

theorem toReal_add {a b : Exact} (ha : a.IsReal) (hb : b.IsReal) :
    (a + b).toReal = a.toReal + b.toReal := by
  rw [ha.eq_real, hb.eq_real]
  rfl

theorem toReal_sub {a b : Exact} (ha : a.IsReal) (hb : b.IsReal) :
    (a - b).toReal = a.toReal - b.toReal := by
  rw [ha.eq_real, hb.eq_real]
  simp

theorem toReal_mul {a b : Exact} (ha : a.IsReal) (hb : b.IsReal) :
    (a * b).toReal = a.toReal * b.toReal := by
  rw [ha.eq_real, hb.eq_real]
  rfl

theorem IsReal.div {a b : Exact} (ha : a.IsReal) (hb : b.IsReal) (h : b ≠ 0) :
    (a / b).IsReal := by
  rw [ha.eq_real, hb.eq_real] at *
  rw [real_div]
  · trivial
  · simpa [zero_eq] using h

theorem zero_div {a : Exact} (ha : a.IsReal) (h : a ≠ 0) : 0 / a = 0 := by
  rw [ha.eq_real] at h ⊢
  rw [zero_eq, real_div]
  · simp
  · simpa using h

theorem toReal_div {a b : Exact} (ha : a.IsReal) (hb : b.IsReal) (h : b ≠ 0) :
    (a / b).toReal = a.toReal / b.toReal := by
  rw [ha.eq_real, hb.eq_real] at *
  rw [real_div]
  · rfl
  · simpa [zero_eq] using h

/-- A real number is zero if its real value is. -/
theorem IsReal.toReal_eq_zero_iff {a : Exact} (h : a.IsReal) : a.toReal = 0 ↔ a = 0 := by
  rw [h.eq_real]
  simp [zero_eq]

theorem IsReal.mul_eq_zero_iff {a b : Exact} (ha : a.IsReal) (hb : b.IsReal) :
    a * b = 0 ↔ a = 0 ∨ b = 0 := by
  rw [ha.eq_real, hb.eq_real]
  simp

end Exact

end

end FunctionAlgebra
