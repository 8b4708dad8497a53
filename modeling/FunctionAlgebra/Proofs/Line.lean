import FunctionAlgebra.Proofs.DoubleOrder

/-!
# Numbers as points of the line

Statements about intervals are statements about points of the extended real line, also where the
bounds of the intervals are doubles: there are points between any two doubles.

## Main definitions

* `LineScalar` — numbers other than NaN are points of the extended real line, and compared as such.
* `Double.value` — the number that a double stands for.

## Main statements

* Exact numbers and doubles are points of the line.
-/

namespace FunctionAlgebra

/-- Numbers that stand for points of the extended real line. What a NaN is sent to does not
matter. -/
class LineScalar (α : Type) [Scalar α] extends LawfulScalar α where
  toEReal : α → EReal
  lt_iff {a b : α} : Scalar.lt a b = true ↔
    Scalar.isNaN a = false ∧ Scalar.isNaN b = false ∧ toEReal a < toEReal b
  beq_iff_toEReal {a b : α} : (a == b) = true ↔
    Scalar.isNaN a = false ∧ Scalar.isNaN b = false ∧ toEReal a = toEReal b
  isFinite_iff {a : α} : Scalar.isFinite a = true ↔
    Scalar.isNaN a = false ∧ toEReal a ≠ ⊥ ∧ toEReal a ≠ ⊤

namespace LineScalar

variable {α : Type} [Scalar α] [LineScalar α] {a b : α}

theorem lt_eq (ha : Scalar.isNaN a = false) (hb : Scalar.isNaN b = false) :
    Scalar.lt a b = decide (toEReal a < toEReal b) := by
  rw [Bool.eq_iff_iff, lt_iff, decide_eq_true_iff]
  simp [ha, hb]

theorem beq_eq (ha : Scalar.isNaN a = false) (hb : Scalar.isNaN b = false) :
    (a == b) = decide (toEReal a = toEReal b) := by
  rw [Bool.eq_iff_iff, beq_iff_toEReal, decide_eq_true_iff]
  simp [ha, hb]

end LineScalar

/-! ## Exact numbers -/

namespace Exact

noncomputable def toEReal : Exact → EReal
  | real r => r
  | posInf => ⊤
  | negInf => ⊥
  | nan => 0

noncomputable instance : LineScalar Exact where
  toEReal := toEReal
  lt_iff {a b} := by
    cases a <;> cases b <;> simp [Scalar.lt, Exact.lt, toEReal, Scalar.isNaN, BEq.beq, Exact.beq]
  beq_iff_toEReal {a b} := by
    cases a <;> cases b <;> simp [toEReal, Scalar.isNaN, BEq.beq, Exact.beq]
  isFinite_iff {a} := by
    cases a <;> simp [toEReal, Scalar.isFinite, Scalar.isNaN, BEq.beq, Exact.beq]

end Exact

/-! ## Doubles -/

namespace Double

open Float.Model

noncomputable def sizeOf (m : ℕ) (e : ℤ) : ℝ := m * ((2 : ℕ) : ℝ) ^ e

theorem sizeOf_pos {m : ℕ} (e : ℤ) (hm : 0 < m) : 0 < sizeOf m e := by
  unfold sizeOf
  positivity

noncomputable def value : UnpackedFloat → EReal
  | .infinity .positive => ⊤
  | .infinity .negative => ⊥
  | .notANumber => 0
  | .zero _ => 0
  | .finite .positive m e _ => sizeOf m e
  | .finite .negative m e _ => ((-sizeOf m e : ℝ) : EReal)

/-- The mantissa of a finite number has 53 bits, and less than that only for the least exponent. -/
def IsCanonical : UnpackedFloat → Prop
  | .finite _ m e _ => m < 2 ^ 53 ∧ -1074 ≤ e ∧ (-1074 < e → 2 ^ 52 ≤ m)
  | _ => True

theorem isCanonical_unpack (x : Float) : IsCanonical x.toModel.unpack := by
  have hbias : ((Format.binary64.exponentBias : ℕ) : ℤ) = 1023 := rfl
  have hmantissa : (@UnpackedFloat.unpackMantissa Format.binary64
      x.toModel.toBits.toBitVec).toNat < 2 ^ 52 := (UnpackedFloat.unpackMantissa _).isLt
  rw [Float.Model.unpack, UnpackedFloat.unpack]
  dsimp only
  split
  · split <;> trivial
  split
  · rename_i hzero
    split
    · trivial
    rw [IsCanonical, hzero, hbias]
    refine ⟨by omega, by simp, by simp⟩
  · rename_i hexponent
    rw [IsCanonical, BitVec.toNat_append, ← Nat.shiftLeft_add_eq_or_of_lt (BitVec.isLt _), hbias]
    simp only [BitVec.toNat_eq, BitVec.toNat_ofNat] at hexponent
    refine ⟨?_, ?_, fun _ => ?_⟩
    · simpa [Nat.shiftLeft_eq] using by omega
    · simpa using by omega
    · simp [Nat.shiftLeft_eq]

/-- Canonical numbers are ordered by exponent first and then by mantissa. -/
theorem sizeOf_lt_sizeOf {m n : ℕ} {e g : ℤ} (hm : m < 2 ^ 53) (he : -1074 ≤ e)
    (hn : -1074 < g → 2 ^ 52 ≤ n) (h : e < g ∨ e = g ∧ m < n) :
    sizeOf m e < sizeOf n g := by
  unfold sizeOf
  obtain heg | ⟨rfl, hmn⟩ := h
  · have hn52 : (2 ^ 52 : ℝ) ≤ n := mod_cast hn (he.trans_lt heg)
    have hm53 : (m : ℝ) < 2 ^ 53 := mod_cast hm
    calc (m * 2 ^ e : ℝ) < 2 ^ 53 * 2 ^ e := by gcongr
      _ = 2 ^ 52 * 2 ^ (e + 1) := by rw [zpow_add₀ two_ne_zero]; ring
      _ ≤ 2 ^ 52 * 2 ^ g := by gcongr; exacts [one_le_two, heg]
      _ ≤ n * 2 ^ g := by gcongr
  · gcongr

/-- The values of canonical numbers are in the order of their places. -/
theorem value_lt_value {a b : UnpackedFloat} (ha : IsCanonical a) (hb : IsCanonical b)
    (hna : a.isNaN = false) (hnb : b.isNaN = false) (h : place a < place b) :
    value a < value b := by
  rcases a with (_ | _) | _ | _ | ⟨_ | _, m, e, hm⟩ <;>
    rcases b with (_ | _) | _ | _ | ⟨_ | _, n, g, hn⟩ <;>
    simp [place, Prod.Lex.toLex_lt_toLex] at h <;> try contradiction
  case finite.negative.finite.negative =>
    have := sizeOf_lt_sizeOf hb.1 hb.2.1 ha.2.2 (h.imp_right fun h => ⟨h.1.symm, h.2⟩)
    simpa [value] using this
  case finite.positive.finite.positive =>
    simpa [value] using sizeOf_lt_sizeOf ha.1 ha.2.1 hb.2.2 h
  case finite.negative.finite.positive =>
    have := (neg_neg_of_pos (sizeOf_pos e hm)).trans (sizeOf_pos g hn)
    simpa [value, -EReal.coe_neg] using this
  case finite.negative.zero => simpa [value] using sizeOf_pos e hm
  case zero.finite.positive => simpa [value] using sizeOf_pos g hn
  all_goals simp [value, -EReal.coe_neg]

theorem value_eq_of_place_eq {a b : UnpackedFloat} (hna : a.isNaN = false) (hnb : b.isNaN = false)
    (h : place a = place b) : value a = value b := by
  rcases a with (_ | _) | _ | _ | ⟨_ | _, m, e, hm⟩ <;>
    rcases b with (_ | _) | _ | _ | ⟨_ | _, n, g, hn⟩ <;>
    simp_all [place, value, UnpackedFloat.isNaN]

noncomputable instance : LineScalar Float where
  toEReal x := value x.toModel.unpack
  lt_iff {a b} := by
    rw [isNaN_eq, isNaN_eq, lt_iff]
    refine and_congr_right fun ha => and_congr_right fun hb => ⟨?_, fun h => ?_⟩
    · exact value_lt_value (isCanonical_unpack a) (isCanonical_unpack b) ha hb
    · by_contra hle
      rcases (not_lt.1 hle).lt_or_eq with hlt | heq
      · exact h.asymm (value_lt_value (isCanonical_unpack b) (isCanonical_unpack a) hb ha hlt)
      · exact h.ne (value_eq_of_place_eq hb ha heq).symm
  beq_iff_toEReal {a b} := by
    rw [isNaN_eq, isNaN_eq, beq_iff]
    refine and_congr_right fun ha => and_congr_right fun hb =>
      ⟨value_eq_of_place_eq ha hb, fun h => ?_⟩
    rcases lt_trichotomy (place a.toModel.unpack) (place b.toModel.unpack) with hlt | heq | hgt
    · exact absurd h (value_lt_value (isCanonical_unpack a) (isCanonical_unpack b) ha hb hlt).ne
    · exact heq
    · exact absurd h.symm
        (value_lt_value (isCanonical_unpack b) (isCanonical_unpack a) hb ha hgt).ne
  isFinite_iff {a} := by
    rw [isNaN_eq]
    change a.toModel.unpack.isFinite = true ↔ _
    rcases a.toModel.unpack with (_ | _) | _ | _ | ⟨_ | _, m, e, hm⟩ <;>
      simp [value, UnpackedFloat.isFinite, UnpackedFloat.isNaN, -EReal.coe_neg]

end Double

end FunctionAlgebra
