import FunctionAlgebra.Proofs.Line

/-!
# Rounding to doubles

A number is rounded to a double by shifting its mantissa to the right, while two more bits tell
where the number lies between a mantissa and the next one. What is below the middle between a double
and the next one is not rounded beyond that double.

## Main definitions

* `Represents` — a mantissa and its residual bits tell where a number lies.
* `IsBound` — a double with a mantissa of 53 bits.
* `OnSide` — a finite double lies on one side of zero and within a bound.

## Main statements

* `onSide_roundWithAccuracy` — rounding stays within a bound.
* `unpack_pack` — packing loses nothing of a canonical number within the bounds.
-/

namespace FunctionAlgebra.Double

open Float.Model

open UnpackedFloat (Accuracy ExtendedMantissa Sign roundWithAccuracy shiftToTargetExponent)

/-! ## Mantissas with residual bits -/

/-- The number lies where a mantissa and the two bits behind it say: at the mantissa, before the
middle between it and the next one, in the middle or behind it. -/
inductive Represents : ExtendedMantissa → ℝ → Prop
  | exact (m : ℕ) : Represents ⟨m, false, false⟩ m
  | low {m : ℕ} {t : ℝ} (hlow : m < t) (hhigh : t < m + 1 / 2) : Represents ⟨m, false, true⟩ t
  | middle (m : ℕ) : Represents ⟨m, true, false⟩ (m + 1 / 2)
  | high {m : ℕ} {t : ℝ} (hlow : m + 1 / 2 < t) (hhigh : t < m + 1) : Represents ⟨m, true, true⟩ t

namespace Represents

variable {em : ExtendedMantissa} {t : ℝ}

/-- The accuracy of a quotient is that of its remainder. -/
theorem ofFraction (m : ℕ) {num den : ℕ} (h : num < den) :
    Represents (.ofMantissaAndAccuracy m (UnpackedFloat.accuracyOfFraction num den))
      (m + num / den) := by
  have hden : (0 : ℝ) < den := by exact_mod_cast (Nat.zero_le num).trans_lt h
  unfold UnpackedFloat.accuracyOfFraction
  split_ifs with h0
  · rw [h0, Nat.cast_zero, zero_div, add_zero]
    exact .exact m
  have hnum : (0 : ℝ) < num := by exact_mod_cast Nat.pos_of_ne_zero h0
  have hlt : (num / den : ℝ) < 1 := (div_lt_one hden).2 (by exact_mod_cast h)
  cases hcmp : compare (2 * num) den with
  | lt =>
    have : (2 * num : ℝ) < den := by exact_mod_cast compare_lt_iff_lt.1 hcmp
    refine .low (by simpa using div_pos hnum hden) ?_
    rw [add_lt_add_iff_left, div_lt_div_iff₀ hden two_pos]
    linarith
  | eq =>
    have : (2 * num : ℝ) = den := by exact_mod_cast compare_eq_iff_eq.1 hcmp
    have hhalf : (num / den : ℝ) = 1 / 2 := by
      rw [div_eq_div_iff hden.ne' two_ne_zero]
      linarith
    rw [hhalf]
    exact .middle m
  | gt =>
    have : (den : ℝ) < 2 * num := by exact_mod_cast compare_gt_iff_gt.1 hcmp
    refine .high ?_ (by simpa using hlt)
    rw [add_lt_add_iff_left, div_lt_div_iff₀ two_pos hden]
    linarith

/-- A number that is not a mantissa lies before the next one. -/
theorem eq_or_between (h : Represents em t) :
    (em.roundBit || em.stickyBit) = false ∧ t = em.mantissa ∨
      (em.roundBit || em.stickyBit) = true ∧ em.mantissa < t ∧ t < em.mantissa + 1 := by
  cases h with
  | exact m => exact .inl ⟨rfl, rfl⟩
  | low hlow hhigh => exact .inr ⟨rfl, hlow, hhigh.trans (by linarith)⟩
  | middle m => exact .inr ⟨rfl, by dsimp only; linarith, by dsimp only; linarith⟩
  | high hlow hhigh => exact .inr ⟨rfl, lt_trans (by linarith) hlow, hhigh⟩

theorem shiftRightOne (h : Represents em t) : Represents em.shiftRightOne (t / 2) := by
  have hcases := h.eq_or_between
  obtain ⟨m, r, s⟩ := em
  dsimp only at hcases
  rw [ExtendedMantissa.shiftRightOne]
  dsimp only
  obtain ⟨q, rfl | rfl⟩ := m.even_or_odd'
  · rw [show 2 * q / 2 = q by omega, show (2 * q % 2 != 0) = false by simp]
    obtain ⟨hbits, rfl⟩ | ⟨hbits, hlow, hhigh⟩ := hcases
    · rw [hbits, show ((2 * q : ℕ) / 2 : ℝ) = q by push_cast; ring]
      exact .exact q
    · rw [hbits]
      push_cast at hlow hhigh
      exact .low (by linarith) (by linarith)
  · rw [show (2 * q + 1) / 2 = q by omega, show ((2 * q + 1) % 2 != 0) = true by simp]
    obtain ⟨hbits, rfl⟩ | ⟨hbits, hlow, hhigh⟩ := hcases
    · rw [hbits, show ((2 * q + 1 : ℕ) / 2 : ℝ) = q + 1 / 2 by push_cast; ring]
      exact .middle q
    · rw [hbits]
      push_cast at hlow hhigh
      exact .high (by linarith) (by linarith)

/-- A shift to the right divides by a power of two. -/
theorem shiftRight (h : Represents em t) (n : ℕ) : Represents (em >>> n) (t / 2 ^ n) := by
  change Represents (n.repeat ExtendedMantissa.shiftRightOne em) _
  induction n with
  | zero => simpa [Nat.repeat] using h
  | succ n ih =>
    rw [pow_succ, ← div_div]
    exact ih.shiftRightOne

/-- What is below the middle behind a mantissa is not rounded beyond it. -/
theorem roundedMantissa_le (h : Represents em t) {bound : ℕ} (ht : t < bound + 1 / 2) :
    em.roundedMantissa ≤ bound := by
  cases h with
  | exact m =>
    have hm : (m : ℝ) < bound + 1 := by linarith
    exact Nat.lt_succ_iff.1 (mod_cast hm)
  | @low m _ hlow _ =>
    have hm : (m : ℝ) < bound + 1 := by linarith
    exact Nat.lt_succ_iff.1 (mod_cast hm)
  | middle m =>
    have hm : m < bound := by exact_mod_cast (add_lt_add_iff_right _).1 ht
    change m + m % 2 ≤ bound
    omega
  | @high m _ hlow _ =>
    have hm : (m : ℝ) < bound := by linarith
    exact Nat.succ_le_of_lt (mod_cast hm)

theorem le_roundedMantissa (h : Represents em t) {bound : ℕ} (ht : bound ≤ t) :
    bound ≤ em.roundedMantissa := by
  have hle : bound ≤ em.mantissa := by
    obtain ⟨-, rfl⟩ | ⟨-, -, hhigh⟩ := h.eq_or_between
    · exact_mod_cast ht
    · exact Nat.lt_succ_iff.1 (by exact_mod_cast ht.trans_lt hhigh)
  refine hle.trans ?_
  cases h with
  | exact m => exact le_rfl
  | low => exact le_rfl
  | middle m => exact Nat.le_add_right m _
  | high => exact Nat.le_succ _

theorem mem_Ico {m : ℕ} {acc : Accuracy} (h : Represents (.ofMantissaAndAccuracy m acc) t) :
    (m : ℝ) ≤ t ∧ t < m + 1 := by
  have hm : (ExtendedMantissa.ofMantissaAndAccuracy m acc).mantissa = m := by
    rcases acc with _ | _ | _ | _ <;> rfl
  obtain ⟨-, rfl⟩ | ⟨-, hlow, hhigh⟩ := h.eq_or_between
  · simp [hm]
  · rw [hm] at hlow hhigh
    exact ⟨hlow.le, hhigh⟩

end Represents

/-! ## Rounding -/

structure IsBound (bound : ℕ) (k : ℤ) : Prop where
  low : 2 ^ 52 ≤ bound
  high : bound < 2 ^ 53
  least : -1074 ≤ k
  greatest : k ≤ 971

/-- A finite number that is zero, or has a sign and is not greater than a bound. -/
inductive OnSide (s : Sign) (bound : ℝ) : UnpackedFloat → Prop
  | zero (t : Sign) : OnSide s bound (.zero t)
  | finite {m : ℕ} {e : ℤ} {hm : 0 < m} (h : sizeOf m e ≤ bound) : OnSide s bound (.finite s m e hm)

theorem sizeOf_eq (m : ℕ) (e : ℤ) : sizeOf m e = m * 2 ^ e := by
  simp [sizeOf]

theorem targetExponent_eq (m : ℕ) (e : ℤ) :
    Format.binary64.targetExponent (totalExponent m e) = max (m.log2 + e - 52) (-1074) := by
  have hbits : (Format.binary64.mantissaBits : ℤ) = 53 := rfl
  have hleast : Format.binary64.minExponent = -1074 := rfl
  rw [Format.targetExponent, totalExponent, hbits, hleast]
  congr 1
  ring

/-- The bits of a number are shifted to the exponent that a double has. -/
theorem represents_shiftToTargetExponent {m : ℕ} {acc : Accuracy} {t : ℝ}
    (h : Represents (.ofMantissaAndAccuracy m acc) t) {e : ℤ}
    (he : e ≤ max (m.log2 + e - 52) (-1074)) :
    (shiftToTargetExponent Format.binary64 m e acc).2 = max (m.log2 + e - 52) (-1074) ∧
    ∃ t', Represents (shiftToTargetExponent Format.binary64 m e acc).1 t' ∧
      t' * 2 ^ max (m.log2 + e - 52) (-1074 : ℤ) = t * 2 ^ e := by
  rw [shiftToTargetExponent, targetExponent_eq]
  generalize max (m.log2 + e - 52) (-1074 : ℤ) = target at he ⊢
  rw [UnpackedFloat.shiftToExponent]
  dsimp only
  obtain ⟨n, hn⟩ := Int.le.dest he
  have hshift : (target - e).toNat = n := by omega
  rw [hshift]
  refine ⟨hn, _, h.shiftRight n, ?_⟩
  rw [← hn, zpow_add₀ two_ne_zero, zpow_natCast]
  field_simp

/-- A mantissa that was rounded up to 54 bits is halved, without a remainder. -/
theorem shiftToTargetExponent_exact {m : ℕ} {e : ℤ} (hm : m ≤ 2 ^ 53) (he : -1074 ≤ e) :
    m < 2 ^ 53 ∧ (shiftToTargetExponent Format.binary64 m e .exact).1.mantissa = m ∧
        (shiftToTargetExponent Format.binary64 m e .exact).2 = e ∨
      m = 2 ^ 53 ∧ (shiftToTargetExponent Format.binary64 m e .exact).1.mantissa = 2 ^ 52 ∧
        (shiftToTargetExponent Format.binary64 m e .exact).2 = e + 1 := by
  rw [shiftToTargetExponent, targetExponent_eq, UnpackedFloat.shiftToExponent]
  dsimp only
  rcases hm.lt_or_eq with hlt | rfl
  · have hlog : m.log2 ≤ 52 := by
      rcases Nat.eq_zero_or_pos m with rfl | hpos
      · simp
      · exact Nat.lt_succ_iff.1 ((Nat.log2_lt hpos.ne').2 hlt)
    have hshift : (max (m.log2 + e - 52) (-1074) - e).toNat = 0 := by omega
    rw [hshift]
    exact .inl ⟨hlt, rfl, by simp⟩
  · have hshift : (max (((2 ^ 53 : ℕ).log2 : ℤ) + e - 52) (-1074) - e).toNat = 1 := by
      rw [Nat.log2_two_pow]
      omega
    rw [hshift]
    exact .inr ⟨rfl, by decide, rfl⟩

/-- The mantissa that is rounded has 53 bits, or less for the least exponent. -/
theorem bounds_of_represents {m : ℕ} {acc : Accuracy} {t t' : ℝ}
    (h : Represents (.ofMantissaAndAccuracy m acc) t) {e : ℤ}
    (he : e ≤ max (m.log2 + e - 52) (-1074))
    (ht' : t' * 2 ^ max (m.log2 + e - 52) (-1074 : ℤ) = t * 2 ^ e) :
    t' < 2 ^ 53 ∧ (-1074 < max (m.log2 + e - 52) (-1074) → 2 ^ 52 ≤ t') := by
  obtain ⟨hlow, hhigh⟩ := h.mem_Ico
  set target := max (m.log2 + e - 52) (-1074 : ℤ) with htarget
  have hpos : (0 : ℝ) < 2 ^ target := by positivity
  constructor
  · have hm : (m : ℝ) + 1 ≤ 2 ^ (m.log2 + 1) := mod_cast Nat.lt_log2_self
    refine lt_of_mul_lt_mul_right ?_ hpos.le
    calc t' * 2 ^ target = t * 2 ^ e := ht'
      _ < 2 ^ (m.log2 + 1) * 2 ^ e := by gcongr; exact hhigh.trans_le hm
      _ = 2 ^ (m.log2 + 1 + e : ℤ) := by
        rw [zpow_add₀ two_ne_zero (_ + 1)]
        norm_cast
      _ ≤ 2 ^ (53 + target : ℤ) := zpow_le_zpow_right₀ one_le_two (by omega)
      _ = 2 ^ 53 * 2 ^ target := by
        rw [zpow_add₀ two_ne_zero]
        norm_cast
  · intro hleast
    have hm0 : m ≠ 0 := by
      rintro rfl
      simp only [Nat.log2_zero] at htarget
      omega
    have hm : (2 : ℝ) ^ m.log2 ≤ m := mod_cast Nat.log2_self_le hm0
    refine le_of_mul_le_mul_right ?_ hpos
    calc (2 : ℝ) ^ 52 * 2 ^ target = 2 ^ (52 + target : ℤ) := by
          rw [zpow_add₀ two_ne_zero]
          norm_cast
      _ = 2 ^ (m.log2 + e : ℤ) := by congr 1; omega
      _ = 2 ^ m.log2 * 2 ^ e := by
        rw [zpow_add₀ two_ne_zero]
        norm_cast
      _ ≤ t * 2 ^ e := by gcongr; exact hm.trans hlow
      _ = t' * 2 ^ target := ht'.symm

/-- A number with the exponent of a double that is not beyond the middle behind a bound is rounded
within that bound. -/
theorem sizeOf_roundedMantissa_le {bound : ℕ} {k : ℤ} (hbound : IsBound bound k)
    {em : ExtendedMantissa} {t : ℝ} (h : Represents em t) {e : ℤ} (hhigh : t < 2 ^ 53)
    (hlow : -1074 < e → 2 ^ 52 ≤ t) (ht : t * 2 ^ e < (bound + 1 / 2) * 2 ^ k) :
    sizeOf em.roundedMantissa e ≤ sizeOf bound k := by
  rw [sizeOf_eq, sizeOf_eq]
  rcases lt_trichotomy e k with hlt | rfl | hgt
  · have hbits : em.roundedMantissa ≤ 2 ^ 53 := h.roundedMantissa_le (hhigh.trans (by norm_num))
    have hrounded : (em.roundedMantissa : ℝ) ≤ 2 ^ 53 := mod_cast hbits
    have hnormal : (2 ^ 52 : ℝ) ≤ bound := mod_cast hbound.low
    calc (em.roundedMantissa * 2 ^ e : ℝ) ≤ 2 ^ 53 * 2 ^ e := by gcongr
      _ = 2 ^ 52 * 2 ^ (e + 1) := by rw [zpow_add₀ two_ne_zero]; ring
      _ ≤ 2 ^ 52 * 2 ^ k := by gcongr; exacts [one_le_two, hlt]
      _ ≤ bound * 2 ^ k := by gcongr
  · have hmiddle : t < bound + 1 / 2 := lt_of_mul_lt_mul_right ht (by positivity)
    have hrounded : (em.roundedMantissa : ℝ) ≤ bound := mod_cast h.roundedMantissa_le hmiddle
    gcongr
  · -- the number would lie beyond the bound, which has the lower exponent
    have hbeyond : (2 ^ 52 : ℝ) ≤ t := hlow (hbound.least.trans_lt hgt)
    have hmax : (bound : ℝ) + 1 ≤ 2 ^ 53 := mod_cast hbound.high
    refine absurd ht (not_lt.2 ?_)
    calc ((bound + 1 / 2) * 2 ^ k : ℝ) ≤ 2 ^ 53 * 2 ^ k := by gcongr; linarith
      _ = 2 ^ 52 * 2 ^ (k + 1) := by rw [zpow_add₀ two_ne_zero]; ring
      _ ≤ 2 ^ 52 * 2 ^ e := by gcongr; exacts [one_le_two, hgt]
      _ ≤ t * 2 ^ e := by gcongr

/-- A number that is not beyond the middle behind a bound is rounded within that bound. -/
theorem onSide_roundWithAccuracy {bound : ℕ} {k : ℤ} (hbound : IsBound bound k) {m : ℕ}
    {acc : Accuracy} {t : ℝ} (h : Represents (.ofMantissaAndAccuracy m acc) t) {e : ℤ}
    (he : e ≤ max (m.log2 + e - 52) (-1074)) (ht : t * 2 ^ e < (bound + 1 / 2) * 2 ^ k) (s : Sign) :
    IsCanonical (roundWithAccuracy Format.binary64 s m e acc) ∧
      OnSide s (sizeOf bound k) (roundWithAccuracy Format.binary64 s m e acc) := by
  obtain ⟨hexponent, t', ht', hvalue⟩ := represents_shiftToTargetExponent h he
  obtain ⟨hhigh, hlow⟩ := bounds_of_represents h he hvalue
  rw [← hvalue] at ht
  unfold roundWithAccuracy
  dsimp only
  rw [hexponent]
  generalize (shiftToTargetExponent Format.binary64 m e acc).1 = em at ht' ⊢
  have hleast : -1074 ≤ max (m.log2 + e - 52) (-1074 : ℤ) := le_max_right ..
  generalize max (m.log2 + e - 52) (-1074 : ℤ) = target at *
  have hbits : em.roundedMantissa ≤ 2 ^ 53 :=
    ht'.roundedMantissa_le (hhigh.trans (by norm_num))
  have hnormal (hgt : -1074 < target) : 2 ^ 52 ≤ em.roundedMantissa :=
    ht'.le_roundedMantissa (by exact_mod_cast hlow hgt)
  have hsize := sizeOf_roundedMantissa_le hbound ht' hhigh hlow ht
  generalize em.roundedMantissa = rounded at hbits hnormal hsize ⊢
  obtain ⟨hlt, hm, hx⟩ | ⟨rfl, hm, hx⟩ := shiftToTargetExponent_exact hbits hleast
  · split_ifs with h0
    · exact ⟨trivial, .zero s⟩
    · refine ⟨?_, .finite (by rwa [hm, hx])⟩
      simp only [IsCanonical, hm, hx]
      exact ⟨hlt, hleast, hnormal⟩
  · split_ifs with h0
    · exact ⟨trivial, .zero s⟩
    · refine ⟨?_, .finite ?_⟩
      · simp only [IsCanonical, hm, hx]
        exact ⟨by norm_num, by omega, fun _ => le_rfl⟩
      · rw [hm, hx]
        refine le_trans (le_of_eq ?_) hsize
        rw [sizeOf_eq, sizeOf_eq, zpow_add₀ two_ne_zero]
        push_cast
        ring

theorem log2_shiftLeft {m : ℕ} (hm : 0 < m) (n : ℕ) : (m <<< n).log2 = m.log2 + n := by
  have hlow := Nat.log2_self_le hm.ne'
  have hhigh := Nat.lt_log2_self (n := m)
  rw [Nat.shiftLeft_eq, Nat.log2_eq_iff (by positivity)]
  constructor
  · rw [pow_add]
    gcongr
  · calc m * 2 ^ n < 2 ^ (m.log2 + 1) * 2 ^ n := by gcongr
      _ = 2 ^ (m.log2 + n + 1) := by ring

/-- A lower exponent does not change a number. -/
theorem sizeOf_decreaseExponent (m : ℕ) (e target : ℤ) :
    sizeOf (UnpackedFloat.decreaseExponent m e target).1
      (UnpackedFloat.decreaseExponent m e target).2 = sizeOf m e := by
  rw [UnpackedFloat.decreaseExponent]
  dsimp only
  rw [sizeOf_eq, sizeOf_eq, Nat.shiftLeft_eq, zpow_sub₀ two_ne_zero, zpow_natCast]
  push_cast
  field_simp

theorem onSide_round {bound : ℕ} {k : ℤ} (hbound : IsBound bound k) {m : ℕ} (hm : 0 < m) {e : ℤ}
    (h : sizeOf m e < (bound + 1 / 2) * 2 ^ k) (s : Sign) :
    IsCanonical (UnpackedFloat.round Format.binary64 s m e) ∧
      OnSide s (sizeOf bound k) (UnpackedFloat.round Format.binary64 s m e) := by
  rw [UnpackedFloat.round, targetExponent_eq]
  dsimp only
  have hsize := sizeOf_decreaseExponent m e (max (m.log2 + e - 52) (-1074))
  rw [sizeOf_eq] at hsize
  refine onSide_roundWithAccuracy hbound (.exact _) ?_ (hsize.trans_lt h) s
  rw [UnpackedFloat.decreaseExponent]
  dsimp only
  rw [log2_shiftLeft hm]
  omega

/-- A sum of numbers that is not beyond the middle behind a bound is rounded within that bound. -/
theorem onSide_normalize {bound : ℕ} {k : ℤ} (hbound : IsBound bound k) {m : ℕ} {e : ℤ}
    (h : sizeOf m e < (bound + 1 / 2) * 2 ^ k) (s zeroSign : Sign) :
    IsCanonical (UnpackedFloat.normalize Format.binary64 (s.apply m) e zeroSign) ∧
      OnSide s (sizeOf bound k)
        (UnpackedFloat.normalize Format.binary64 (s.apply m) e zeroSign) := by
  unfold UnpackedFloat.normalize
  rcases Nat.eq_zero_or_pos m with rfl | hm
  · cases s <;> exact ⟨trivial, .zero zeroSign⟩
  · cases s with
    | negative =>
      have hcompare : compare (-(m : ℤ)) 0 = .lt := compare_lt_iff_lt.2 (by omega)
      have habs : (- -(m : ℤ)).toNat = m := by omega
      rw [Sign.apply, hcompare]
      dsimp only
      rw [habs]
      exact onSide_round hbound hm h .negative
    | positive =>
      have hcompare : compare (m : ℤ) 0 = .gt := compare_gt_iff_gt.2 (by omega)
      rw [Sign.apply, hcompare]
      dsimp only
      rw [Int.toNat_natCast]
      exact onSide_round hbound hm h .positive

/-! ## Packing -/

/-- The exponent of a canonical number that is within a bound. -/
theorem exponent_le_of_onSide {bound : ℕ} {k : ℤ} (hbound : IsBound bound k) {s t : Sign} {m : ℕ}
    {e : ℤ} {hm : 0 < m} (hc : IsCanonical (.finite t m e hm))
    (h : OnSide s (sizeOf bound k) (.finite t m e hm)) : e ≤ k := by
  by_contra hgt
  cases h with | finite hle =>
  refine absurd hle (not_le.2 (sizeOf_lt_sizeOf hbound.high hbound.least hc.2.2 (.inl ?_)))
  omega

theorem exponentBias_eq : ((Format.binary64.exponentBias : ℕ) : ℤ) = 1023 := rfl

/-- A mantissa of 53 bits is packed without its leading bit. -/
theorem unpack_normal {s : Sign} {m : ℕ} {e : ℤ} {hm : 0 < m} (hlow : 2 ^ 52 ≤ m)
    (hhigh : m < 2 ^ 53) (hleast : -1074 ≤ e) (hgreatest : e ≤ 971) :
    UnpackedFloat.unpack Format.binary64 (UnpackedFloat.packComponents Format.binary64 s
      (BitVec.ofNat 11 (e + 1075).toNat) (BitVec.ofNat 52 m)) = .finite s m e hm := by
  rw [UnpackedFloat.unpack]
  simp only [UnpackedFloat.unpackExponent_packComponents,
    UnpackedFloat.unpackMantissa_packComponents, UnpackedFloat.unpackSign_packComponents,
    UnpackedFloat.Sign.ofBitVec_toBitVec]
  have hexponent : (BitVec.ofNat 11 (e + 1075).toNat).toNat = (e + 1075).toNat := by
    rw [BitVec.toNat_ofNat, Nat.mod_eq_of_lt (by omega)]
  have hmantissa : (1#1 ++ BitVec.ofNat 52 m).toNat = m := by
    rw [BitVec.toNat_append, ← Nat.shiftLeft_add_eq_or_of_lt (BitVec.isLt _),
      BitVec.toNat_ofNat, Nat.shiftLeft_eq]
    simp
    omega
  have hne_ones : BitVec.ofNat 11 (e + 1075).toNat ≠ -1#11 := by
    intro heq
    have := congrArg BitVec.toNat heq
    rw [hexponent] at this
    simp at this
    omega
  have hne_zero : BitVec.ofNat 11 (e + 1075).toNat ≠ 0#11 := by
    intro heq
    have := congrArg BitVec.toNat heq
    rw [hexponent] at this
    simp at this
    omega
  rw [if_neg hne_ones, if_neg hne_zero]
  simp only [UnpackedFloat.finite.injEq, true_and]
  exact ⟨hmantissa, by rw [hexponent, exponentBias_eq]; omega⟩

/-- A shorter mantissa is packed with the field zero for its exponent. -/
theorem unpack_subnormal {s : Sign} {m : ℕ} {hm : 0 < m} (hhigh : m < 2 ^ 52) :
    UnpackedFloat.unpack Format.binary64 (UnpackedFloat.packComponents Format.binary64 s 0#11
      (BitVec.ofNat 52 m)) = .finite s m (-1074) hm := by
  rw [UnpackedFloat.unpack]
  simp only [UnpackedFloat.unpackExponent_packComponents,
    UnpackedFloat.unpackMantissa_packComponents, UnpackedFloat.unpackSign_packComponents,
    UnpackedFloat.Sign.ofBitVec_toBitVec]
  have hmantissa : (BitVec.ofNat 52 m).toNat = m := by
    rw [BitVec.toNat_ofNat, Nat.mod_eq_of_lt hhigh]
  have hne_zero : BitVec.ofNat 52 m ≠ 0#52 := by
    intro heq
    have := congrArg BitVec.toNat heq
    rw [hmantissa] at this
    simp at this
    omega
  rw [if_neg (by decide), if_pos trivial, dif_neg hne_zero]
  simp only [UnpackedFloat.finite.injEq, true_and]
  exact ⟨hmantissa, by rw [exponentBias_eq]; rfl⟩

/-- Nothing is lost of a canonical finite number when it is packed. -/
theorem unpack_pack_finite {s : Sign} {m : ℕ} {e : ℤ} {hm : 0 < m}
    (hc : IsCanonical (.finite s m e hm)) (he : e ≤ 971) :
    (pack (.finite s m e hm)).unpack = .finite s m e hm := by
  obtain ⟨hbits, hleast, hnormal⟩ := hc
  have hfield : (e + Format.binary64.exponentBias + (52 : ℕ)).toNat = (e + 1075).toNat := by
    rw [exponentBias_eq]
    congr 1
    omega
  change UnpackedFloat.unpack Format.binary64 (UnpackedFloat.pack Format.binary64 _) = _
  rw [UnpackedFloat.pack]
  dsimp only
  rw [hfield, if_neg (by omega)]
  by_cases hlow : 2 ^ 52 ≤ m
  · have hlog : m.log2 + 1 = Format.binary64.mantissaBits := by
      rw [(Nat.log2_eq_iff hm.ne').2 ⟨hlow, hbits⟩]
      rfl
    rw [if_pos hlog]
    exact unpack_normal hlow hbits hleast he
  · have hlog : ¬ m.log2 + 1 = Format.binary64.mantissaBits := by
      have := (Nat.log2_lt hm.ne').2 (not_le.1 hlow)
      change ¬ m.log2 + 1 = 53
      omega
    obtain rfl : e = -1074 := by
      by_contra hne
      exact hlow (hnormal (by omega))
    rw [if_neg hlog]
    exact unpack_subnormal (not_le.1 hlow)

/-- Nothing is lost of a canonical number within a bound when it is packed. -/
theorem unpack_pack {bound : ℕ} {k : ℤ} (hbound : IsBound bound k) {s : Sign} {u : UnpackedFloat}
    (hc : IsCanonical u) (h : OnSide s (sizeOf bound k) u) : (pack u).unpack = u := by
  cases h with
  | zero t => cases t <;> rfl
  | finite h =>
    exact unpack_pack_finite hc
      ((exponent_le_of_onSide hbound hc (.finite h)).trans hbound.greatest)

end FunctionAlgebra.Double
