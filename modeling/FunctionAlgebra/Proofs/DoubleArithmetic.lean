import FunctionAlgebra.Proofs.DoubleRounding

/-!
# Bounds of double arithmetic

How great the results of arithmetic with doubles are. Each bound is a double itself, so nothing
below the middle between it and the next double is rounded beyond it.

## Main definitions

* `Within` — a double that lies on one side of zero and within a bound.
* `greatest` — the greatest finite double.

## Main statements

* `within_mul`, `within_div`, `within_add`, `within_sub`, `within_neg` — the results of arithmetic.
* `within_ofInt`, `floor_eq_apply` — rounding to integers, and integers as doubles.
* `isFinite_iff_within` — the finite doubles are those within the greatest one.
-/

namespace FunctionAlgebra.Double

open Float.Model

open UnpackedFloat (Sign)

/-- A double that is zero, or has a sign and is not greater than a bound. -/
def Within (s : Sign) (bound : ℝ) (x : Float) : Prop := OnSide s bound x.toModel.unpack

variable {bound : ℕ} {k : ℤ} {s t : Sign} {A B : ℝ} {u v : UnpackedFloat} {x y : Float}

theorem OnSide.mono (h : OnSide s A u) (hAB : A ≤ B) : OnSide s B u := by
  cases h with
  | zero t => exact .zero t
  | finite h => exact .finite (h.trans hAB)

theorem OnSide.isFinite (h : OnSide s A u) : u.isFinite = true := by
  cases h <;> rfl

theorem within_pack (hbound : IsBound bound k)
    (h : IsCanonical u ∧ OnSide s (sizeOf bound k) u) :
    Within s (sizeOf bound k) (.ofModel (pack u)) := by
  change OnSide s (sizeOf bound k) (pack u).unpack
  rw [unpack_pack hbound h.1 h.2]
  exact h.2

theorem sizeOf_nonneg (m : ℕ) (e : ℤ) : 0 ≤ sizeOf m e := by
  rw [sizeOf_eq]
  positivity

theorem sizeOf_lt_middle (bound : ℕ) (k : ℤ) : sizeOf bound k < (bound + 1 / 2) * 2 ^ k := by
  rw [sizeOf_eq]
  gcongr
  linarith

/-! ## Products and quotients -/

theorem sizeOf_mul (m n : ℕ) (e g : ℤ) : sizeOf (m * n) (e + g) = sizeOf m e * sizeOf n g := by
  rw [sizeOf_eq, sizeOf_eq, sizeOf_eq, zpow_add₀ two_ne_zero]
  push_cast
  ring

/-- A product of canonical numbers has 53 bits or more, unless its exponent is below the least
one. -/
theorem exponent_mul_le {m n : ℕ} {e g : ℤ} {hm : 0 < m} {hn : 0 < n}
    (hx : IsCanonical (.finite s m e hm)) (hy : IsCanonical (.finite t n g hn)) :
    e + g ≤ max ((m * n).log2 + (e + g) - 52) (-1074) := by
  by_cases hbits : 2 ^ 52 ≤ m * n
  · have := (Nat.le_log2 (Nat.mul_pos hm hn).ne').2 hbits
    omega
  · have hmn : m ≤ m * n := Nat.le_mul_of_pos_right m hn
    have hnm : n ≤ m * n := Nat.le_mul_of_pos_left n hm
    have he : e = -1074 := by
      by_contra hne
      exact hbits ((hx.2.2 (lt_of_le_of_ne hx.2.1 (Ne.symm hne))).trans hmn)
    have hg : g = -1074 := by
      by_contra hne
      exact hbits ((hy.2.2 (lt_of_le_of_ne hy.2.1 (Ne.symm hne))).trans hnm)
    omega

theorem onSide_mul (hbound : IsBound bound k) (hcu : IsCanonical u) (hcv : IsCanonical v)
    (hu : OnSide s A u) (hv : OnSide t B v) (h : A * B < (bound + 1 / 2) * 2 ^ k) :
    IsCanonical (UnpackedFloat.mul Format.binary64 u v) ∧
      OnSide (s * t) (sizeOf bound k) (UnpackedFloat.mul Format.binary64 u v) := by
  cases hu with
  | zero s' => cases hv <;> exact ⟨trivial, .zero _⟩
  | finite hu =>
    cases hv with
    | zero t' => exact ⟨trivial, .zero _⟩
    | finite hv =>
      refine onSide_roundWithAccuracy hbound (.exact _) (exponent_mul_le hcu hcv) ?_ _
      rw [← sizeOf_eq, sizeOf_mul]
      refine lt_of_le_of_lt ?_ h
      gcongr
      exacts [sizeOf_nonneg _ _, (sizeOf_nonneg _ _).trans hu]

theorem within_mul (hbound : IsBound bound k) (hx : Within s A x) (hy : Within t B y)
    (h : A * B < (bound + 1 / 2) * 2 ^ k) : Within (s * t) (sizeOf bound k) (x * y) :=
  within_pack hbound (onSide_mul hbound (isCanonical_unpack x) (isCanonical_unpack y) hx hy h)

/-- A dividend that is shifted far enough leaves 53 bits or more in the quotient. -/
theorem le_log2_quotient {m n shift : ℕ} (hm : 0 < m) (hn : 0 < n)
    (h : n.log2 + 53 ≤ m.log2 + shift) : 52 ≤ (m * 2 ^ shift / n).log2 := by
  have hbits : 2 ^ 52 ≤ m * 2 ^ shift / n := by
    rw [Nat.le_div_iff_mul_le hn]
    calc 2 ^ 52 * n ≤ 2 ^ 52 * 2 ^ (n.log2 + 1) := by gcongr; exact Nat.lt_log2_self.le
      _ = 2 ^ (n.log2 + 53) := by ring
      _ ≤ 2 ^ (m.log2 + shift) := Nat.pow_le_pow_right two_pos h
      _ = 2 ^ m.log2 * 2 ^ shift := pow_add ..
      _ ≤ m * 2 ^ shift := by gcongr; exact Nat.log2_self_le hm.ne'
  exact (Nat.le_log2 (Nat.pos_of_ne_zero (by omega)).ne').2 hbits

/-- The quotient that is rounded, with the remainder as its accuracy. -/
theorem represents_divCore {m n : ℕ} (hm : 0 < m) (hn : 0 < n) (e g : ℤ) :
    let q := UnpackedFloat.divCore Format.binary64 m e n g
    q.2.1 ≤ max (q.1.log2 + q.2.1 - 52) (-1074) ∧
      ∃ r, Represents (.ofMantissaAndAccuracy q.1 q.2.2) r ∧
        r * 2 ^ q.2.1 * sizeOf n g = sizeOf m e := by
  rw [UnpackedFloat.divCore]
  have htotal : totalExponent m e - totalExponent n g - (53 : ℕ) =
      m.log2 + e - n.log2 - g - 53 := by
    simp only [totalExponent]
    push_cast
    ring
  rw [Format.targetExponent, show Format.binary64.mantissaBits = 53 from rfl,
    show Format.binary64.minExponent = -1074 from rfl, htotal]
  dsimp only
  have htarget : min (e - g) (max (m.log2 + e - n.log2 - g - 53) (-1074)) ≤ e - g := min_le_left ..
  have htarget' := min_le_right (e - g) (max (m.log2 + e - n.log2 - g - 53 : ℤ) (-1074))
  generalize min (e - g) (max (m.log2 + e - n.log2 - g - 53 : ℤ) (-1074)) = target at *
  obtain ⟨shift, hshift⟩ := Int.le.dest htarget
  have htoNat : (e - g - target).toNat = shift := by omega
  rw [htoNat, Nat.shiftLeft_eq]
  refine ⟨?_, _, .ofFraction _ (Nat.mod_lt _ hn), ?_⟩
  · by_cases hleast : target ≤ -1074
    · exact hleast.trans (le_max_right ..)
    · have := le_log2_quotient hm hn (show n.log2 + 53 ≤ m.log2 + shift by omega)
      omega
  · have hnr : (n : ℝ) ≠ 0 := by exact_mod_cast hn.ne'
    have hdivision : (n * (m * 2 ^ shift / n : ℕ) + (m * 2 ^ shift % n : ℕ) : ℝ) =
        m * 2 ^ shift := by
      exact_mod_cast Nat.div_add_mod (m * 2 ^ shift) n
    have he : (2 : ℝ) ^ e = 2 ^ target * 2 ^ g * 2 ^ shift := by
      rw [← zpow_natCast, ← zpow_add₀ two_ne_zero, ← zpow_add₀ two_ne_zero]
      congr 1
      omega
    rw [sizeOf_eq, sizeOf_eq, he]
    calc _ = (n * (m * 2 ^ shift / n : ℕ) + (m * 2 ^ shift % n : ℕ) : ℝ) *
          (2 ^ target * 2 ^ g) := by field_simp
      _ = _ := by rw [hdivision]; ring

theorem onSide_div (hbound : IsBound bound k) (hu : OnSide s A u) {n : ℕ} {g : ℤ} {hn : 0 < n}
    (h : A < (bound + 1 / 2) * 2 ^ k * sizeOf n g) :
    IsCanonical (UnpackedFloat.div Format.binary64 u (.finite t n g hn)) ∧
      OnSide (s / t) (sizeOf bound k)
        (UnpackedFloat.div Format.binary64 u (.finite t n g hn)) := by
  cases hu with
  | zero s' => exact ⟨trivial, .zero _⟩
  | @finite m e hm hu =>
    obtain ⟨he, r, hr, hvalue⟩ := represents_divCore hm hn e g
    refine onSide_roundWithAccuracy hbound hr he ?_ _
    have hpos : 0 < sizeOf n g := sizeOf_pos g hn
    exact lt_of_mul_lt_mul_right (hvalue.trans_lt (hu.trans_lt h)) hpos.le

theorem within_div (hbound : IsBound bound k) (hx : Within s A x) {n : ℕ} {g : ℤ} {hn : 0 < n}
    (hy : y.toModel.unpack = .finite t n g hn) (h : A < (bound + 1 / 2) * 2 ^ k * sizeOf n g) :
    Within (s / t) (sizeOf bound k) (x / y) := by
  refine within_pack hbound ?_
  rw [hy]
  exact onSide_div hbound hx h

/-! ## Sums and differences -/

/-- A sum is rounded within the bound on one of the sides. -/
theorem exists_onSide_normalize (hbound : IsBound bound k) {z e : ℤ}
    (h : sizeOf z.natAbs e < (bound + 1 / 2) * 2 ^ k) (zeroSign : Sign) :
    ∃ s, IsCanonical (UnpackedFloat.normalize Format.binary64 z e zeroSign) ∧
      OnSide s (sizeOf bound k) (UnpackedFloat.normalize Format.binary64 z e zeroSign) := by
  obtain ⟨s, hs⟩ : ∃ s : Sign, z = s.apply z.natAbs := by
    rcases le_total 0 z with hz | hz
    · exact ⟨.positive, (Int.natAbs_of_nonneg hz).symm⟩
    · exact ⟨.negative, by simp [Sign.apply, abs_of_nonpos hz]⟩
  have := onSide_normalize hbound h s zeroSign
  rw [← hs] at this
  exact ⟨s, this⟩

theorem natAbs_apply (s : Sign) (m : ℕ) : (s.apply m).natAbs = m := by
  cases s <;> simp [Sign.apply]

theorem sizeOf_mono {m n : ℕ} (h : m ≤ n) (e : ℤ) : sizeOf m e ≤ sizeOf n e := by
  rw [sizeOf_eq, sizeOf_eq]
  gcongr

theorem sizeOf_add (m n : ℕ) (e : ℤ) : sizeOf (m + n) e = sizeOf m e + sizeOf n e := by
  rw [sizeOf_eq, sizeOf_eq, sizeOf_eq]
  push_cast
  ring

/-- Numbers are added at the smaller one of their exponents. -/
theorem sizeOf_shiftLeft (m : ℕ) {e g : ℤ} (h : g ≤ e) :
    sizeOf (m <<< (e - g).toNat) g = sizeOf m e := by
  have hexponent : (UnpackedFloat.decreaseExponent m e g).2 = g := by
    rw [UnpackedFloat.decreaseExponent]
    dsimp only
    omega
  have := sizeOf_decreaseExponent m e g
  rwa [hexponent] at this

theorem onSide_add (hbound : IsBound bound k) (hcu : IsCanonical u) (hcv : IsCanonical v)
    (hu : OnSide s A u) (hv : OnSide t B v) (hA : A ≤ sizeOf bound k) (hB : B ≤ sizeOf bound k)
    (h : A + B < (bound + 1 / 2) * 2 ^ k) :
    ∃ r, IsCanonical (UnpackedFloat.add Format.binary64 u v) ∧
      OnSide r (sizeOf bound k) (UnpackedFloat.add Format.binary64 u v) := by
  cases hu with
  | zero s' =>
    cases hv with
    | zero t' =>
      rw [UnpackedFloat.add]
      exact ⟨.positive, by split <;> exact ⟨trivial, .zero _⟩⟩
    | finite hv => exact ⟨t, hcv, .finite (hv.trans hB)⟩
  | @finite m e hm hu =>
    cases hv with
    | zero t' => exact ⟨s, hcu, .finite (hu.trans hA)⟩
    | @finite n g hn hv =>
      refine exists_onSide_normalize hbound (lt_of_le_of_lt ?_ h) _
      refine (sizeOf_mono (Int.natAbs_add_le _ _) _).trans ?_
      rw [natAbs_apply, natAbs_apply, sizeOf_add, sizeOf_shiftLeft m (min_le_left e g),
        sizeOf_shiftLeft n (min_le_right e g)]
      exact add_le_add hu hv

theorem within_add (hbound : IsBound bound k) (hx : Within s A x) (hy : Within t B y)
    (hA : A ≤ sizeOf bound k) (hB : B ≤ sizeOf bound k) (h : A + B < (bound + 1 / 2) * 2 ^ k) :
    ∃ r, Within r (sizeOf bound k) (x + y) :=
  (onSide_add hbound (isCanonical_unpack x) (isCanonical_unpack y) hx hy hA hB h).imp
    fun _ => within_pack hbound

/-- The difference of numbers on one side of zero is not greater than they are. -/
theorem natAbs_apply_sub_le (s : Sign) (m n : ℕ) :
    (s.apply m - s.apply n).natAbs ≤ max m n := by
  cases s <;> simp only [Sign.apply] <;> omega

theorem onSide_sub (hbound : IsBound bound k) (hcu : IsCanonical u) (hcv : IsCanonical v)
    (hu : OnSide s (sizeOf bound k) u) (hv : OnSide s (sizeOf bound k) v) :
    ∃ r, IsCanonical (UnpackedFloat.sub Format.binary64 u v) ∧
      OnSide r (sizeOf bound k) (UnpackedFloat.sub Format.binary64 u v) := by
  cases hu with
  | zero s' =>
    cases hv with
    | zero t' =>
      rw [UnpackedFloat.sub]
      exact ⟨.positive, by split <;> exact ⟨trivial, .zero _⟩⟩
    | finite hv => exact ⟨-s, hcv, .finite hv⟩
  | @finite m e hm hu =>
    cases hv with
    | zero t' => exact ⟨s, hcu, .finite hu⟩
    | @finite n g hn hv =>
      refine exists_onSide_normalize hbound (lt_of_le_of_lt ?_ (sizeOf_lt_middle bound k)) _
      refine (sizeOf_mono (natAbs_apply_sub_le ..) _).trans ?_
      rcases le_total (m <<< (e - min e g).toNat) (n <<< (g - min e g).toNat) with hle | hle
      · rwa [max_eq_right hle, sizeOf_shiftLeft n (min_le_right e g)]
      · rwa [max_eq_left hle, sizeOf_shiftLeft m (min_le_left e g)]

theorem within_sub (hbound : IsBound bound k) (hx : Within s (sizeOf bound k) x)
    (hy : Within s (sizeOf bound k) y) : ∃ r, Within r (sizeOf bound k) (x - y) :=
  (onSide_sub hbound (isCanonical_unpack x) (isCanonical_unpack y) hx hy).imp
    fun _ => within_pack hbound

/-! ## Integers -/

theorem unpack_of_toBits {b : UInt64} (hb : x.toBits = b)
    (hu : UnpackedFloat.unpack Format.binary64 b.toBitVec = u) : x.toModel.unpack = u := by
  rw [← hu, ← hb]
  rfl

theorem unpack_one : (Float.ofBits 0x3FF0000000000000).toModel.unpack =
    .finite .positive (2 ^ 52) (-52) (by decide) :=
  unpack_of_toBits (b := 0x3FF0000000000000) (by decide +kernel) rfl

theorem within_one : Within .positive 1 (Float.ofBits 0x3FF0000000000000) := by
  rw [Within, unpack_one]
  refine .finite ?_
  rw [sizeOf_eq]
  norm_num

theorem unpack_ofInt_zero : (Float.ofInt 0).toModel.unpack = .zero .positive :=
  unpack_of_toBits (b := 0) (by decide +kernel) rfl

theorem within_ofNat (hbound : IsBound bound k) {n : ℕ} (h : n ≤ sizeOf bound k) :
    Within .positive (sizeOf bound k) (Float.ofNat n) := by
  have hmiddle : (n : ℝ) < (bound + 1 / 2) * 2 ^ k := h.trans_lt (sizeOf_lt_middle bound k)
  change Within _ _ (Float.ofScientific n false 0)
  unfold Float.ofScientific
  split
  · rename_i hsmall
    have hword : n.toUInt64.toNat = n := by
      change n % 2 ^ 64 = n
      omega
    have hn : Within .positive (sizeOf bound k) n.toUInt64.toFloat := by
      refine within_pack hbound (onSide_normalize hbound (s := .positive) ?_ _)
      rw [hword, sizeOf_eq]
      simpa using hmiddle
    exact within_mul hbound hn within_one (by rw [mul_one]; exact sizeOf_lt_middle bound k)
  · change Within _ _ (.ofModel (pack (UnpackedFloat.ofScientific Format.binary64 n 0)))
    refine within_pack hbound ?_
    unfold UnpackedFloat.ofScientific
    split
    · exact ⟨trivial, .zero _⟩
    rename_i hn
    rw [if_neg (by decide), if_neg (not_lt.2 (neg_nonpos.2 (by positivity))), if_pos le_rfl]
    simp only [UnpackedFloat.mul, Int.toNat_zero, pow_zero, mul_one, add_zero,
      show Format.binary64.mantissaBits = 53 from rfl]
    refine onSide_roundWithAccuracy hbound (.exact _) ?_ ?_ _
    · rw [log2_shiftLeft (Nat.pos_of_ne_zero hn)]
      refine le_max_of_le_left ?_
      push_cast
      omega
    · rw [Nat.shiftLeft_eq]
      refine lt_of_eq_of_lt ?_ hmiddle
      rw [Nat.cast_mul, Nat.cast_pow, Nat.cast_ofNat, mul_assoc,
        show (2 ^ 53 * 2 ^ (-((53 : ℕ) : ℤ)) : ℝ) = 1 by norm_num, mul_one]

theorem onSide_neg (hc : IsCanonical u) (h : OnSide s A u) :
    IsCanonical u.neg ∧ OnSide (-s) A u.neg := by
  cases h with
  | zero t => exact ⟨trivial, .zero _⟩
  | finite h => exact ⟨hc, .finite h⟩

theorem within_neg (hbound : IsBound bound k) (hx : Within s (sizeOf bound k) x) :
    Within (-s) (sizeOf bound k) (Float.neg x) :=
  within_pack hbound (onSide_neg (isCanonical_unpack x) hx)

/-- Integers are converted to doubles that lie on their side of zero. -/
theorem within_ofInt (hbound : IsBound bound k) {n : ℕ} (h : n ≤ sizeOf bound k) (s : Sign) :
    Within s (sizeOf bound k) (Float.ofInt (s.apply n)) := by
  cases s with
  | positive => exact within_ofNat hbound h
  | negative =>
    cases n with
    | zero =>
      change Within _ _ (Float.ofInt 0)
      rw [Within, unpack_ofInt_zero]
      exact .zero .positive
    | succ n => exact within_neg hbound (within_ofNat hbound h)

/-! ## Fields of a double -/

theorem toNat_unpackMantissa (x : Float) :
    (@UnpackedFloat.unpackMantissa Format.binary64 x.toBits.toBitVec).toNat =
      x.toBits.toNat % 2 ^ 52 := by
  simp [UnpackedFloat.unpackMantissa]

theorem toNat_unpackExponent (x : Float) :
    (@UnpackedFloat.unpackExponent Format.binary64 x.toBits.toBitVec).toNat =
      (x.toBits.toNat >>> 52) % 2048 := by
  simp [UnpackedFloat.unpackExponent]

theorem size_eq (x : Float) :
    let m := @UnpackedFloat.unpackMantissa Format.binary64 x.toBits.toBitVec
    let e := @UnpackedFloat.unpackExponent Format.binary64 x.toBits.toBitVec
    size x = if e.toNat = 0 then ⟨m.toNat, -1074⟩ else ⟨2 ^ 52 + m.toNat, e.toNat - 1075⟩ := by
  dsimp only
  rw [toNat_unpackMantissa, toNat_unpackExponent, size, Nat.one_shiftLeft]
  split_ifs with h
  · rfl
  · congr 1
    change (-1074 : ℤ) + _ = _
    omega

def sign (x : Float) : Sign := if isNegative x then .negative else .positive

theorem ofBitVec_unpackSign (x : Float) :
    Sign.ofBitVec (@UnpackedFloat.unpackSign Format.binary64 x.toBits.toBitVec) = sign x := by
  have hlt := x.toBits.toNat_lt
  have hsign : (@UnpackedFloat.unpackSign Format.binary64 x.toBits.toBitVec).toNat =
      x.toBits.toNat >>> 63 := by
    simp [UnpackedFloat.unpackSign, Nat.shiftRight_eq_div_pow]
    omega
  have hbit : (x.toBits >>> 63).toNat = x.toBits.toNat >>> 63 := rfl
  simp only [Sign.ofBitVec, sign, isNegative, ← UInt64.toNat_inj, BitVec.toNat_eq, beq_iff_eq,
    hsign, hbit]
  rw [Nat.shiftRight_eq_div_pow]
  obtain h | h : x.toBits.toNat / 2 ^ 63 = 0 ∨ x.toBits.toNat / 2 ^ 63 = 1 := by omega
  · rw [h]
    rfl
  · rw [h]
    rfl

/-- A finite double is its sign with its size. -/
theorem exists_size_eq (h : x.toModel.unpack.isFinite = true) :
    ∃ m e, size x = ⟨m, e⟩ ∧ e ≤ 971 ∧ (m = 0 ∧ x.toModel.unpack = .zero (sign x) ∨
      ∃ hm, x.toModel.unpack = .finite (sign x) m e hm) := by
  have hsize := size_eq x
  change (UnpackedFloat.unpack Format.binary64 x.toBits.toBitVec).isFinite = true at h
  change ∃ m e, _ ∧ _ ∧ (_ ∧ UnpackedFloat.unpack Format.binary64 x.toBits.toBitVec = _ ∨
    ∃ hm, UnpackedFloat.unpack Format.binary64 x.toBits.toBitVec = _)
  unfold UnpackedFloat.unpack at h ⊢
  dsimp only at h hsize ⊢
  rw [ofBitVec_unpackSign] at *
  generalize @UnpackedFloat.unpackExponent Format.binary64 x.toBits.toBitVec = exponent at *
  by_cases hones : exponent = -1#11
  · rw [if_pos hones] at h
    split at h <;> cases h
  rw [if_neg hones]
  have hexponent : exponent.toNat ≤ 2046 := by
    have hlt := exponent.isLt
    rw [BitVec.toNat_eq] at hones
    change ¬ exponent.toNat = 2047 at hones
    change exponent.toNat < 2048 at hlt
    omega
  by_cases hzero : exponent = 0#11
  · subst hzero
    refine ⟨_, _, hsize, by decide, ?_⟩
    rw [if_pos rfl]
    by_cases hmantissa : @UnpackedFloat.unpackMantissa Format.binary64 x.toBits.toBitVec = 0#52
    · rw [dif_pos hmantissa]
      exact .inl ⟨by rw [hmantissa]; rfl, rfl⟩
    · rw [dif_neg hmantissa]
      exact .inr ⟨(BitVec.toNat_pos _).2 ((BitVec.pos_iff_ne_zero _).2 hmantissa), rfl⟩
  · have hpos : exponent.toNat ≠ 0 := fun h => hzero (BitVec.eq_of_toNat_eq h)
    rw [if_neg hpos] at hsize
    refine ⟨_, _, hsize, by omega, .inr ⟨by omega, ?_⟩⟩
    rw [if_neg hzero]
    simp only [UnpackedFloat.finite.injEq, true_and]
    constructor
    · rw [BitVec.toNat_append, ← Nat.shiftLeft_add_eq_or_of_lt (BitVec.isLt _), Nat.shiftLeft_eq]
      simp
    · rw [exponentBias_eq]
      omega

/-- The fraction of a size. -/
theorem fraction_mk (m : ℕ) (e : ℤ) :
    0 < (Binary64.fraction ⟨m, e⟩).2 ∧
      ((Binary64.fraction ⟨m, e⟩).1 : ℝ) = sizeOf m e * (Binary64.fraction ⟨m, e⟩).2 := by
  simp only [Binary64.fraction, Nat.shiftLeft_eq, one_mul, sizeOf_eq]
  refine ⟨by positivity, ?_⟩
  push_cast
  rw [mul_assoc, ← zpow_natCast, ← zpow_natCast, ← zpow_add₀ two_ne_zero]
  congr 2
  omega

/-- A fraction that is rounded down stays on its side and within an integral bound. -/
theorem fdiv_eq_apply {b n d : ℕ} (hd : 0 < d) (h : n ≤ b * d) (s : Sign) :
    ∃ q ≤ b, Int.fdiv (s.apply n) d = s.apply q := by
  have hd' : (0 : ℤ) < d := mod_cast hd
  have hb : (n : ℤ) ≤ b * d := mod_cast h
  rw [Int.fdiv_eq_ediv_of_nonneg _ hd'.le]
  cases s with
  | positive => exact ⟨n / d, Nat.div_le_of_le_mul (by rwa [mul_comm]), rfl⟩
  | negative =>
    have hlow : -(b : ℤ) ≤ -(n : ℤ) / d := by
      rw [Int.le_ediv_iff_mul_le hd']
      linarith
    have hhigh : -(n : ℤ) / d ≤ 0 := Int.ediv_nonpos_of_nonpos_of_neg (by omega) hd'
    refine ⟨(-(-(n : ℤ) / d)).toNat, by omega, ?_⟩
    simp only [Sign.apply]
    omega

theorem floor_eq_fdiv (x : Float) : floor x =
    Int.fdiv ((sign x).apply (size x).fraction.1) (size x).fraction.2 := by
  rw [floor, fraction, sign]
  dsimp only
  split <;> rfl

/-- An integer that is below a finite double lies on its side and within its bound. -/
theorem floor_eq_apply {b : ℕ} (h : Within s b x) : ∃ n ≤ b, floor x = s.apply n := by
  obtain ⟨m, e, hsize, -, hcases⟩ := exists_size_eq (OnSide.isFinite h)
  obtain ⟨hd, hfraction⟩ := fraction_mk m e
  rw [floor_eq_fdiv, hsize]
  obtain ⟨rfl, -⟩ | ⟨hm, hunpack⟩ := hcases
  · refine ⟨0, Nat.zero_le b, ?_⟩
    have hzero : (Binary64.fraction ⟨0, e⟩).1 = 0 := by simp [Binary64.fraction]
    rw [hzero]
    cases s <;> cases sign x <;> simp [Sign.apply]
  · rw [Within, hunpack] at h
    cases h with | finite hle =>
    refine fdiv_eq_apply hd ?_ _
    have : ((Binary64.fraction ⟨m, e⟩).1 : ℝ) ≤ b * (Binary64.fraction ⟨m, e⟩).2 := by
      rw [hfraction]
      gcongr
    exact_mod_cast this

/-! ## Finite doubles -/

theorem isBound_greatest : IsBound (2 ^ 53 - 1) 971 where
  low := by norm_num
  high := by norm_num
  least := by norm_num
  greatest := le_rfl

noncomputable def greatest : ℝ := sizeOf (2 ^ 53 - 1) 971

theorem isFinite_iff_within : Scalar.isFinite x = true ↔ ∃ s, Within s greatest x := by
  refine ⟨fun h => ⟨sign x, ?_⟩, fun ⟨s, h⟩ => h.isFinite⟩
  have hc := isCanonical_unpack x
  rw [Within]
  obtain ⟨m, e, -, he, ⟨-, hunpack⟩ | ⟨hm, hunpack⟩⟩ := exists_size_eq h
  · rw [hunpack]
    exact .zero _
  · rw [hunpack] at hc ⊢
    refine .finite ?_
    rw [greatest, sizeOf_eq, sizeOf_eq]
    gcongr
    · exact Nat.le_pred_of_lt hc.1
    · exact one_le_two

end FunctionAlgebra.Double
