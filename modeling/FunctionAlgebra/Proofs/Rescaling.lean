import FunctionAlgebra.Proofs.Multiples
import FunctionAlgebra.Proofs.Reduced

/-!
# Scaling reduced functions

Multiples of a reduced function are reduced, and so is its unit copy, which is one of them up to
canonical constants.

## Main definitions

* `Fn.hasScale` — a function takes a coefficient into its scale.

## Main statements

* `Fn.forget_unit_eq` — the unit copy is the multiple by the inverse of the scale.
* `Fn.Reduced.scaleBy`, `Fn.Reduced.unit` — multiples and unit copies are reduced.
-/

namespace FunctionAlgebra.Fn

open Exact (real)

variable {f g : Fn Exact} {r : ℝ}

/-- Scales and coefficients of reduced functions are not zero, so exponents are stored as they
are. -/
theorem Reduced.stored (h : f.Reduced) : f.Stored := by
  induction h with
  | value hv => exact .value hv
  | undefined => exact .undefined
  | plain hs => exact .plain (Kernel.atScale_of_ne_zero (by simpa using hs))
  | chain hs hp hk h1 hf hu hv hid ih =>
    exact .chain (Kernel.atScale_of_ne_zero (by simpa using hs)) ih
  | sum hlen ht hu h0 hapart ih => exact .sum (List.ne_nil_of_length_pos (by omega)) ih
  | product hne hf hu hv hone hapart ih => exact .product (List.cons_ne_nil _ _) ih
  | quotient hn hd hnu hdu h0 hapart ihn ihd => exact .quotient ihn ihd
  | piecewise hr hs ih => exact .piecewise ih

theorem Reduced.forget_scaleBy_scaleBy (h : f.Reduced) (r c : ℝ) :
    ((f.scaleBy (real r)).scaleBy (real c)).forget = (f.scaleBy (real (r * c))).forget :=
  h.stored.forget_scaleBy_scaleBy h.hasFiniteNumbers r c

/-! ## Unit copies -/

theorem unitScale_of_ne_zero {s : ℝ} (hs : s ≠ 0) : unitScale (real s) = 1 := by
  unfold unitScale
  split_ifs with h
  · rw [Bool.or_eq_true, Exact.beq_zero_iff, Exact.beq_one_iff] at h
    exact h.resolve_left (by simpa using hs)
  · rfl

/-- The unit copy of a function is its multiple by the inverse of its scale. -/
theorem forget_unit_eq {s : ℝ} (hf : f.scale = real s) (hs : s ≠ 0) :
    f.unit.forget = (f.scaleBy (real s⁻¹)).forget := by
  have hinv := inv_ne_zero hs
  have hvalue {f : Fn Exact} {v : Exact} (hv : f.value? = some v) (hf : f.scale = real s) :
      f.unit.forget = (f.scaleBy (real s⁻¹)).forget := by
    rw [scale_of_value? hv] at hf
    subst hf
    rw [forget_of_value? (value?_unit hv), unitScale_of_ne_zero hs, forget_scaleBy_value hv hinv,
      mul_inv_cancel₀ hs, Exact.one_eq]
  have hone {f : Fn Exact} (hf : f.scale = real s) (h1 : f.scale = 1) :
      f.unit.forget = (f.scaleBy (real s⁻¹)).forget := by
    obtain rfl : s = 1 := by simpa [h1, Exact.one_eq] using hf.symm
    rw [unit_of_scale_one h1, inv_one, ← Exact.one_eq, scaleBy_one]
  induction f with
  | zero | one | const v => exact hvalue rfl hf
  | undefined | sum | product | piecewise => exact hone hf rfl
  | plain k t | chain k t f =>
    obtain rfl : t = real s := hf
    rw [unit_unary, unitScale_of_ne_zero hs, scaleBy_unary hs hinv, mul_inv_cancel₀ hs,
      Exact.one_eq]
  | quotient n d ihn =>
    rw [unit_quotient, scaleBy_quotient _ _ hinv, forget_quotient, forget_quotient, ihn hf]

theorem scale_unit {s : ℝ} (hf : f.scale = real s) (hs : s ≠ 0) : f.unit.scale = 1 := by
  unfold unit
  split_ifs with h
  · rw [Bool.or_eq_true, Exact.beq_zero_iff, Exact.beq_one_iff] at h
    exact h.resolve_left (by simpa [hf] using hs)
  · exact scale_withScale_one f

/-- A reduced function other than zero has a scale other than zero. -/
theorem Reduced.exists_scale (h : f.Reduced) (h0 : f.value? ≠ some 0) :
    ∃ s : ℝ, f.scale = real s ∧ s ≠ 0 := by
  induction h with
  | @value f v hv =>
    refine ⟨v, scale_of_value? hv, ?_⟩
    rintro rfl
    exact h0 hv
  | undefined | sum | product | piecewise => exact ⟨1, rfl, one_ne_zero⟩
  | plain hs | chain hs => exact ⟨_, rfl, hs⟩
  | quotient hn hd hnu hdu hn0 hapart ihn => exact ihn hn0

/-- The scale times the unit copy. -/
theorem Reduced.forget_scaleBy_unit (h : f.Reduced) {s : ℝ} (hf : f.scale = real s) (hs : s ≠ 0) :
    (f.unit.scaleBy (real s)).forget = f.forget := by
  rw [forget_scaleBy_congr _ (forget_unit_eq hf hs), h.forget_scaleBy_scaleBy,
    inv_mul_cancel₀ hs, ← Exact.one_eq, scaleBy_one]

/-! ## Functions that have a scale -/

def hasScale {α : Type} : Fn α → Bool
  | undefined | sum _ | product _ | piecewise _ => false
  | quotient n _ => n.hasScale
  | _ => true

@[simp] theorem hasScale_forget (f : Fn Exact) : f.forget.hasScale = f.hasScale := by
  induction f with
  | quotient n d ihn => simpa [hasScale] using ihn
  | _ => simp [hasScale]

theorem hasScale_congr (h : f.forget = g.forget) : f.hasScale = g.hasScale := by
  rw [← hasScale_forget, h, hasScale_forget]

theorem scale_of_not_hasScale (h : f.hasScale = false) : f.scale = 1 := by
  induction f with
  | quotient n d ihn => exact ihn h
  | undefined | sum | product | piecewise => rfl
  | _ => cases h

theorem scale_scaleBy (h : f.hasScale = true) {s : ℝ} (hf : f.scale = real s) (hs : s ≠ 0)
    (hr : r ≠ 0) : (f.scaleBy (real r)).scale = real (s * r) := by
  have hvalue {f : Fn Exact} {v : Exact} (hv : f.value? = some v) (hf : f.scale = real s) :
      (f.scaleBy (real r)).scale = real (s * r) := by
    rw [scale_of_value? hv] at hf
    subst hf
    exact scale_of_value? (value?_scaleBy hv hr)
  induction f with
  | zero | one | const v => exact hvalue rfl hf
  | undefined | sum | product | piecewise => cases h
  | plain k t | chain k t f =>
    obtain rfl : t = real s := hf
    rw [scaleBy_unary hs hr, scale]
  | quotient n d ihn => rw [scaleBy_quotient _ _ hr, scale, ihn h hf]

/-- A multiple of a function that has a scale has the same unit copy. -/
theorem Reduced.forget_unit_scaleBy (h : f.Reduced) (hscale : f.hasScale = true) {s : ℝ}
    (hf : f.scale = real s) (hs : s ≠ 0) (hr : r ≠ 0) :
    (f.scaleBy (real r)).unit.forget = f.unit.forget := by
  have hsr : s * r ≠ 0 := mul_ne_zero hs hr
  rw [forget_unit_eq (scale_scaleBy hscale hf hs hr) hsr,
    h.forget_scaleBy_scaleBy, forget_unit_eq hf hs]
  congr 3
  field_simp

/-! ## Scaling leaves nothing to merge -/

theorem Reduced.rescaled_scaleBy (h : f.Reduced) (hr : r ≠ 0) :
    Rescaled f (f.scaleBy (real r)) := by
  cases h with
  | value hv => exact .values hv (value?_scaleBy hv hr)
  | undefined => exact .undefined
  | plain hs | chain hs =>
    rw [scaleBy_unary hs hr]
    exact .unary (by simp [hs, hr]) rfl
  | sum => exact scaleBy_sum _ hr ▸ .sums
  | product => exact scaleBy_product _ _ hr ▸ .products
  | quotient => exact scaleBy_quotient _ _ hr ▸ .quotients
  | piecewise => exact scaleBy_piecewise _ hr ▸ .piecewise

theorem rescaled_unit (f : Fn Exact) : Rescaled f f.unit := by
  cases f with
  | zero | one | const v => exact .values rfl (value?_unit rfl)
  | undefined =>
    rw [unit_of_scale_one rfl]
    exact .undefined
  | unary k s inner =>
    rw [unit_unary]
    refine .unary ?_ rfl
    unfold unitScale
    split_ifs with h
    · exact Iff.rfl
    · rw [Bool.or_eq_true, Exact.beq_zero_iff, not_or] at h
      simp [h.1, Exact.one_eq]
  | sum ts =>
    rw [unit_of_scale_one rfl]
    exact .sums
  | product fs =>
    rw [unit_of_scale_one rfl]
    exact .products
  | quotient n d =>
    rw [unit_quotient]
    exact .quotients
  | piecewise segments =>
    rw [unit_of_scale_one rfl]
    exact .piecewise

theorem Rescaled.value?_eq_none (h : Rescaled f g) (hv : f.value? = none) : g.value? = none := by
  cases hw : g.value? with
  | none => rfl
  | some w =>
    obtain ⟨v, hv'⟩ := h.symm.exists_value hw
    rw [hv] at hv'
    cases hv'

theorem Rescaled.isUndefined (h : Rescaled f g) : f.isUndefined = g.isUndefined := by
  cases h with
  | values hf hg => cases f <;> cases hf <;> cases g <;> cases hg <;> rfl
  | _ => rfl

theorem hasScale_of_value? {v : Exact} (h : f.value? = some v) : f.hasScale = true := by
  cases f <;> cases h <;> rfl

theorem hasScale_unit (f : Fn Exact) : f.unit.hasScale = f.hasScale := by
  induction f with
  | zero | one | const v => exact hasScale_of_value? (value?_unit rfl)
  | undefined | sum | product | piecewise => rw [unit_of_scale_one rfl]
  | plain k s | chain k s f => rw [unit_unary]; rfl
  | quotient n d ihn => rw [unit_quotient]; exact ihn

theorem Reduced.hasScale_scaleBy (h : f.Reduced) (hr : r ≠ 0) :
    (f.scaleBy (real r)).hasScale = f.hasScale := by
  induction h with
  | value hv => rw [hasScale_of_value? (value?_scaleBy hv hr), hasScale_of_value? hv]
  | undefined => rfl
  | plain hs | chain hs => rw [scaleBy_unary hs hr]; rfl
  | sum => rw [scaleBy_sum _ hr]; rfl
  | product => rw [scaleBy_product _ _ hr]; rfl
  | quotient hn hd hnu hdu h0 hapart ihn => rw [scaleBy_quotient _ _ hr]; exact ihn
  | piecewise => rw [scaleBy_piecewise _ hr]; rfl

/-- Multiples of functions with equal unit copies have equal unit copies. -/
theorem Reduced.unit_scaleBy_beq (hf : f.Reduced) (hg : g.Reduced) (hf0 : f.value? ≠ some 0)
    (hg0 : g.value? ≠ some 0) (h : (f.unit == g.unit) = true) (hr : r ≠ 0)
    (hfr : (f.scaleBy (real r)).Reduced) :
    ((f.scaleBy (real r)).unit == (g.scaleBy (real r)).unit) = true := by
  obtain ⟨hfg, hnan⟩ := beq_iff.1 h
  have hscale : g.hasScale = f.hasScale := by
    rw [← hasScale_unit, ← hasScale_congr hfg, hasScale_unit]
  refine beq_iff.2 ?_
  cases hs : f.hasScale with
  | true =>
    obtain ⟨s, hfs, hs0⟩ := hf.exists_scale hf0
    obtain ⟨t, hgt, ht0⟩ := hg.exists_scale hg0
    have hfu := hf.forget_unit_scaleBy hs hfs hs0 hr
    have hgu := hg.forget_unit_scaleBy (hscale.trans hs) hgt ht0 hr
    exact ⟨hfu.trans (hfg.trans hgu.symm), by rwa [← hasNoNaN_forget, hfu, hasNoNaN_forget]⟩
  | false =>
    have hunit {g : Fn Exact} (hg : g.hasScale = false) : g.unit = g :=
      unit_of_scale_one (scale_of_not_hasScale hg)
    rw [hunit hs, hunit (hscale.trans hs)] at hfg
    rw [hunit ((hf.hasScale_scaleBy hr).trans hs),
      hunit ((hg.hasScale_scaleBy hr).trans (hscale.trans hs))]
    exact ⟨forget_scaleBy_congr _ hfg, hfr.hasNoNaN⟩

/-- Multiples of functions that can be added can be added. -/
theorem Addable.scaleBy (h : Addable f g) (hf : f.Reduced) (hg : g.Reduced) (hr : r ≠ 0)
    (hfr : (f.scaleBy (real r)).Reduced) : Addable (f.scaleBy (real r)) (g.scaleBy (real r)) := by
  cases h with
  | absorbed => exact .absorbed
  | scales hk hi =>
    cases hf with
    | value hv => cases hv
    | plain hs | chain hs =>
      cases hg with
      | value hv => cases hv
      | plain ht | chain ht =>
        rw [scaleBy_unary hs hr, scaleBy_unary ht hr]
        exact .scales hk hi
  | heads has hu =>
    rw [scaleBy_product _ _ hr] at hfr ⊢
    rw [scaleBy_product _ _ hr]
    cases hf with
    | value hv => cases hv
    | product _ hf _ hfv =>
      cases hg with
      | value hv => cases hv
      | product _ hg _ hgv =>
        cases hfr with
        | value hv => cases hv
        | product _ hfr =>
          refine .heads has ((hf _ List.mem_cons_self).unit_scaleBy_beq (hg _ List.mem_cons_self)
            ?_ ?_ hu hr (hfr _ List.mem_cons_self))
          · simp [hfv _ List.mem_cons_self]
          · simp [hgv _ List.mem_cons_self]
  | numerators hd =>
    rw [scaleBy_quotient _ _ hr, scaleBy_quotient _ _ hr]
    exact .numerators hd
  | values hv hw =>
    obtain ⟨v', hv'⟩ := (hf.rescaled_scaleBy hr).exists_value hv
    obtain ⟨w', hw'⟩ := (hg.rescaled_scaleBy hr).exists_value hw
    exact .values hv' hw'

/-- Multiples of functions that cannot be added cannot be added. -/
theorem Reduced.not_addable_scaleBy (hf : f.Reduced) (hg : g.Reduced) (hr : r ≠ 0)
    (hfr : (f.scaleBy (real r)).Reduced) (hgr : (g.scaleBy (real r)).Reduced)
    (h : ¬ Addable f g) : ¬ Addable (f.scaleBy (real r)) (g.scaleBy (real r)) := by
  intro hadd
  have hback {f : Fn Exact} (hf : f.Reduced) :
      ((f.scaleBy (real r)).scaleBy (real r⁻¹)).forget = f.forget := by
    rw [hf.forget_scaleBy_scaleBy, mul_inv_cancel₀ hr, ← Exact.one_eq,
      scaleBy_one]
  have hadd := hadd.scaleBy hfr hgr (inv_ne_zero hr) (hf.congr (hback hf).symm)
  exact h (hadd.congr (hback hf) (hback hg))

theorem Reduced.value?_scaleBy_ne_zero (h : f.Reduced) (h0 : f.value? ≠ some 0) (hr : r ≠ 0) :
    (f.scaleBy (real r)).value? ≠ some 0 := by
  intro hscaled
  obtain ⟨v, hv⟩ := (h.rescaled_scaleBy hr).symm.exists_value hscaled
  cases h with
  | value hv =>
    rw [value?_scaleBy hv hr, Option.some_inj, Exact.real_eq_zero_iff] at hscaled
    rcases mul_eq_zero.1 hscaled with rfl | rfl
    · exact h0 hv
    · exact hr rfl
  | _ => cases hv

/-- Multiples of reduced functions are reduced. -/
theorem Reduced.scaleBy (h : f.Reduced) (hr : r ≠ 0) : (f.scaleBy (real r)).Reduced := by
  induction h with
  | value hv => exact .value (value?_scaleBy hv hr)
  | undefined => exact .undefined
  | plain hs hp hk =>
    rw [scaleBy_unary hs hr]
    exact .plain (mul_ne_zero hs hr) hp hk
  | chain hs hp hk h1 hf hu hv hid =>
    rw [scaleBy_unary hs hr]
    exact .chain (mul_ne_zero hs hr) hp hk h1 hf hu hv hid
  | @sum ts hlen ht hu h0 hapart ih =>
    rw [scaleBy_sum _ hr]
    refine .sum (by simpa using hlen) ?_ ?_ ?_ ?_
    · simpa using ih
    · rw [List.forall_mem_map]
      exact fun t hmem => ((ht t hmem).rescaled_scaleBy hr).isUndefined ▸ hu t hmem
    · rw [List.forall_mem_map]
      exact fun t hmem => (ht t hmem).value?_scaleBy_ne_zero (h0 t hmem) hr
    · have hall : List.Forall₂ (fun t u => u = t.scaleBy (real r) ∧ t.Reduced ∧ u.Reduced) ts
          (ts.map (Fn.scaleBy (real r))) := by
        rw [List.forall₂_map_right_iff, List.forall₂_same]
        exact fun t hmem => ⟨rfl, ht t hmem, ih t hmem⟩
      refine isChain_of_forall₂ ?_ hall hapart
      rintro t _ u _ ⟨rfl, ht, htr⟩ ⟨rfl, hu, hur⟩ htu
      exact ht.not_addable_scaleBy hu hr htr hur htu
  | @product f fs hne hf hu hv hone hapart ih =>
    rw [scaleBy_product _ _ hr]
    have hscaled := (hf f List.mem_cons_self).rescaled_scaleBy hr
    rw [List.forall_mem_cons] at hf hu hv ih
    refine .product hne ?_ ?_ ?_ hone ?_
    · exact List.forall_mem_cons.2 ⟨ih.1, hf.2⟩
    · exact List.forall_mem_cons.2 ⟨hscaled.isUndefined ▸ hu.1, hu.2⟩
    · exact List.forall_mem_cons.2 ⟨hscaled.value?_eq_none hv.1, hv.2⟩
    · have hall : List.Forall₂ Rescaled (f :: fs) (f.scaleBy (real r) :: fs) :=
        .cons hscaled (List.forall₂_same.2 fun g _ => rescaled_of_forget rfl)
      exact isChain_mergeMultiply?_congr hall hapart
  | quotient hn hd hnu hdu h0 hapart ihn ihd =>
    rw [scaleBy_quotient _ _ hr]
    have hscaled := hn.rescaled_scaleBy hr
    refine .quotient ihn hd (hscaled.isUndefined ▸ hnu) hdu (hn.value?_scaleBy_ne_zero h0 hr) ?_
    exact hscaled.mergeDivide?_eq_none (rescaled_of_forget rfl) hapart
  | piecewise hr' hs ih =>
    rw [scaleBy_piecewise _ hr]
    refine .piecewise ?_ ?_
    · simpa [Segment.map] using hr'
    · simpa [Segment.map] using ih

/-- The unit copy of a reduced function is reduced. -/
theorem Reduced.unit (h : f.Reduced) (h0 : f.value? ≠ some 0) : f.unit.Reduced := by
  obtain ⟨s, hs, hs0⟩ := h.exists_scale h0
  exact (h.scaleBy (inv_ne_zero hs0)).congr (forget_unit_eq hs hs0).symm

end FunctionAlgebra.Fn
