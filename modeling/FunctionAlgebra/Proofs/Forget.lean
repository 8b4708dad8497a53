import FunctionAlgebra.Proofs.FunctionSort
import FunctionAlgebra.Proofs.Scaling

/-!
# Canonical constants do not matter

Most of what is asked about a function does not depend on which of its constants are canonical: it
is the same for the function that has forgotten it.

## Main statements

* `Fn.beq_forget`, `Fn.compare_congr_left` — equality and order.
* `Fn.forget_scaleBy`, `Fn.forget_unit` — scaled functions.
-/

namespace FunctionAlgebra.Fn

open Exact (real)

variable {f g : Fn Exact}

@[simp] theorem value?_forget (f : Fn Exact) : f.forget.value? = f.value? := by
  cases f <;> simp [value?]

@[simp] theorem isUndefined_forget (f : Fn Exact) : f.forget.isUndefined = f.isUndefined := by
  cases f <;> simp [isUndefined]

@[simp] theorem kind_forget (f : Fn Exact) : f.forget.kind = f.kind := by
  cases f <;> simp [kind]

@[simp] theorem isIdentity_forget (f : Fn Exact) : f.forget.isIdentity = f.isIdentity := by
  cases f with
  | unary k s inner => cases k <;> cases inner <;> simp [isIdentity]
  | _ => simp [isIdentity]

/-! ## The same shape -/

theorem value?_congr (h : f.forget = g.forget) : f.value? = g.value? := by
  rw [← value?_forget, h, value?_forget]

theorem isUndefined_congr (h : f.forget = g.forget) : f.isUndefined = g.isUndefined := by
  rw [← isUndefined_forget, h, isUndefined_forget]

theorem isIdentity_congr (h : f.forget = g.forget) : f.isIdentity = g.isIdentity := by
  rw [← isIdentity_forget, h, isIdentity_forget]

theorem kind_congr (h : f.forget = g.forget) : f.kind = g.kind := by
  rw [← kind_forget, h, kind_forget]

theorem scale_congr (h : f.forget = g.forget) : f.scale = g.scale := by
  rw [← scale_forget, h, scale_forget]

theorem eq_undefined_of_forget (h : undefined.forget = f.forget) : f = undefined := by
  cases f <;> simp at h
  rfl

theorem exists_unary_of_forget {k : Kernel Exact} {s : Exact} {inner : Option (Fn Exact)}
    (h : (unary k s inner).forget = f.forget) :
    ∃ inner', f = unary k s inner' ∧ inner.map forget = inner'.map forget := by
  cases f <;> simp at h
  obtain ⟨rfl, rfl, h⟩ := h
  exact ⟨_, rfl, h⟩

theorem exists_sum_of_forget {ts : List (Fn Exact)} (h : (sum ts).forget = f.forget) :
    ∃ us, f = sum us ∧ ts.map forget = us.map forget := by
  cases f <;> simp at h
  exact ⟨_, rfl, h⟩

theorem exists_product_of_forget {fs : List (Fn Exact)} (h : (product fs).forget = f.forget) :
    ∃ gs, f = product gs ∧ fs.map forget = gs.map forget := by
  cases f <;> simp at h
  exact ⟨_, rfl, h⟩

theorem exists_product_cons_of_forget {a : Fn Exact} {as : List (Fn Exact)}
    (h : (product (a :: as)).forget = f.forget) :
    ∃ b bs, f = product (b :: bs) ∧ a.forget = b.forget ∧ as.map forget = bs.map forget := by
  obtain ⟨gs, rfl, hgs⟩ := exists_product_of_forget h
  obtain ⟨b, bs, rfl, hb, hbs⟩ := List.map_eq_cons_iff.1 hgs.symm
  exact ⟨b, bs, rfl, hb.symm, hbs.symm⟩

theorem exists_quotient_of_forget {n d : Fn Exact} (h : (quotient n d).forget = f.forget) :
    ∃ n' d', f = quotient n' d' ∧ n.forget = n'.forget ∧ d.forget = d'.forget := by
  cases f <;> simp at h
  exact ⟨_, _, rfl, h⟩

theorem exists_piecewise_of_forget {ss : List (Segment Exact (Fn Exact))}
    (h : (piecewise ss).forget = f.forget) : ∃ ts, f = piecewise ts ∧
      List.Forall₂ (fun s t => s.range = t.range ∧ s.payload.forget = t.payload.forget) ss ts := by
  cases f <;> simp at h
  refine ⟨_, rfl, ?_⟩
  rw [← List.forall₂_eq_eq_eq, List.forall₂_map_left_iff, List.forall₂_map_right_iff] at h
  exact h.imp fun s t hst => Segment.mk.inj hst

/-- Lists that differ only in what they remember, place by place. -/
theorem map_forget_eq_iff {fs gs : List (Fn Exact)} :
    fs.map forget = gs.map forget ↔ List.Forall₂ (fun f g => f.forget = g.forget) fs gs := by
  rw [← List.forall₂_eq_eq_eq, List.forall₂_map_left_iff, List.forall₂_map_right_iff]

/-! ## Numbers and equality -/

/-- Zero and one are among the numbers of a function that has forgotten about them. -/
theorem numbers_forget {P B : Exact → Prop} (h0 : P 0) (h1 : P 1) :
    f.forget.Numbers P B ↔ f.Numbers P B := by
  induction f with
  | zero => simp [h0]
  | one => simp [h1]
  | chain k s f ih => simp [ih]
  | sum ts ih | product ts ih => simpa using forall₂_congr ih
  | quotient n d ihn ihd => simp [ihn, ihd]
  | piecewise segments ih =>
    simp only [forget_piecewise, numbers_piecewise, List.forall_mem_map, Segment.map]
    exact forall₂_congr fun s hs => and_congr_right fun _ => ih s hs
  | _ => simp

theorem HasFiniteNumbers.isReal_value (hf : f.HasFiniteNumbers) {v : Exact}
    (hv : f.value? = some v) : v.IsReal := by
  cases f with
  | zero | one =>
    cases hv
    trivial
  | const =>
    cases hv
    exact Exact.isFinite_iff.1 ((numbers_const v).1 hf)
  | _ => cases hv

theorem hasNoNaN_forget : f.forget.HasNoNaN ↔ f.HasNoNaN :=
  numbers_forget LawfulScalar.isNaN_zero LawfulScalar.isNaN_one

@[simp] theorem beq_forget (f g : Fn Exact) : (f.forget == g.forget) = (f == g) := by
  rw [Bool.eq_iff_iff, beq_iff, beq_iff, forget_forget, forget_forget, hasNoNaN_forget]

@[simp] theorem equalInner_forget (inner inner' : Option (Fn Exact)) :
    equalInner (inner.map forget) (inner'.map forget) = equalInner inner inner' := by
  cases inner <;> cases inner' <;> simp [equalInner]

@[simp] theorem equalAll_forget (fs gs : List (Fn Exact)) :
    equalAll (fs.map forget) (gs.map forget) = equalAll fs gs := by
  rw [Bool.eq_iff_iff, equalAll_iff_forall₂, equalAll_iff_forall₂, List.forall₂_map_left_iff,
    List.forall₂_map_right_iff]
  simp

/-! ## Order -/

/-- Functions without NaN that differ only in what they remember compare alike. -/
theorem compare_congr_left {f f' g : Fn Exact} (hf : f.HasNoNaN) (hg : g.HasNoNaN)
    (h : f.forget = f'.forget) : f.compare g = f'.compare g := by
  have hf' : f'.HasNoNaN := by rwa [← hasNoNaN_forget, ← h, hasNoNaN_forget]
  have heq : f.compare f' = .eq := (compare_eq_iff hf hf').2 (beq_iff.2 ⟨h, hf⟩)
  have heq' : f'.compare f = .eq := (compare_eq_iff hf' hf).2 (beq_iff.2 ⟨h.symm, hf'⟩)
  have hleft := compareWith_consistent false hf hf' hg
  have hright := compareWith_consistent false hg hf' hf
  rw [compareWith_swap false f g, compareWith_swap false f' g] at hright
  unfold compare at heq heq'
  rw [heq] at hleft
  rw [heq'] at hright
  exact hleft.eq_of_eq hright

/-! ## Scaling -/

theorem forget_ofValue {v : Exact} (hv : v ≠ .nan) : (ofValue v).forget = const v := by
  unfold ofValue
  split_ifs with h0 h1 hn
  · rw [Exact.beq_zero_iff.1 h0, forget_zero]
  · rw [Exact.beq_one_iff.1 h1, forget_one]
  · exact (hv (Exact.isNaN_iff.1 hn)).elim
  · exact forget_const v

theorem value?_ofValue {v : Exact} (hv : v ≠ .nan) : (ofValue v).value? = some v := by
  rw [← value?_forget, forget_ofValue hv]
  rfl

theorem forget_scaled (k : Kernel Exact) (s : Exact) (inner : Option (Fn Exact)) :
    (scaled k s inner).forget = scaled k s (inner.map forget) :=
  forget_unary ..

/-- A multiple does not remember more than the function did. -/
theorem forget_scaleBy (c : Exact) (f : Fn Exact) :
    (f.forget.scaleBy c).forget = (f.scaleBy c).forget := by
  induction f with
  | zero | one =>
    simp only [forget_zero, forget_one, scaleBy]
    split_ifs <;> simp
  | const v => rw [forget_const]
  | undefined => rw [forget_undefined]
  | plain k s | chain k s f =>
    simp only [forget_unary, scaleBy]
    split_ifs <;> simp [forget_scaled]
  | sum ts ih =>
    simp only [forget_sum, scaleBy, scaleAll_eq_map]
    split_ifs
    · rfl
    · simp
    · simpa using ih
  | product fs ih =>
    simp only [forget_product, scaleBy]
    split_ifs
    · rfl
    · simp
    · cases fs with
      | nil => rfl
      | cons f fs => simpa [scaleFirst] using ih f (by simp)
  | quotient n d ihn =>
    simp only [forget_quotient, scaleBy]
    split_ifs
    · rfl
    · simp
    · simpa using ihn
  | piecewise segments ih =>
    simp only [forget_piecewise, scaleBy, scalePayloads_eq_map]
    split_ifs
    · rfl
    · simp [Segment.map]
    · simpa [Segment.map] using ih

theorem forget_withScale (c : Exact) (f : Fn Exact) :
    (f.forget.withScale c).forget = (f.withScale c).forget := by
  induction f with
  | zero | one =>
    simp only [forget_zero, forget_one, withScale]
    split_ifs <;> simp
  | const v => rw [forget_const]
  | plain k s | chain k s f =>
    simp only [forget_unary, withScale]
    split_ifs <;> simp [forget_scaled]
  | undefined => rfl
  | sum ts =>
    have h := forget_scaleBy (c / 1) (sum ts)
    simp only [forget_sum, withScale] at h ⊢
    split_ifs <;> simp_all
  | product fs =>
    have h := forget_scaleBy (c / 1) (product fs)
    simp only [forget_product, withScale] at h ⊢
    split_ifs <;> simp_all
  | quotient n d ihn =>
    simp only [forget_quotient, withScale, scale_forget]
    split_ifs <;> simp [ihn]
  | piecewise segments =>
    have h := forget_scaleBy (c / 1) (piecewise segments)
    simp only [forget_piecewise, withScale] at h ⊢
    split_ifs <;> simp_all [Segment.map]

theorem forget_unit (f : Fn Exact) : f.forget.unit.forget = f.unit.forget := by
  simp only [unit, scale_forget]
  split_ifs
  · exact forget_forget f
  · exact forget_withScale 1 f

theorem forget_scaleBy_congr (c : Exact) (h : f.forget = g.forget) :
    (f.scaleBy c).forget = (g.scaleBy c).forget := by
  rw [← forget_scaleBy, h, forget_scaleBy]

theorem forget_unit_congr (h : f.forget = g.forget) : f.unit.forget = g.unit.forget := by
  rw [← forget_unit, h, forget_unit]

end FunctionAlgebra.Fn
