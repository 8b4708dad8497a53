import FunctionAlgebra.Proofs.FunctionSort

/-!
# Indistinguishable functions

A simplified sum or product whose children count as the same as those it was made from is returned
as it was. Children count as the same if they cannot be told apart, and then they are one, or if
they are equal, and then they compare as equal.

## Main definitions

* `FaithfulScalar` — numbers that cannot be told apart are one number.
* `Fn.CountsAs` — functions are one function or equal.

## Main statements

* Exact numbers and doubles are faithful: a double has one NaN.
* `Fn.eq_of_same` — functions that cannot be told apart are one function.
* `Fn.eq_ok_of_same` — so results can be compared by running them.
* `Fn.beq_induct` — induction on two equal functions.
* `Fn.hasNoNaN_of_beq`, `Fn.beq_iff_compare` — equal functions have no NaN, and equality is
  symmetric and transitive.
-/

namespace FunctionAlgebra

variable {α : Type} [Scalar α]

class FaithfulScalar (α : Type) [Scalar α] : Prop where
  eq_of_same {a b : α} : Scalar.same a b = true → a = b

instance : FaithfulScalar Exact := ⟨Exact.same_iff.1⟩

namespace Double

open Float.Model

theorem eq_of_toBits {x y : Float} (h : x.toBits = y.toBits) : x = y := by
  obtain ⟨⟨bits, _⟩⟩ := x
  obtain ⟨⟨bits', _⟩⟩ := y
  obtain rfl : bits = bits' := h
  rfl

/-- All NaNs are packed alike. -/
theorem toBits_of_isNaN {x : Float} (h : x.isNaN = true) :
    x.toBits.toBitVec = UnpackedFloat.packedNaN Format.binary64 := by
  have hvalid := x.toModel.valid
  change (UnpackedFloat.unpack Format.binary64 x.toBits.toBitVec).isNaN = true at h
  rw [UnpackedFloat.unpack] at h
  split_ifs at h with hexponent hmantissa
  · cases h
  · exact hvalid.eq_packedNaN hexponent hmantissa
  all_goals cases h

end Double

instance : FaithfulScalar Float where
  eq_of_same {x y} h := by
    change (x.toBits == y.toBits || (x.isNaN && y.isNaN)) = true at h
    rw [Bool.or_eq_true, beq_iff_eq, Bool.and_eq_true] at h
    refine Double.eq_of_toBits (h.elim id fun ⟨hx, hy⟩ => ?_)
    exact UInt64.eq_of_toBitVec_eq
      ((Double.toBits_of_isNaN hx).trans (Double.toBits_of_isNaN hy).symm)

theorem forall₂_imp_of_mem {β γ : Type} {R S : β → γ → Prop} {xs : List β} {ys : List γ}
    (h : ∀ x ∈ xs, ∀ y, R x y → S x y) (hR : List.Forall₂ R xs ys) : List.Forall₂ S xs ys := by
  induction hR with
  | nil => exact .nil
  | cons hxy _ ih =>
    rw [List.forall_mem_cons] at h
    exact .cons (h.1 _ hxy) (ih h.2)

theorem eq_of_forall₂ {β : Type} {R : β → β → Prop} {xs ys : List β}
    (h : ∀ x ∈ xs, ∀ y, R x y → x = y) (hR : List.Forall₂ R xs ys) : xs = ys :=
  List.forall₂_eq_eq_eq ▸ forall₂_imp_of_mem h hR

section Same

variable [FaithfulScalar α]

theorem Kernel.eq_of_same {k k' : Kernel α} (h : k.same k' = true) : k = k' := by
  simp only [same, Bool.and_eq_true, decide_eq_true_eq] at h
  obtain ⟨hk, hp⟩ := h
  cases k <;> cases k' <;> cases hk <;> simp [parameters] at hp
  · rw [FaithfulScalar.eq_of_same hp]
  · rw [FaithfulScalar.eq_of_same hp.1, FaithfulScalar.eq_of_same hp.2]
  · rw [FaithfulScalar.eq_of_same hp]
  · rw [FaithfulScalar.eq_of_same hp]
  · rfl
  · rfl

theorem Interval.eq_of_same {i j : Interval α} (h : i.same j = true) : i = j := by
  obtain ⟨a, b, c, d⟩ := i
  obtain ⟨a', b', c', d'⟩ := j
  simp only [same, Bool.and_eq_true, beq_iff_eq] at h
  obtain ⟨⟨⟨ha, rfl⟩, hc⟩, rfl⟩ := h
  rw [FaithfulScalar.eq_of_same ha, FaithfulScalar.eq_of_same hc]

/-- Functions that cannot be told apart are one function. -/
theorem Fn.eq_of_same {f g : Fn α} (h : f.same g = true) : f = g := by
  induction f generalizing g with
  | zero | one | undefined => cases g <;> first | rfl | cases h
  | const v =>
    cases g with
    | const w => rw [FaithfulScalar.eq_of_same h]
    | _ => cases h
  | plain k s =>
    cases g with
    | unary k' s' inner' =>
      cases inner' with
      | none =>
        simp only [same, Bool.and_eq_true] at h
        rw [FaithfulScalar.eq_of_same h.1, Kernel.eq_of_same h.2]
      | some g => cases h
    | _ => cases h
  | chain k s f ih =>
    cases g with
    | unary k' s' inner' =>
      cases inner' with
      | none => cases h
      | some g =>
        simp only [same, Bool.and_eq_true] at h
        rw [FaithfulScalar.eq_of_same h.1.1, Kernel.eq_of_same h.1.2, ih h.2]
    | _ => cases h
  | sum ts ih =>
    cases g with
    | sum us => rw [eq_of_forall₂ (fun t ht u => ih t ht) (sameAll_iff_forall₂.1 h)]
    | _ => cases h
  | product fs ih =>
    cases g with
    | product gs => rw [eq_of_forall₂ (fun f hf g => ih f hf) (sameAll_iff_forall₂.1 h)]
    | _ => cases h
  | quotient n d ihn ihd =>
    cases g with
    | quotient n' d' =>
      simp only [same, Bool.and_eq_true] at h
      rw [ihn h.1, ihd h.2]
    | _ => cases h
  | piecewise segments ih =>
    cases g with
    | piecewise others =>
      have hsegments := sameSegments_iff_forall₂.1 h
      refine congrArg piecewise (eq_of_forall₂ (fun s hs t hst => ?_) hsegments)
      obtain ⟨i, f⟩ := s
      obtain ⟨j, g⟩ := t
      obtain rfl : i = j := Interval.eq_of_same hst.1
      obtain rfl : f = g := ih _ hs hst.2
      rfl
    | _ => cases h

/-- Whether a computation has given a certain function can be decided by running it. -/
theorem Fn.eq_ok_of_same {ε : Type} {result : Except ε (Fn α)} {f : Fn α}
    (h : result.toOption.any (·.same f) = true) : result = .ok f := by
  cases result with
  | error => cases h
  | ok g => rw [Fn.eq_of_same h]

/-- Functions count as one child of a sum or product if they are one function or equal. -/
def Fn.CountsAs (f g : Fn α) : Prop := f = g ∨ (f == g) = true

theorem Fn.countsAs_of_sameChildren {fs gs : List (Fn α)} (h : sameChildren fs gs = true) :
    List.Forall₂ CountsAs fs gs :=
  (sameChildren_iff_forall₂.1 h).imp fun _ _ h => h.imp_left Fn.eq_of_same

end Same

/-! ## Equal functions -/

section Equal

variable [LawfulScalar α]

theorem Scalar.isNaN_of_beq {a b : α} (h : (a == b) = true) :
    Scalar.isNaN a = false ∧ Scalar.isNaN b = false := by
  have hba := PartialEquivBEq.symm h
  have ha : (a == a) = true := PartialEquivBEq.trans h hba
  have hb : (b == b) = true := PartialEquivBEq.trans hba h
  simp [isNaN, ha, hb]

theorem isNaN_of_beq_list {as bs : List α} (h : (as == bs) = true) :
    (∀ a ∈ as, Scalar.isNaN a = false) ∧ ∀ b ∈ bs, Scalar.isNaN b = false := by
  induction as generalizing bs with
  | nil => cases bs <;> simp_all
  | cons a as ih =>
    cases bs with
    | nil => cases h
    | cons b bs =>
      rw [List.cons_beq_cons, Bool.and_eq_true] at h
      have hab := Scalar.isNaN_of_beq h.1
      have hrest := ih h.2
      exact ⟨List.forall_mem_cons.2 ⟨hab.1, hrest.1⟩, List.forall_mem_cons.2 ⟨hab.2, hrest.2⟩⟩

namespace Fn

omit [LawfulScalar α] in
/-- Induction on two equal functions, which are put together in the same way from equal parts. -/
theorem beq_induct {motive : Fn α → Fn α → Prop}
    (value : ∀ f g v w, f.value? = some v → g.value? = some w → (v == w) = true → motive f g)
    (undefined : motive undefined undefined)
    (unary : ∀ k k' s s' inner inner', (k == k') = true → (s == s') = true →
      Option.Rel (fun f g => (f == g) = true ∧ motive f g) inner inner' →
        motive (unary k s inner) (unary k' s' inner'))
    (sum : ∀ ts us, List.Forall₂ (fun t u => (t == u) = true ∧ motive t u) ts us →
      motive (sum ts) (sum us))
    (product : ∀ fs gs, List.Forall₂ (fun f g => (f == g) = true ∧ motive f g) fs gs →
      motive (product fs) (product gs))
    (quotient : ∀ n d n' d', (n == n') = true → (d == d') = true → motive n n' → motive d d' →
      motive (quotient n d) (quotient n' d'))
    (piecewise : ∀ ss ts, List.Forall₂ (fun s t => (s.range == t.range) = true ∧
      (s.payload == t.payload) = true ∧ motive s.payload t.payload) ss ts →
        motive (piecewise ss) (piecewise ts))
    {f g : Fn α} (h : (f == g) = true) : motive f g := by
  have constant {f g : Fn α} {v : α} (hv : f.value? = some v) (h : (f == g) = true) :
      motive f g := by
    rw [beq_of_value hv, Option.any_eq_true] at h
    obtain ⟨w, hw, hvw⟩ := h
    exact value f g v w hv hw hvw
  induction f generalizing g with
  | zero | one | const v => exact constant rfl h
  | undefined =>
    obtain rfl := eq_undefined_of_kind (kind_of_beq h)
    exact undefined
  | plain k s =>
    obtain ⟨k', s', inner', -, rfl⟩ := exists_unary_of_kind (kind_of_beq h)
    simp only [unary_beq_unary, Bool.and_eq_true] at h
    obtain ⟨⟨hs, hk⟩, hi⟩ := h
    cases inner' with
    | none => exact unary _ _ _ _ _ _ hk hs .none
    | some g => cases hi
  | chain k s f ih =>
    obtain ⟨k', s', inner', -, rfl⟩ := exists_unary_of_kind (kind_of_beq h)
    simp only [unary_beq_unary, Bool.and_eq_true] at h
    obtain ⟨⟨hs, hk⟩, hi⟩ := h
    cases inner' with
    | none => cases hi
    | some g => exact unary _ _ _ _ _ _ hk hs (.some ⟨hi, ih hi⟩)
  | sum ts ih =>
    obtain ⟨us, rfl⟩ := exists_sum_of_kind (kind_of_beq h)
    refine sum ts us (forall₂_imp_of_mem (fun t ht u htu => ?_) (sum_beq_sum.1 h))
    exact ⟨htu, ih t ht htu⟩
  | product fs ih =>
    obtain ⟨gs, rfl⟩ := exists_product_of_kind (kind_of_beq h)
    refine product fs gs (forall₂_imp_of_mem (fun f hf g hfg => ?_) (product_beq_product.1 h))
    exact ⟨hfg, ih f hf hfg⟩
  | quotient n d ihn ihd =>
    obtain ⟨n', d', rfl⟩ := exists_quotient_of_kind (kind_of_beq h)
    obtain ⟨hn, hd⟩ := quotient_beq_quotient.1 h
    exact quotient n d n' d' hn hd (ihn hn) (ihd hd)
  | piecewise ss ih =>
    obtain ⟨ts, rfl⟩ := exists_piecewise_of_kind (kind_of_beq h)
    refine piecewise ss ts (forall₂_imp_of_mem (fun s hs t hst => ?_) (piecewise_beq_piecewise.1 h))
    exact ⟨hst.1, hst.2, ih s hs hst.2⟩

omit [LawfulScalar α] in
theorem hasNoNaN_of_value {f : Fn α} {v : α} (hv : f.value? = some v)
    (h : Scalar.isNaN v = false) : f.HasNoNaN := by
  cases f <;> cases hv
  · exact numbers_zero
  · exact numbers_one
  · exact (numbers_const v).2 h

omit [LawfulScalar α] in
theorem kernel_beq_iff {k k' : Kernel α} :
    (k == k') = true ↔ k.kind = k'.kind ∧ (k.parameters == k'.parameters) = true := by
  simp [BEq.beq]

/-- Equal functions have no NaN. -/
theorem hasNoNaN_of_beq {f g : Fn α} (h : (f == g) = true) : f.HasNoNaN ∧ g.HasNoNaN := by
  have all {fs gs : List (Fn α)}
      (h : List.Forall₂ (fun f g => (f == g) = true ∧ f.HasNoNaN ∧ g.HasNoNaN) fs gs) :
      (∀ f ∈ fs, f.HasNoNaN) ∧ ∀ g ∈ gs, g.HasNoNaN := by
    induction h with
    | nil => simp
    | cons h _ ih =>
      exact ⟨List.forall_mem_cons.2 ⟨h.2.1, ih.1⟩, List.forall_mem_cons.2 ⟨h.2.2, ih.2⟩⟩
  refine beq_induct (motive := fun f g => f.HasNoNaN ∧ g.HasNoNaN) (fun f g v w hv hw hvw => ?_)
    ⟨numbers_undefined, numbers_undefined⟩ (fun k k' s s' inner inner' hk hs hi => ?_)
    (fun ts us h => ?_) (fun fs gs h => ?_) (fun n d n' d' _ _ hn hd => ?_) (fun ss ts h => ?_) h
  · have hnan := Scalar.isNaN_of_beq hvw
    exact ⟨hasNoNaN_of_value hv hnan.1, hasNoNaN_of_value hw hnan.2⟩
  · have hscales := Scalar.isNaN_of_beq hs
    have hparameters := isNaN_of_beq_list (kernel_beq_iff.1 hk).2
    have hinner : (∀ f ∈ inner, f.HasNoNaN) ∧ ∀ g ∈ inner', g.HasNoNaN := by
      cases hi with
      | none => simp
      | some h => simpa using h.2
    exact ⟨(numbers_unary ..).2 ⟨hscales.1, hparameters.1, hinner.1⟩,
      (numbers_unary ..).2 ⟨hscales.2, hparameters.2, hinner.2⟩⟩
  · exact ⟨(numbers_sum ts).2 (all h).1, (numbers_sum us).2 (all h).2⟩
  · exact ⟨(numbers_product fs).2 (all h).1, (numbers_product gs).2 (all h).2⟩
  · exact ⟨(numbers_quotient n d).2 ⟨hn.1, hd.1⟩, (numbers_quotient n' d').2 ⟨hn.2, hd.2⟩⟩
  · rw [HasNoNaN, HasNoNaN, numbers_piecewise, numbers_piecewise]
    induction h with
    | nil => simp
    | cons h _ ih =>
      obtain ⟨hlow, -, hhigh, -⟩ := Interval.beq_iff_bounds.1 h.1
      have hlow := Scalar.isNaN_of_beq hlow
      have hhigh := Scalar.isNaN_of_beq hhigh
      exact ⟨List.forall_mem_cons.2 ⟨⟨⟨hlow.1, hhigh.1⟩, h.2.2.1⟩, ih.1⟩,
        List.forall_mem_cons.2 ⟨⟨⟨hlow.2, hhigh.2⟩, h.2.2.2⟩, ih.2⟩⟩

/-- Equality is comparison without a difference, among functions without NaN. -/
theorem beq_iff_compare {f g : Fn α} :
    (f == g) = true ↔ f.HasNoNaN ∧ g.HasNoNaN ∧ f.compare g = .eq := by
  constructor
  · intro h
    obtain ⟨hf, hg⟩ := hasNoNaN_of_beq h
    exact ⟨hf, hg, (compare_eq_iff hf hg).2 h⟩
  · rintro ⟨hf, hg, h⟩
    exact (compare_eq_iff hf hg).1 h

theorem CountsAs.beq {f g : Fn α} (h : f.CountsAs g) (hg : g.HasNoNaN) : (f == g) = true := by
  rcases h with rfl | h
  · have hswap : f.compare f = (f.compare f).swap := compareWith_swap false f f
    refine beq_iff_compare.2 ⟨hg, hg, ?_⟩
    cases h : f.compare f <;> simp_all
  · exact h

instance : PartialEquivBEq (Fn α) where
  symm {f g} h := by
    obtain ⟨hf, hg, hfg⟩ := beq_iff_compare.1 h
    have hswap : g.compare f = (f.compare g).swap := compareWith_swap false f g
    exact beq_iff_compare.2 ⟨hg, hf, by rw [hswap, hfg]; rfl⟩
  trans {f g h} hfg hgh := by
    obtain ⟨hf, hg, hfg⟩ := beq_iff_compare.1 hfg
    obtain ⟨-, hh, hgh⟩ := beq_iff_compare.1 hgh
    have hfh : f.compare h = (f.compare g).then (g.compare h) :=
      compareWith_consistent false hf hg hh (by rw [← compare, hfg]; rfl)
        (by rw [← compare, hgh]; rfl)
    exact beq_iff_compare.2 ⟨hf, hh, by rw [hfh, hfg, hgh]; rfl⟩

/-- Equal functions have equal scales. -/
theorem scale_beq_of_beq {f g : Fn α} (h : (f == g) = true) : (f.scale == g.scale) = true := by
  obtain ⟨hf, hg, hfg⟩ := beq_iff_compare.1 h
  exact (Scalar.cmp_eq_iff hf.scale hg.scale).1 (cmp_scale_of_compareWith hfg)

end Fn

end Equal

end FunctionAlgebra
