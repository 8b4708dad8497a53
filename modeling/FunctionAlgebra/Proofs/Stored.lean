import FunctionAlgebra.Fn.CheckedScale
import FunctionAlgebra.Proofs.Induction
import FunctionAlgebra.Proofs.WellFormed

/-!
# Functions as they are stored

Constructors refuse empty sums and products, and they store a power with scale zero with exponent
one. Multiples of functions that are stored in this way are built from parts that are stored in this
way, so none of the checks fails that are made again for each multiple.

## Main definitions

* `Fn.Stored` — sums and products have parts, and the exponents of powers fit their scales.

## Main statements

* `Fn.inherited_stored` — what constructors make is stored.
* `Fn.checkedScaleBy_eq`, `Fn.checkedWithScale_eq` — scaling does not fail.
-/

namespace FunctionAlgebra

variable {α : Type} [Scalar α]

theorem Kernel.atScale_atScale (k : Kernel α) (s : α) : (k.atScale s).atScale s = k.atScale s := by
  cases k with
  | power p => simp only [atScale]; split_ifs <;> rfl
  | _ => rfl

namespace Fn

/-- Sums and products have parts, and a power with scale zero has exponent one. -/
inductive Stored : Fn α → Prop where
  | value {f v} (hv : f.value? = some v) : Stored f
  | undefined : Stored undefined
  | plain {k s} (hk : Kernel.atScale k s = k) : Stored (unary k s none)
  | chain {k s f} (hk : Kernel.atScale k s = k) (hf : Stored f) : Stored (unary k s (some f))
  | sum {ts : List (Fn α)} (hne : ts ≠ []) (ht : ∀ t ∈ ts, Stored t) : Stored (sum ts)
  | product {fs : List (Fn α)} (hne : fs ≠ []) (hf : ∀ f ∈ fs, Stored f) : Stored (product fs)
  | quotient {n d} (hn : Stored n) (hd : Stored d) : Stored (quotient n d)
  | piecewise {segments : List (Segment α (Fn α))} (hs : ∀ s ∈ segments, Stored s.payload) :
    Stored (piecewise segments)

namespace Stored

theorem scaled {k : Kernel α} {s : α} {inner : Option (Fn α)} (h : ∀ f ∈ inner, f.Stored) :
    (scaled k s inner).Stored := by
  cases inner with
  | none => exact .plain (k.atScale_atScale s)
  | some f => exact .chain (k.atScale_atScale s) (h f rfl)

theorem inner {k : Kernel α} {s : α} {inner : Option (Fn α)} (h : (unary k s inner).Stored) :
    ∀ f ∈ inner, f.Stored := by
  cases h with
  | value hv => cases hv
  | plain => simp
  | chain _ hf => simpa using hf

theorem terms {ts : List (Fn α)} (h : (Fn.sum ts).Stored) : ts ≠ [] ∧ ∀ t ∈ ts, t.Stored := by
  cases h with
  | value hv => cases hv
  | sum hne ht => exact ⟨hne, ht⟩

theorem factors {fs : List (Fn α)} (h : (Fn.product fs).Stored) :
    fs ≠ [] ∧ ∀ f ∈ fs, f.Stored := by
  cases h with
  | value hv => cases hv
  | product hne hf => exact ⟨hne, hf⟩

theorem parts {n d : Fn α} (h : (Fn.quotient n d).Stored) : n.Stored ∧ d.Stored := by
  cases h with
  | value hv => cases hv
  | quotient hn hd => exact ⟨hn, hd⟩

theorem payloads {segments : List (Segment α (Fn α))} (h : (Fn.piecewise segments).Stored) :
    ∀ s ∈ segments, s.payload.Stored := by
  cases h with
  | value hv => cases hv
  | piecewise hs => exact hs

theorem ofValue (v : α) : (ofValue v).Stored := by
  unfold Fn.ofValue
  split_ifs
  exacts [.value rfl, .value rfl, .undefined, .value rfl]

/-- Multiples are stored like the function. -/
theorem scaleBy {f : Fn α} (h : f.Stored) (c : α) : (f.scaleBy c).Stored := by
  have hrel : f.Stored → (f.scaleBy c).Stored := by
    refine scaleBy_induct c (motive := fun f g => f.Stored → g.Stored) (fun f h => h)
      (fun f h => .value rfl) (fun f v hv h => ofValue _) (fun hc k s inner h => scaled h.inner)
      (fun ts ih h => ?_) (fun f fs ih h => ?_) (fun n d ih h => ?_) (fun segments ih h => ?_) f
    · obtain ⟨hne, ht⟩ := h.terms
      exact .sum (by simpa using hne) (by simpa using fun t hmem => ih t hmem (ht t hmem))
    · obtain ⟨-, hf⟩ := h.factors
      rw [List.forall_mem_cons] at hf
      exact .product (by simp) (List.forall_mem_cons.2 ⟨ih hf.1, hf.2⟩)
    · exact .quotient (ih h.parts.1) h.parts.2
    · exact .piecewise (by simpa [Segment.map] using fun s hs => ih s hs (h.payloads s hs))
  exact hrel h

end Stored

/-- Multiples are well-formed like the function: segments keep their ranges. -/
theorem WellFormed.scaleBy [LineScalar α] {f : Fn α} (h : f.WellFormed) (c : α) :
    (f.scaleBy c).WellFormed := by
  have hrel : f.WellFormed → (f.scaleBy c).WellFormed := by
    refine scaleBy_induct c (motive := fun f g => f.WellFormed → g.WellFormed) (fun f h => h)
      (fun f h => .value rfl) (fun f v hv h => ?_) (fun hc k s inner h => .scaled ?_)
      (fun ts ih h => ?_) (fun f fs ih h => ?_) (fun n d ih h => ?_) (fun segments ih h => ?_) f
    · unfold ofValue
      split_ifs
      exacts [.value rfl, .value rfl, .undefined, .value rfl]
    · cases h with
      | value hv => cases hv
      | plain => simp
      | chain hf => simpa using hf
    · cases h with
      | value hv => cases hv
      | sum ht => exact .sum (by simpa using fun t hmem => ih t hmem (ht t hmem))
    · cases h with
      | value hv => cases hv
      | product hne hf =>
        rw [List.forall_mem_cons] at hf
        exact .product (by simp) (List.forall_mem_cons.2 ⟨ih hf.1, hf.2⟩)
    · cases h with
      | value hv => cases hv
      | quotient hn hd => exact .quotient (ih hn) hd
    · cases h with
      | value hv => cases hv
      | piecewise htiles hs =>
        exact .piecewise (htiles.map _)
          (by simpa [Segment.map] using fun s hmem => ih s hmem (hs s hmem))
  exact hrel h

/-- What constructors make is stored. -/
theorem inherited_stored [LineScalar α] : Inherited (Stored : Fn α → Prop) where
  const v := .value rfl
  undefined := .undefined
  scaled := .scaled
  sum := .sum
  product := .product
  quotient := .quotient
  ofSegments h f hf := by
    obtain ⟨-, -, tiles, rfl, -, gaps, hperm, hgaps⟩ := ofSegments_eq_ok (fun s hs => (h s hs).1) hf
    refine .piecewise fun s hs => ?_
    rcases List.mem_append.1 (hperm.mem_iff.1 hs) with hs | hs
    · exact (h s hs).2
    · exact hgaps s hs ▸ .undefined

/-! ## Checked scaling -/

section Checked

variable {c : α}

theorem checkedScaleAll_eq {ts : List (Fn α)}
    (h : ∀ t ∈ ts, t.checkedScaleBy c = .ok (t.scaleBy c)) :
    checkedScaleAll c ts = .ok (scaleAll c ts) := by
  induction ts with
  | nil => rfl
  | cons t ts ih =>
    rw [List.forall_mem_cons] at h
    rw [checkedScaleAll, h.1, ih h.2]
    rfl

theorem checkedScalePayloads_eq {segments : List (Segment α (Fn α))}
    (h : ∀ s ∈ segments, s.payload.checkedScaleBy c = .ok (s.payload.scaleBy c)) :
    checkedScalePayloads c segments = .ok (scalePayloads c segments) := by
  induction segments with
  | nil => rfl
  | cons s segments ih =>
    rw [List.forall_mem_cons] at h
    rw [checkedScalePayloads, h.1, ih h.2]
    rfl

omit [Scalar α] in
theorem checkedSum_eq {ts : List (Fn α)} (hne : ts ≠ []) : checkedSum ts = .ok (sum ts) :=
  if_neg (by simpa using hne)

omit [Scalar α] in
theorem checkedProduct_eq {fs : List (Fn α)} (hne : fs ≠ []) :
    checkedProduct fs = .ok (product fs) :=
  if_neg (by simpa using hne)

variable [LineScalar α]

/-- Multiples can be built. -/
theorem checkedScaleBy_eq {f : Fn α} (hw : f.WellFormed) (hs : f.Stored) (c : α) :
    f.checkedScaleBy c = .ok (f.scaleBy c) := by
  induction hw with
  | @value f v hv => cases f <;> cases hv <;> rfl
  | undefined | plain | chain => rfl
  | @sum ts ht ih =>
    obtain ⟨hne, hts⟩ := hs.terms
    rw [checkedScaleBy, scaleBy]
    split_ifs
    · rfl
    · rfl
    · rw [checkedScaleAll_eq fun t hmem => ih t hmem (hts t hmem), scaleAll_eq_map]
      exact checkedSum_eq (by simpa using hne)
  | @product fs hne hf ih =>
    rw [checkedScaleBy, scaleBy]
    split_ifs
    · rfl
    · rfl
    · cases fs with
      | nil => exact absurd rfl hne
      | cons f fs =>
        have hfs := List.forall_mem_cons.1 hs.factors.2
        have hscaled : f.scaleBy c :: fs ≠ [] := List.cons_ne_nil _ _
        rw [checkedScaleFirst, ih f List.mem_cons_self hfs.1]
        exact checkedProduct_eq hscaled
  | quotient hn hd ihn ihd =>
    rw [checkedScaleBy, scaleBy]
    split_ifs
    · rfl
    · rfl
    · rw [ihn hs.parts.1]
      rfl
  | @piecewise segments htiles hp ih =>
    rw [checkedScaleBy, scaleBy]
    split_ifs
    · rfl
    · rfl
    · rw [checkedScalePayloads_eq fun s hmem => ih s hmem (hs.payloads s hmem),
        scalePayloads_eq_map]
      exact ofSegments_of_tiles (htiles.map _)

/-- A function without a coefficient of its own has coefficient one, so it is multiplied. -/
theorem rescale_eq {f : Fn α} (hw : f.WellFormed) (hs : f.Stored) (h1 : f.scale = 1) (c : α) :
    f.rescale c = .ok (if 1 == c then f else f.scaleBy (c / 1)) := by
  have h10 : ((1 : α) == 0) = false := LawfulScalar.one_beq_zero
  rw [rescale, h1, h10, if_neg Bool.false_ne_true, checkedScaleBy_eq hw hs]
  split_ifs <;> rfl

/-- Leading coefficients can be replaced: no coefficient is zero where one is replaced by
division. -/
theorem checkedWithScale_eq {f : Fn α} (hw : f.WellFormed) (hs : f.Stored) (c : α) :
    f.checkedWithScale c = .ok (f.withScale c) := by
  induction hw with
  | @value f v hv => cases f <;> cases hv <;> rfl
  | plain | chain => rfl
  | undefined => exact rescale_eq .undefined hs rfl c
  | sum ht => exact rescale_eq (.sum ht) hs rfl c
  | product hne hf => exact rescale_eq (.product hne hf) hs rfl c
  | piecewise htiles hp => exact rescale_eq (.piecewise htiles hp) hs rfl c
  | quotient hn hd ihn ihd =>
    rw [checkedWithScale, withScale, ihn hs.parts.1]
    split_ifs <;> rfl

end Checked

end Fn

end FunctionAlgebra
