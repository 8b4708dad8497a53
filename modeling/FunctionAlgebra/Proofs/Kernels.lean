import FunctionAlgebra.Fn.Scale
import FunctionAlgebra.Proofs.Induction
import FunctionAlgebra.Proofs.Numbers

/-!
# The standard functions in a function

## Main definitions

* `Fn.Kernels` — all standard functions in a tree satisfy a condition.

## Main statements

* `Fn.Kernels.scaleBy`, `Fn.Kernels.withScale` — scaling brings in no other standard functions than
  powers.
-/

namespace FunctionAlgebra.Fn

variable {α : Type}

mutual

def Kernels (K : Kernel α → Prop) : Fn α → Prop
  | zero | one | const _ | undefined => True
  | unary k _ none => K k
  | unary k _ (some f) => K k ∧ f.Kernels K
  | sum ts => KernelsAll K ts
  | product fs => KernelsAll K fs
  | quotient n d => n.Kernels K ∧ d.Kernels K
  | piecewise segments => KernelsSegments K segments

def KernelsAll (K : Kernel α → Prop) : List (Fn α) → Prop
  | [] => True
  | f :: fs => f.Kernels K ∧ KernelsAll K fs

def KernelsSegments (K : Kernel α → Prop) : List (Segment α (Fn α)) → Prop
  | [] => True
  | ⟨_, f⟩ :: rest => f.Kernels K ∧ KernelsSegments K rest

end

variable {K : Kernel α → Prop}

theorem kernelsAll_iff (fs : List (Fn α)) : KernelsAll K fs ↔ ∀ f ∈ fs, f.Kernels K := by
  induction fs with
  | nil => simp [KernelsAll]
  | cons f fs ih => simp [KernelsAll, ih]

theorem kernelsSegments_iff (segments : List (Segment α (Fn α))) :
    KernelsSegments K segments ↔ ∀ s ∈ segments, s.payload.Kernels K := by
  induction segments with
  | nil => simp [KernelsSegments]
  | cons s rest ih => simp [KernelsSegments, ih]

@[simp] theorem kernels_zero : (zero : Fn α).Kernels K := trivial

@[simp] theorem kernels_one : (one : Fn α).Kernels K := trivial

@[simp] theorem kernels_const (v : α) : (const v).Kernels K := trivial

@[simp] theorem kernels_undefined : (undefined : Fn α).Kernels K := trivial

@[simp] theorem kernels_unary (k : Kernel α) (s : α) (inner : Option (Fn α)) :
    (unary k s inner).Kernels K ↔ K k ∧ ∀ f ∈ inner, f.Kernels K := by
  cases inner <;> simp [Kernels]

@[simp] theorem kernels_sum (ts : List (Fn α)) :
    (sum ts).Kernels K ↔ ∀ t ∈ ts, t.Kernels K := kernelsAll_iff ts

@[simp] theorem kernels_product (fs : List (Fn α)) :
    (product fs).Kernels K ↔ ∀ f ∈ fs, f.Kernels K := kernelsAll_iff fs

@[simp] theorem kernels_quotient (n d : Fn α) :
    (quotient n d).Kernels K ↔ n.Kernels K ∧ d.Kernels K := Iff.rfl

@[simp] theorem kernels_piecewise (segments : List (Segment α (Fn α))) :
    (piecewise segments).Kernels K ↔ ∀ s ∈ segments, s.payload.Kernels K :=
  kernelsSegments_iff segments

theorem kernels_of_forall (hK : ∀ k, K k) (f : Fn α) : f.Kernels K := by
  induction f <;> simp_all

theorem Kernels.toTerms {f : Fn α} (h : f.Kernels K) : ∀ t ∈ f.toTerms, t.Kernels K := by
  cases f <;> simp_all [Fn.toTerms]

theorem Kernels.toFactors {f : Fn α} (h : f.Kernels K) : ∀ t ∈ f.toFactors, t.Kernels K := by
  cases f <;> simp_all [Fn.toFactors]

theorem Kernels.mono {K' : Kernel α → Prop} {f : Fn α} (h : f.Kernels K)
    (hK : ∀ {k}, K k → K' k) : f.Kernels K' := by
  induction f with
  | zero | one | const v | undefined => simp
  | plain k s =>
    obtain ⟨hk, -⟩ := (kernels_unary ..).1 h
    simpa using hK hk
  | chain k s f ih =>
    obtain ⟨hk, hf⟩ := (kernels_unary ..).1 h
    simpa using ⟨hK hk, ih (hf f rfl)⟩
  | sum ts ih =>
    rw [kernels_sum] at h ⊢
    exact fun t ht => ih t ht (h t ht)
  | product fs ih =>
    rw [kernels_product] at h ⊢
    exact fun f hf => ih f hf (h f hf)
  | quotient n d ihn ihd =>
    rw [kernels_quotient] at h ⊢
    exact ⟨ihn h.1, ihd h.2⟩
  | piecewise segments ih =>
    rw [kernels_piecewise] at h ⊢
    exact fun s hs => ih s hs (h s hs)

/-- A condition on parameters carries over to the standard functions. -/
theorem Numbers.kernels {P B : α → Prop} (hK : ∀ k : Kernel α, (∀ p ∈ k.parameters, P p) → K k)
    {f : Fn α} (h : f.Numbers P B) : f.Kernels K := by
  induction f with
  | zero | one | const v | undefined => simp
  | plain k s => simpa using hK k ((numbers_unary ..).1 h).2.1
  | chain k s f ih =>
    obtain ⟨-, hk, hf⟩ := (numbers_unary ..).1 h
    simpa using ⟨hK k hk, ih (hf f rfl)⟩
  | sum ts ih =>
    rw [numbers_sum] at h
    exact (kernels_sum ts).2 fun t ht => ih t ht (h t ht)
  | product fs ih =>
    rw [numbers_product] at h
    exact (kernels_product fs).2 fun f hf => ih f hf (h f hf)
  | quotient n d ihn ihd =>
    rw [numbers_quotient] at h
    exact (kernels_quotient n d).2 ⟨ihn h.1, ihd h.2⟩
  | piecewise segments ih =>
    rw [numbers_piecewise] at h
    exact (kernels_piecewise segments).2 fun s hs => ih s hs (h s hs).2

variable [Scalar α]

theorem kernels_ofValue (v : α) : (ofValue v).Kernels K := by
  rw [ofValue]
  split_ifs <;> simp

/-- A condition that all powers satisfy is kept by scaling. -/
theorem kernels_scaled (hK : ∀ p, K (.power p)) {k : Kernel α} {s : α} {inner : Option (Fn α)}
    (hk : K k) (h : ∀ f ∈ inner, f.Kernels K) : (scaled k s inner).Kernels K := by
  refine (kernels_unary ..).2 ⟨?_, h⟩
  cases k <;> first | exact hk | exact hK _

theorem Kernels.scaleBy (hK : ∀ p, K (.power p)) {f : Fn α} (c : α) (h : f.Kernels K) :
    (f.scaleBy c).Kernels K := by
  refine scaleBy_induct (motive := fun f g => f.Kernels K → g.Kernels K) c
    (fun f h => h) (fun f _ => kernels_zero) (fun f v _ _ => kernels_ofValue _)
    (fun _ k s inner h => ?_) (fun ts ih h => ?_) (fun f fs ih h => ?_) (fun n d ih h => ?_)
    (fun segments ih h => ?_) f h
  · rw [kernels_unary] at h
    exact kernels_scaled hK h.1 h.2
  · simp only [kernels_sum, List.forall_mem_map] at h ⊢
    exact fun t ht => ih t ht (h t ht)
  · simp only [kernels_product, List.forall_mem_cons] at h ⊢
    exact ⟨ih h.1, h.2⟩
  · rw [kernels_quotient] at h ⊢
    exact ⟨ih h.1, h.2⟩
  · simp only [kernels_piecewise, List.forall_mem_map] at h ⊢
    exact fun s hs => ih s hs (h s hs)

theorem Kernels.withScale (hK : ∀ p, K (.power p)) {f : Fn α} (c : α) (h : f.Kernels K) :
    (f.withScale c).Kernels K := by
  refine withScale_induct (motive := fun f g => f.Kernels K → g.Kernels K) c
    (fun f h => h) (fun f v _ _ => kernels_ofValue c) (fun k s inner h => ?_)
    (fun n d ih h => ?_) (fun f h => h.scaleBy hK _) f h
  · rw [kernels_unary] at h
    exact kernels_scaled hK h.1 h.2
  · rw [kernels_quotient] at h ⊢
    exact ⟨ih h.1, h.2⟩

end FunctionAlgebra.Fn
