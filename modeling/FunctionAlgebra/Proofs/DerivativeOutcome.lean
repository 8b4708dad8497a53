import FunctionAlgebra.Fn.Derivative
import FunctionAlgebra.Proofs.Termination

/-!
# Derivatives end

A derivative is taken part by part, and every part of it is simplified. What can fail besides
simplification is to shift a sine by a right angle.

## Main definitions

* `Fn.DerivativeFailures` — the failures that derivatives of certain standard functions may cause.

## Main statements

* `Fn.derivative_meets` — the derivative of a function has a result.
-/

namespace FunctionAlgebra.Fn

variable {α : Type} [Scalar α] {E : Failure α → Prop} {K K' : Kernel α → Prop}

/-! ## Lists -/

theorem derivatives_eq_mapM (fs : List (Fn α)) : derivatives fs = fs.mapM derivative := by
  induction fs with
  | nil => rw [derivatives, List.mapM_nil]
  | cons f fs ih => rw [derivatives, List.mapM_cons, ih]

def segmentDerivative (s : Segment α (Fn α)) : Attempt α (Segment α (Fn α)) := do
  let d ← s.payload.derivative
  return ⟨s.range, d⟩

theorem segmentDerivatives_eq_mapM (segments : List (Segment α (Fn α))) :
    segmentDerivatives segments = segments.mapM segmentDerivative := by
  induction segments with
  | nil => rw [segmentDerivatives, List.mapM_nil]
  | cons s rest ih =>
    rw [segmentDerivatives, List.mapM_cons, ih]
    simp [segmentDerivative]

/-! ## Standard functions -/

theorem derivative_chain {k : Kernel α} (hk : k ≠ .logarithm) (s : α) (f : Fn α) :
    (unary k s (some f)).derivative =
      if s == 0 then pure zero else (do
        let outer ← k.derivative s (some f)
        let df ← f.derivative
        (product [outer, df]).simplify) := by
  cases k with
  | logarithm => exact (hk rfl).elim
  | _ => rw [derivative]; simp

/-- Functions whose standard functions all satisfy `K` have derivatives whose standard functions all
satisfy `K'`, or fail to have one for a failure in `E`. -/
structure DerivativeFailures (E : Failure α → Prop) (K K' : Kernel α → Prop) : Prop
    extends Failures E K' where
  keeps : ∀ {k}, K k → K' k
  turn : ∀ {omega shift}, K (.sine omega shift) →
    (monadLift (Angle.aroundZero (shift + Scalar.quarterTurn)) : Attempt α α).Meets E
      fun shift' => K' (.sine omega shift')

theorem kernels_power (hE : Failures E K) {inner : Option (Fn α)} (s p : α)
    (h : ∀ f ∈ inner, f.Kernels K) : (power inner s p).Kernels K :=
  kernels_scaled hE.power (hE.power p) h

theorem kernelDerivative_meets (hE : DerivativeFailures E K K') {k : Kernel α} (s : α)
    {inner : Option (Fn α)} (hk : K k) (h : ∀ f ∈ inner, f.Kernels K') :
    (monadLift (k.derivative s inner) : Attempt α (Fn α)).Meets E fun g => g.Kernels K' := by
  have hpower (s p : α) := kernels_power hE.toFailures s p h
  cases k with
  | power p =>
    refine .lift (.ok _) fun g hg => ?_
    obtain rfl := Except.ok.inj hg
    split_ifs
    · exact kernels_zero
    · exact kernels_const s
    · exact hpower _ _
  | sine omega shift =>
    have hturn := hE.turn hk
    refine .lift (.bind (fun e he => hturn.of_error he) fun _ _ => .ok _) fun g hg => ?_
    cases hshift : Angle.aroundZero (shift + Scalar.quarterTurn) with
    | error e => simp [Kernel.derivative, hshift, bind, Except.bind] at hg
    | ok shift' =>
      obtain rfl : scaled (.sine omega shift') (s * omega) inner = g := by
        simpa [Kernel.derivative, hshift, bind, Except.bind, pure, Except.pure] using hg
      exact kernels_scaled hE.power (hturn.of_ok hshift) h
  | arcSine shift =>
    exact .lift (.ok _) fun g hg => Except.ok.inj hg ▸
      kernels_power hE.toFailures _ _ (by simpa using hpower (-1) Scalar.two)
  | arcTangent shift =>
    refine .lift (.ok _) fun g hg => Except.ok.inj hg ▸ ?_
    exact (kernels_quotient ..).2 ⟨kernels_const s, by simpa using hpower 1 Scalar.two⟩
  | exponential =>
    exact .lift (.ok _) fun g hg => Except.ok.inj hg ▸ kernels_scaled hE.power (hE.keeps hk) h
  | logarithm => exact .lift (.ok _) fun g hg => Except.ok.inj hg ▸ hpower _ _

/-! ## Products -/

omit [Scalar α] in
/-- The terms of the product rule are products of derivatives and factors. -/
theorem mem_productRule {before fs ds : List (Fn α)} {t : Fn α}
    (h : t ∈ productRule before fs ds) :
    ∃ gs, t = product gs ∧ gs ≠ [] ∧ ∀ g ∈ gs, g ∈ before ∨ g ∈ fs ∨ g ∈ ds := by
  induction fs generalizing before ds with
  | nil => simp [productRule] at h
  | cons f fs ih =>
    cases ds with
    | nil => simp [productRule] at h
    | cons d ds =>
      have hrest (h : t ∈ productRule (before ++ [f]) fs ds) :
          ∃ gs, t = product gs ∧ gs ≠ [] ∧ ∀ g ∈ gs, g ∈ before ∨ g ∈ f :: fs ∨ g ∈ d :: ds := by
        obtain ⟨gs, rfl, hne, hgs⟩ := ih h
        refine ⟨gs, rfl, hne, fun g hg => ?_⟩
        have := hgs g hg
        rw [List.mem_append, List.mem_singleton] at this
        simp only [List.mem_cons]
        tauto
      simp only [productRule] at h
      split_ifs at h
      · exact hrest h
      · rcases List.mem_cons.1 h with rfl | h
        · refine ⟨before ++ d :: fs, rfl, by simp, fun g hg => ?_⟩
          simp only [List.mem_append, List.mem_cons] at hg ⊢
          tauto
        · exact hrest h

omit [Scalar α] in
theorem productRule_kernels {fs ds : List (Fn α)} (hf : ∀ f ∈ fs, f.Kernels K)
    (hd : ∀ d ∈ ds, d.Kernels K) : ∀ t ∈ productRule [] fs ds, t.Kernels K := by
  intro t ht
  obtain ⟨gs, rfl, -, hgs⟩ := mem_productRule ht
  refine (kernels_product gs).2 fun g hg => ?_
  rcases hgs g hg with hg | hg | hg
  · cases hg
  · exact hf g hg
  · exact hd g hg

/-! ## Derivatives -/

variable [LawfulScalar α]

omit [Scalar α] [LawfulScalar α] in
theorem zero_meets : (pure zero : Attempt α (Fn α)).Meets E fun g => g.Kernels K' :=
  .pure kernels_zero

theorem chain_derivative_meets (hE : DerivativeFailures E K K') {k : Kernel α} {f : Fn α} (s : α)
    (hk : K k) (hf : f.Kernels K) (ih : f.derivative.Meets E fun g => g.Kernels K') :
    (unary k s (some f)).derivative.Meets E fun g => g.Kernels K' := by
  have hf' : f.Kernels K' := hf.mono hE.keeps
  by_cases hlog : k = .logarithm
  · subst hlog
    rw [derivative]
    split
    · exact zero_meets
    · refine ih.bind fun df hdf => simplify_meets hE.toFailures ?_
      exact (kernels_quotient ..).2 ⟨hdf.scaleBy hE.power s, hf'⟩
  · rw [derivative_chain hlog]
    split
    · exact zero_meets
    · refine (kernelDerivative_meets hE s hk (by simpa using hf')).bind fun g hg => ?_
      refine ih.bind fun df hdf => simplify_meets hE.toFailures ?_
      simpa using ⟨hg, hdf⟩

theorem product_derivative_meets (hE : DerivativeFailures E K K') {fs : List (Fn α)}
    (h : ∀ f ∈ fs, f.Kernels K)
    (ih : ∀ f ∈ fs, f.derivative.Meets E fun g => g.Kernels K') :
    (product fs).derivative.Meets E fun g => g.Kernels K' := by
  rw [derivative, derivatives_eq_mapM]
  refine (Attempt.Meets.mapM ih).bind fun ds hds => ?_
  have hrule : ∀ t ∈ productRule [] fs ds, t.Kernels K' := by
    refine productRule_kernels (fun f hf => (h f hf).mono hE.keeps) fun d hd => ?_
    obtain ⟨f, -, hd⟩ := exists_mem_of_forall₂ hds hd
    exact hd
  split
  · exact zero_meets
  · exact simplify_meets hE.toFailures ((kernels_sum _).2 hrule)

theorem quotient_derivative_meets (hE : DerivativeFailures E K K') {n d : Fn α}
    (hn : n.Kernels K) (hd : d.Kernels K) (ihn : n.derivative.Meets E fun g => g.Kernels K')
    (ihd : d.derivative.Meets E fun g => g.Kernels K') :
    (quotient n d).derivative.Meets E fun g => g.Kernels K' := by
  have hn' : n.Kernels K' := hn.mono hE.keeps
  have hd' : d.Kernels K' := hd.mono hE.keeps
  rw [derivative]
  refine ihn.bind fun dn hdn => ihd.bind fun dd hdd => ?_
  have hcross : (product [n, dd]).Kernels K' := by simpa using ⟨hn', hdd⟩
  have htop : (sum [product [dn, d], scaleBy (-1) (product [n, dd])]).Kernels K' := by
    simpa using ⟨⟨hdn, hd'⟩, hcross.scaleBy hE.power (-1)⟩
  refine (simplify_meets hE.toFailures htop).bind fun top ht => ?_
  split
  · exact zero_meets
  have hbottom : (product [d, d]).Kernels K' := by simpa using hd'
  refine (simplify_meets hE.toFailures hbottom).bind fun bottom hb => ?_
  split
  · exact .pure ht
  · exact simplify_meets hE.toFailures ((kernels_quotient ..).2 ⟨ht, hb⟩)

/-- The derivative of a function has a result, or fails for a sine. -/
theorem derivative_meets (hE : DerivativeFailures E K K') {f : Fn α} (h : f.Kernels K) :
    f.derivative.Meets E fun g => g.Kernels K' := by
  induction f with
  | zero | one | const v | undefined =>
    rw [derivative]
    exact .pure (by simp)
  | plain k s =>
    rw [derivative]
    split
    · exact zero_meets
    · obtain ⟨hk, -⟩ := (kernels_unary ..).1 h
      exact (kernelDerivative_meets hE s hk (by simp)).bind fun g hg =>
        simplify_meets hE.toFailures hg
  | chain k s f ih =>
    obtain ⟨hk, hi⟩ := (kernels_unary ..).1 h
    exact chain_derivative_meets hE s hk (hi f rfl) (ih (hi f rfl))
  | sum ts ih =>
    rw [kernels_sum] at h
    rw [derivative, derivatives_eq_mapM]
    refine (Attempt.Meets.mapM fun t ht => ih t ht (h t ht)).bind fun ds hds => ?_
    refine simplify_meets hE.toFailures ((kernels_sum ds).2 fun d hd => ?_)
    obtain ⟨t, -, hd⟩ := exists_mem_of_forall₂ hds hd
    exact hd
  | product fs ih =>
    rw [kernels_product] at h
    exact product_derivative_meets hE h fun f hf => ih f hf (h f hf)
  | quotient n d ihn ihd =>
    obtain ⟨hn, hd⟩ := (kernels_quotient n d).1 h
    exact quotient_derivative_meets hE hn hd (ihn hn) (ihd hd)
  | piecewise segments ih =>
    rw [kernels_piecewise] at h
    rw [derivative, segmentDerivatives_eq_mapM]
    have hparts : (segments.mapM segmentDerivative).Meets E
        (List.Forall₂ (fun _ t => t.payload.Kernels K') segments) :=
      Attempt.Meets.mapM fun s hs => (ih s hs (h s hs)).bind fun g hg => .pure hg
    refine hparts.bind fun parts hp => .pure ((kernels_piecewise _).2 fun t ht => ?_)
    obtain ⟨s, -, ht⟩ := exists_mem_of_forall₂ hp ht
    exact ht

end FunctionAlgebra.Fn
