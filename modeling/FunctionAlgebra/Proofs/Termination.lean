import FunctionAlgebra.Proofs.Lightening
import FunctionAlgebra.Proofs.Rendering

/-!
# Simplification ends

Every call of the recursion is about functions of lower depth, because no part of simplification
makes a list of functions cost more. So the bound on the depth is never met, and the only failures
left are those of sines whose shift is not finite.

## Main definitions

* `Fn.depth` — the depth that simplification may need.
* `Fn.Ends` — a way to simplify has results, and these cost no more, down to a depth.

## Main statements

* `Fn.simplifyWithin_ends`, `Fn.simplify_meets` — simplification has a result.
-/

namespace FunctionAlgebra.Fn

variable {α : Type} [Scalar α] {E : Failure α → Prop} {K : Kernel α → Prop}

/-- The depth that simplification may need. An exponent one takes a step of its own. -/
def depth : Fn α → Nat
  | unary (.power p) _ (some f) =>
    if p == 1 then 2 * f.weight .cost + 1 else 2 * f.weight .cost + 2
  | f => 2 * f.weight .cost

theorem depth_le (f : Fn α) : f.depth ≤ 2 * f.weight .cost := by
  unfold depth
  split
  · rw [weight_chain, Weights.chain_cost]
    split_ifs <;> omega
  · exact Nat.le_refl _

theorem depth_le_netWeight (f : Fn α) : f.depth ≤ 2 * f.netWeight .cost + 1 := by
  unfold depth
  split
  · simp only [netWeight, Weights.chain_cost]
    split_ifs <;> omega
  · rename_i h
    unfold netWeight
    split
    · exact absurd rfl (h _ _ _)
    · exact Nat.le_succ _

theorem depth_pos (f : Fn α) : 1 ≤ f.depth := by
  unfold depth
  split
  · split_ifs <;> omega
  · have := weight_pos (w := .cost) f
    omega

theorem two_mul_weight_inner_lt (k : Kernel α) (s : α) (f : Fn α) :
    2 * f.weight .cost < (unary k s (some f)).depth := by
  cases k <;> simp only [depth, weight_chain, Weights.chain_cost] <;> try omega
  split_ifs <;> omega

/-- Simplified functions cost no more, and those that need no more than the depth `n` have a
simplified form. -/
structure Ends (E : Failure α → Prop) (K : Kernel α → Prop) (n : Nat)
    (simplify : Fn α → Attempt α (Fn α)) : Prop where
  lightens : Lightens .cost simplify
  meets : ∀ f, f.depth ≤ n → f.Kernels K → (simplify f).Meets E fun g => g.Kernels K

variable {n : Nat} {simplify : Fn α → Attempt α (Fn α)}

theorem Ends.of_cost (hs : Ends E K n simplify) {f : Fn α} (hf : 2 * f.weight .cost ≤ n)
    (hk : f.Kernels K) :
    (simplify f).Meets E fun g => g.weight .cost ≤ f.weight .cost ∧ g.Kernels K :=
  (hs.meets f ((depth_le f).trans hf) hk).and_of_ok (hs.lightens.weight_le f)

/-! ## Lists -/

/-- Merging neighbours in a list makes it cost no more. -/
theorem costLaw {merge : Fn α → Fn α → Attempt α (Option (Fn α))}
    (hm : ∀ f g : Fn α, 2 * (f.weight .cost + g.weight .cost) + 1 ≤ n → f.Kernels K →
      g.Kernels K → (merge f g).Meets E fun merged => ∀ h ∈ merged,
        h.weight .cost ≤ f.weight .cost + g.weight .cost ∧ h.Kernels K) :
    MergeLaw E (fun fs => 2 * totalWeight .cost fs + 1 ≤ n ∧ ∀ f ∈ fs, f.Kernels K)
      (fun fs gs => totalWeight .cost gs ≤ totalWeight .cost fs ∧
        ((∀ f ∈ fs, f.Kernels K) → ∀ g ∈ gs, g.Kernels K)) sort merge where
  refl fs := ⟨Nat.le_refl _, id⟩
  trans h g := ⟨g.1.trans h.1, g.2 ∘ h.2⟩
  cons f fs gs h := by
    refine ⟨by simpa using h.1, fun hk => ?_⟩
    rw [List.forall_mem_cons] at hk ⊢
    exact ⟨hk.1, h.2 hk.2⟩
  sort fs :=
    have hp := sortStable_perm less fs
    ⟨(totalWeight_perm hp).le, fun hk g hg => hk g (hp.mem_iff.1 hg)⟩
  keeps h hi := ⟨by have := h.1; omega, h.2 hi.2⟩
  tail hi := by
    simp only [totalWeight_cons, List.forall_mem_cons] at hi
    exact ⟨by omega, hi.2.2⟩
  merge {f g rest} hi := by
    simp only [totalWeight_cons, List.forall_mem_cons] at hi
    obtain ⟨hn, hf, hg, hrest⟩ := hi
    refine (hm f g (by omega) hf hg).mono fun merged h m hmem => ?_
    obtain ⟨hc, hk⟩ := h m hmem
    refine ⟨by simp only [totalWeight_cons]; omega, fun _ => ?_⟩
    rw [List.forall_mem_cons]
    exact ⟨hk, hrest⟩

/-- Simplified parts, taken apart. -/
theorem flatten_ends {fs parts : List (Fn α)} {φ : Fn α → List (Fn α)}
    (hcost : ∀ f, totalWeight .cost (φ f) ≤ f.weight .cost)
    (hkernels : ∀ f : Fn α, f.Kernels K → ∀ g ∈ φ f, g.Kernels K)
    (h : List.Forall₂ (fun f g => g.weight .cost ≤ f.weight .cost ∧ g.Kernels K) fs parts) :
    totalWeight .cost (parts.flatMap φ) ≤ totalWeight .cost fs ∧
      ∀ g ∈ parts.flatMap φ, g.Kernels K := by
  constructor
  · refine (totalWeight_flatMap_le hcost parts).trans (totalWeight_le_of_forall₂ ?_)
    exact h.imp fun _ _ h => h.1
  · intro g hg
    obtain ⟨p, hp, hgp⟩ := List.mem_flatMap.1 hg
    obtain ⟨f, -, -, hk⟩ := exists_mem_of_forall₂ h hp
    exact hkernels p hk g hgp

theorem mapM_ends (hs : Ends E K n simplify) {fs : List (Fn α)}
    (hn : 2 * totalWeight .cost fs ≤ n) (hk : ∀ f ∈ fs, f.Kernels K) :
    (fs.mapM simplify).Meets E
      (List.Forall₂ (fun f g => g.weight .cost ≤ f.weight .cost ∧ g.Kernels K) fs) :=
  Attempt.Meets.mapM fun f hf =>
    hs.of_cost (by have := weight_le_totalWeight (w := .cost) hf; omega) (hk f hf)

/-! ## Standard functions -/

section Standard

variable [LawfulScalar α]

theorem simplifyKernel_ends (hE : Failures E K) (hs : Ends E K n simplify) {k : Kernel α} {s : α}
    {inner : Option (Fn α)} (hi : ∀ f ∈ inner, 2 * f.weight .cost ≤ n)
    (hk : (unary k s inner).Kernels K) :
    (simplifyKernel simplify k s inner).Meets E fun g => g.Kernels K := by
  obtain ⟨hk, hinner⟩ := (kernels_unary ..).1 hk
  generalize hx : simplifyKernel simplify k s inner = x
  cases kernelStep_of_simplifyKernel hx with
  | exponentZero | frequencyZero => exact .pure (kernels_ofValue _)
  | @exponentOne p f =>
    have hc := weight_scaleBy_le (w := .cost) s f
    have h2 := hi f rfl
    refine hs.meets _ ?_ ((hinner f rfl).scaleBy hE.power s)
    exact (depth_le _).trans (by omega)
  | infiniteShift _ hshift => exact .throw (hE.sine hk hshift)
  | power | sine | other => exact .pure (kernels_scaled hE.power hk hinner)

theorem simplifyStandard_ends (hE : Failures E K) (hs : Ends E K n simplify) {k : Kernel α} {s : α}
    {inner : Option (Fn α)} (hn : (unary k s inner).depth ≤ n + 1)
    (hk : (unary k s inner).Kernels K) :
    (simplifyStandard simplify k s inner).Meets E fun g => g.Kernels K := by
  unfold simplifyStandard
  split_ifs with h0
  · exact .pure kernels_zero
  cases inner with
  | none => exact simplifyKernel_ends hE hs (by simp) hk
  | some f =>
    have hf := weight_pos (w := .cost) f
    have hdepth := two_mul_weight_inner_lt k s f
    obtain ⟨hk, hkf⟩ := (kernels_unary ..).1 hk
    refine (hs.of_cost (by omega) (hkf f rfl)).bind fun g hg => ?_
    split
    · exact .pure kernels_undefined
    split
    · refine hs.meets _ ?_ (kernels_const _)
      exact (depth_le _).trans (by rw [weight_const]; omega)
    · split
      · exact simplifyKernel_ends hE hs (by simp) (by simpa using hk)
      · refine simplifyKernel_ends hE hs ?_ (by simpa using ⟨hk, hg.2⟩)
        simp only [Option.mem_def, Option.some.injEq, forall_eq']
        omega

end Standard

/-! ## Merges -/

theorem kernels_getD (hE : Failures E K) {inner : Option (Fn α)} (h : ∀ f ∈ inner, f.Kernels K) :
    (inner.getD identity).Kernels K := by
  cases inner with
  | none => exact (kernels_unary ..).2 ⟨hE.power 1, by simp⟩
  | some f => exact h f rfl

theorem Multiplied.kernels (hE : Failures E K) {f g h : Fn α} (hm : Multiplied f g h)
    (hf : f.Kernels K) (hg : g.Kernels K) : h.Kernels K := by
  cases hm with
  | absorbed => exact hf
  | values => exact kernels_const _
  | exponents hi => exact kernels_scaled hE.power (hE.power _) ((kernels_unary ..).1 hf).2
  | @bases p s inner q t inner' hi hp =>
    refine kernels_scaled hE.power (hE.power p) ?_
    simp only [Option.mem_def, Option.some.injEq, forall_eq', kernels_product]
    intro b hb
    rw [sort, (sortStable_perm ..).mem_iff] at hb
    rcases List.mem_pair.1 hb with rfl | rfl
    · exact kernels_getD hE ((kernels_unary ..).1 hf).2
    · exact kernels_getD hE ((kernels_unary ..).1 hg).2

theorem Divided.kernels (hE : Failures E K) {f g h : Fn α} (hm : Divided f g h)
    (hf : f.Kernels K) : h.Kernels K := by
  cases hm with
  | absorbed => exact hf
  | values => exact kernels_const _
  | exponents ht hi => exact kernels_scaled hE.power (hE.power _) ((kernels_unary ..).1 hf).2

theorem Added.kernels (hE : Failures E K) {f g h : Fn α} (hm : Added simplify f g h)
    (hf : f.Kernels K)
    (hs : ∀ n d n' d' top, f = quotient n d → g = quotient n' d' →
      (simplify (sum [n, n'])).outcome = .ok top → top.Kernels K) : h.Kernels K := by
  cases hm with
  | absorbed => exact hf
  | values => exact kernels_const _
  | scales hk hi =>
    rw [kernels_unary] at hf
    exact kernels_scaled hE.power hf.1 hf.2
  | heads h hu =>
    rw [kernels_product, List.forall_mem_cons] at hf ⊢
    exact ⟨hf.1.withScale hE.power _, hf.2⟩
  | @numerators n d n' d' top h ht =>
    rw [kernels_quotient] at hf ⊢
    exact ⟨hs n d n' d' top rfl rfl ht, hf.2⟩

/-! ## Results -/

theorem kernels_ofTerms {f : Fn α} {ts : List (Fn α)} (hf : f.Kernels K)
    (hk : ∀ t ∈ ts, t.Kernels K) : (ofTerms f ts).Kernels K := by
  have hkfilter : ∀ t ∈ ts.filter (!·.isZero), t.Kernels K :=
    fun t ht => hk t (List.mem_of_mem_filter ht)
  generalize hg : ofTerms f ts = g
  cases fromTerms_of_ofTerms hg with
  | absorbed => exact kernels_undefined
  | empty => exact kernels_zero
  | assembled _ hg => exact hg.holds hkfilter (fun _ => hf) ((kernels_sum _).2 hkfilter)

theorem kernels_splitCoefficient (hE : Failures E K) {fs : List (Fn α)}
    (hk : ∀ f ∈ fs, f.Kernels K) : ∀ f ∈ (splitCoefficient fs).2, f.Kernels K := by
  rw [splitCoefficient, splitCoefficientFrom_snd, List.forall_mem_map]
  intro f hf
  have hf := hk f (List.mem_of_mem_filter hf)
  unfold unit
  split
  · exact hf
  · exact hf.withScale hE.power 1

theorem kernels_ofFactors (hE : Failures E K) {f : Fn α} {c : α} {fs : List (Fn α)}
    (hf : f.Kernels K) (hk : ∀ g ∈ fs, g.Kernels K) : (ofFactors f c fs).Kernels K := by
  generalize hg : ofFactors f c fs = g
  cases fromFactors_of_ofFactors hg with
  | zero => exact kernels_zero
  | absorbed => exact kernels_undefined
  | constant => exact kernels_ofValue c
  | assembled _ _ _ hgs hg =>
    have hscale := hgs.forall_mem hk fun u hu => hu.scaleBy hE.power c
    exact hg.holds hscale (fun _ => hf) ((kernels_product _).2 hscale)

theorem absorb_ends (hE : Failures E K) {f : Fn α} (hf : f.Kernels K) (factors : List (Fn α)) :
    (absorb f factors).Meets E fun g => g.Kernels K := by
  have hrender : (monadLift f.render : Attempt α String).Meets E fun _ => True :=
    .lift (hE.render hf) fun _ _ => trivial
  have hzero : (zero : Fn α).Kernels K := kernels_zero
  unfold absorb
  split
  · exact hrender.bind fun _ _ => hzero
  · exact .pure kernels_zero

/-! ## Sums, products and quotients -/

variable [LawfulScalar α]

/-- The merged product of two functions, simplified. -/
theorem mergeMultiply_ends (hE : Failures E K) (hs : Ends E K n simplify) {f g : Fn α}
    (hn : 2 * (f.weight .cost + g.weight .cost) + 1 ≤ n) (hf : f.Kernels K) (hg : g.Kernels K) :
    (mergeSimplified simplify (fun f g => pure (mergeMultiply? f g)) f g).Meets E fun merged =>
      ∀ h ∈ merged, h.weight .cost ≤ f.weight .cost + g.weight .cost ∧ h.Kernels K := by
  have hmerge : (pure (mergeMultiply? f g) : Attempt α (Option (Fn α))).Meets E fun merged =>
      ∀ m ∈ merged, Multiplied f g m := .pure fun m hm => multiplied_of_mergeMultiply? hm
  refine mergeSimplified_meets hmerge fun m hm => ?_
  have hc := hm.netWeight_le (w := .cost)
  have hd := depth_le_netWeight m
  refine ((hs.meets m (by omega) (hm.kernels hE hf hg)).and_of_ok (hs.lightens m)).mono ?_
  exact fun h hh => ⟨by omega, hh.2⟩

/-- The merged sum of two functions, simplified. -/
theorem mergeAdd_ends (hE : Failures E K) (hs : Ends E K n simplify) {f g : Fn α}
    (hn : 2 * (f.weight .cost + g.weight .cost) + 1 ≤ n) (hf : f.Kernels K) (hg : g.Kernels K) :
    (mergeSimplified simplify (mergeAddWith simplify) f g).Meets E fun merged =>
      ∀ h ∈ merged, h.weight .cost ≤ f.weight .cost + g.weight .cost ∧ h.Kernels K := by
  have htop (m d m' d' : Fn α) (h : f = quotient m d) (h' : g = quotient m' d') :
      (simplify (sum [m, m'])).Meets E fun top =>
        top.weight .cost ≤ m.weight .cost + m'.weight .cost + 1 ∧ top.Kernels K := by
    subst h h'
    have hcost : (sum [m, m']).weight .cost = m.weight .cost + m'.weight .cost + 1 := by simp
    rw [kernels_quotient] at hf hg
    rw [← hcost]
    refine hs.of_cost ?_ (by simpa using ⟨hf.1, hg.1⟩)
    have := weight_pos (w := .cost) d
    simp only [weight_quotient, hcost] at hn ⊢
    omega
  have hmerge : (mergeAddWith simplify f g).Meets E fun merged => ∀ m ∈ merged,
      m.weight .cost < f.weight .cost + g.weight .cost ∧ m.Kernels K := by
    refine (mergeAddWith_meets fun m d m' d' h h' => (htop m d m' d' h h').mono
      fun _ _ => trivial).mono fun merged h m hm => ?_
    exact ⟨(h m hm).weight_lt fun m d m' d' top h h' ht => ((htop m d m' d' h h').of_ok ht).1,
      (h m hm).kernels hE hf fun m d m' d' top h h' ht => ((htop m d m' d' h h').of_ok ht).2⟩
  refine mergeSimplified_meets hmerge fun m hm => ?_
  exact (hs.of_cost (by omega) hm.2).mono fun h hh => ⟨hh.1.trans hm.1.le, hh.2⟩

theorem simplifySum_ends (hE : Failures E K) (hs : Ends E K n simplify) {ts : List (Fn α)}
    (hn : (sum ts).depth ≤ n + 1) (hk : (sum ts).Kernels K) :
    (simplifySum simplify ts).Meets E fun g => g.Kernels K := by
  have hn : 2 * totalWeight .cost ts + 1 ≤ n := by
    simp only [depth, weight_sum] at hn
    omega
  have hparts := mapM_ends hs (by omega) ((kernels_sum ts).1 hk)
  refine hparts.bind fun parts hp => ?_
  obtain ⟨hflat, hkflat⟩ := flatten_ends totalWeight_toTerms_le (fun f hf => hf.toTerms) hp
  dsimp only
  split
  · exact .pure kernels_undefined
  have hfilter := totalWeight_sublist (w := .cost) (List.filter_sublist (p := (!·.isZero))
    (l := parts.flatMap toTerms))
  have hlaw := costLaw (n := n) fun f g hn hf hg => mergeAdd_ends hE hs hn hf hg
  have hkfilter : ∀ f ∈ (parts.flatMap toTerms).filter (!·.isZero), f.Kernels K :=
    fun f hf => hkflat f (List.mem_of_mem_filter hf)
  refine (hlaw.mergeNeighbours ⟨by omega, hkfilter⟩).bind fun merged hm => .pure ?_
  exact kernels_ofTerms hk (hm.2 hkfilter)

theorem simplifyProduct_ends (hE : Failures E K) (hs : Ends E K n simplify) {fs : List (Fn α)}
    (hn : (product fs).depth ≤ n + 1) (hk : (product fs).Kernels K) :
    (simplifyProduct simplify fs).Meets E fun g => g.Kernels K := by
  have hn : 2 * totalWeight .cost fs + 1 ≤ n := by
    simp only [depth, weight_product] at hn
    omega
  have hparts := mapM_ends hs (by omega) ((kernels_product fs).1 hk)
  refine hparts.bind fun parts hp => ?_
  obtain ⟨hflat, hkflat⟩ := flatten_ends totalWeight_toFactors_le (fun f hf => hf.toFactors) hp
  dsimp only
  split
  · exact absorb_ends hE hk _
  split
  · exact .pure kernels_undefined
  have hlaw := costLaw (n := n) fun f g hn hf hg => mergeMultiply_ends hE hs hn hf hg
  have hunits := totalWeight_splitCoefficient_le (w := .cost) (parts.flatMap toFactors)
  have hkunits := kernels_splitCoefficient hE hkflat
  refine (hlaw.mergeNeighbours ⟨by omega, hkunits⟩).bind fun merged hm => .pure ?_
  exact kernels_ofFactors hE hk (kernels_splitCoefficient hE (hm.2 hkunits))

theorem simplifyQuotient_ends (hE : Failures E K) (hs : Ends E K n simplify) {f d : Fn α}
    (hn : (quotient f d).depth ≤ n + 1) (hk : (quotient f d).Kernels K) :
    (simplifyQuotient simplify f d).Meets E fun g => g.Kernels K := by
  simp only [depth, weight_quotient, kernels_quotient] at hn hk
  refine (hs.of_cost (by omega) hk.1).bind fun f' hf' => ?_
  refine (hs.of_cost (by omega) hk.2).bind fun d' hd' => ?_
  split
  · exact .pure kernels_undefined
  split
  · rename_i h hm
    have hd := divided_of_mergeDivide? hm
    have hc := hd.weight_le (w := .cost)
    exact hs.meets h ((depth_le h).trans (by omega)) (hd.kernels hE hf'.2)
  · refine .pure ?_
    split
    · exact kernels_zero
    · exact (kernels_quotient ..).2 ⟨hf'.2, hd'.2⟩

theorem simplifyStep_ends (hE : Failures E K) (hs : Ends E K n simplify) :
    Ends E K (n + 1) (simplifyStep simplify) where
  lightens := simplifyStep_lightens hs.lightens
  meets f hn hk := by
    cases f with
    | zero => exact .pure kernels_zero
    | one => exact .pure kernels_one
    | const v => exact .pure (kernels_ofValue v)
    | undefined => exact .pure kernels_undefined
    | unary k s inner => exact simplifyStandard_ends hE hs hn hk
    | sum ts => exact simplifySum_ends hE hs hn hk
    | product fs => exact simplifyProduct_ends hE hs hn hk
    | quotient f d => exact simplifyQuotient_ends hE hs hn hk
    | piecewise segments =>
      simp only [depth, weight_piecewise, kernels_piecewise] at hn hk
      have hparts : (segments.mapM (simplifySegment simplify)).Meets E
          (List.Forall₂ (fun _ t => t.payload.Kernels K) segments) := by
        refine Attempt.Meets.mapM fun s hmem => ?_
        have hc := weight_le_totalWeight (w := .cost) (List.mem_map_of_mem (f := (·.payload)) hmem)
        exact (hs.of_cost (by omega) (hk s hmem)).bind fun g hg => .pure hg.2
      refine hparts.bind fun parts hp => .pure ((kernels_piecewise _).2 fun t ht => ?_)
      obtain ⟨s, -, h⟩ := exists_mem_of_forall₂ hp ht
      exact h

/-- Simplification down to a depth has results for all functions that need no more. -/
theorem simplifyWithin_ends (hE : Failures E K) (n : Nat) :
    Ends E K n (simplifyWithin n) := by
  induction n with
  | zero =>
    refine ⟨simplifyWithin_lightens .cost 0, fun f hn hk => ?_⟩
    have := depth_pos f
    omega
  | succ n ih => exact simplifyStep_ends hE ih

/-- Simplification has a result, or fails for a sine. -/
theorem simplify_meets (hE : Failures E K) {f : Fn α} (hk : f.Kernels K) :
    f.simplify.Meets E fun g => g.Kernels K := by
  have := depth_le f
  refine (simplifyWithin_ends hE _).meets f ?_ hk
  rw [cost_eq]
  omega

end FunctionAlgebra.Fn
