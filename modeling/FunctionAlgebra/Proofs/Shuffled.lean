import FunctionAlgebra.Proofs.ReducedForm
import FunctionAlgebra.Proofs.SineShifts

/-!
# Children in any order

Terms and factors are sorted before they are merged, and constants and scales are multiplied
together. So all that simplification can see of a list of terms or factors is which functions are in
it, up to the choice of canonical constants.

## Main definitions

* `Fn.Shuffled` — two lists have the same functions in any order.
* `Fn.Respects` — a way to simplify cannot tell apart functions that differ in canonical constants.

## Main statements

* `Fn.Shuffled.mergeNeighbours` — the same functions are left when neighbours are merged.
* `Fn.simplifySum_of_shuffled`, `Fn.simplifyProduct_of_shuffled` — sums and products of the same
  functions in another order have the same simplified form.
-/

namespace FunctionAlgebra.Fn

open Exact (real)

variable {f g f' g' : Fn Exact} {fs gs : List (Fn Exact)}
  {simplify : Fn Exact → Attempt Exact (Fn Exact)}

/-- Functions that differ only in which of their constants are canonical. -/
abbrev EqForget (f g : Fn Exact) : Prop := f.forget = g.forget

def Shuffled (fs gs : List (Fn Exact)) : Prop := (fs.map forget).Perm (gs.map forget)

/-- Normal functions that differ only in which of their constants are canonical. -/
structure Twins (f g : Fn Exact) : Prop where
  forget : f.EqForget g
  left : f.Normal
  right : g.Normal

def Respects (simplify : Fn Exact → Attempt Exact (Fn Exact)) : Prop :=
  ∀ f g, f.EqForget g → Attempt.MatchedBy EqForget (simplify f) (simplify g)

theorem hasFiniteNumbers_of_eqForget (h : f.EqForget g) (hf : f.HasFiniteNumbers) :
    g.HasFiniteNumbers := by
  have hforget (f : Fn Exact) : f.forget.HasFiniteNumbers ↔ f.HasFiniteNumbers :=
    numbers_forget (Exact.isFinite_iff.2 Exact.isReal_zero) (Exact.isFinite_iff.2 Exact.isReal_one)
  rwa [← hforget, ← h, hforget]

/-! ## Shuffled lists -/

theorem Shuffled.of_map_eq (h : fs.map forget = gs.map forget) : Shuffled fs gs := by
  rw [Shuffled, h]

theorem Shuffled.exists_perm (h : Shuffled fs gs) :
    ∃ hs, List.Forall₂ EqForget fs hs ∧ hs.Perm gs := by
  have hgs : List.Forall₂ (fun a g => a = g.forget) (gs.map forget) gs :=
    List.forall₂_map_left_iff.2 (List.forall₂_same.2 fun _ _ => rfl)
  obtain ⟨hs, hfs, hperm⟩ := List.perm_comp_forall₂ h hgs
  exact ⟨hs, by rwa [List.forall₂_map_left_iff] at hfs, hperm⟩

theorem Shuffled.length_eq (h : Shuffled fs gs) : fs.length = gs.length := by
  simpa using List.Perm.length_eq h

/-- A property that does not depend on canonical constants holds of all functions in both lists. -/
theorem Shuffled.forall_mem {P : Fn Exact → Prop} (hP : ∀ f g, f.EqForget g → P f → P g)
    (h : Shuffled fs gs) (hfs : ∀ f ∈ fs, P f) : ∀ g ∈ gs, P g := by
  obtain ⟨hs, hsame, hperm⟩ := h.exists_perm
  intro g hg
  obtain ⟨f, hf, hfg⟩ := exists_mem_of_forall₂ hsame (hperm.mem_iff.2 hg)
  exact hP f g hfg (hfs f hf)

theorem Shuffled.any_eq {p : Fn Exact → Bool} (hp : ∀ f g, f.EqForget g → p f = p g)
    (h : Shuffled fs gs) : fs.any p = gs.any p := by
  have hall {fs gs : List (Fn Exact)} (h : Shuffled fs gs) : fs.any p = true → gs.any p = true := by
    contrapose
    simp only [List.any_eq_true, not_exists, not_and]
    refine Shuffled.forall_mem (fun f g hfg hf => ?_) (List.Perm.symm h)
    rwa [← hp f g hfg]
  exact Bool.eq_iff_iff.2 ⟨hall h, hall (List.Perm.symm h)⟩

theorem Shuffled.flatMap {φ : Fn Exact → List (Fn Exact)}
    (hφ : ∀ f, (φ f).map forget = φ f.forget) (h : Shuffled fs gs) :
    Shuffled (fs.flatMap φ) (gs.flatMap φ) := by
  have hmap (l : List (Fn Exact)) : (l.flatMap φ).map forget = (l.map forget).flatMap φ := by
    rw [List.map_flatMap, List.flatMap_map]
    exact List.flatMap_congr fun f _ => hφ f
  unfold Shuffled
  rw [hmap, hmap]
  exact List.Perm.flatMap_right φ h

theorem Shuffled.filter {p q : Fn Exact → Bool} (hfs : ∀ f ∈ fs, p f = q f.forget)
    (hgs : ∀ g ∈ gs, p g = q g.forget) (h : Shuffled fs gs) :
    Shuffled (fs.filter p) (gs.filter p) := by
  have hmap {l : List (Fn Exact)} (hl : ∀ f ∈ l, p f = q f.forget) :
      (l.filter p).map forget = (l.map forget).filter q := by
    rw [List.filter_map, List.filter_congr hl]
    rfl
  unfold Shuffled
  rw [hmap hfs, hmap hgs]
  exact List.Perm.filter q h

theorem Shuffled.map {φ : Fn Exact → Fn Exact} (hφ : ∀ f, (φ f.forget).forget = (φ f).forget)
    (h : Shuffled fs gs) : Shuffled (fs.map φ) (gs.map φ) := by
  have hmap (l : List (Fn Exact)) : (l.map φ).map forget = (l.map forget).map (forget ∘ φ) := by
    rw [List.map_map, List.map_map]
    exact List.map_congr_left fun f _ => (hφ f).symm
  unfold Shuffled
  rw [hmap, hmap]
  exact List.Perm.map _ h

/-! ## Sorted lists -/

/-- Lists that ascend and have the same items differ only in what they remember. -/
theorem forget_eq_of_ascending {fs gs : List (Fn Exact)} (hfs : Ascending less HasNoNaN fs)
    (hgs : Ascending less HasNoNaN gs) (h : fs.Perm gs) : fs.map forget = gs.map forget := by
  rw [map_forget_eq_iff]
  refine (hfs.forall₂_of_perm orders_hasNoNaN hgs h).imp ?_
  rintro f g ⟨hf, hg, hfg, hgf⟩
  rw [less_eq_false_iff] at hfg hgf
  exact (beq_iff.1 ((compare_eq_iff hf hg).1 (compare_eq_of_isLE hgf hfg))).1

theorem less_congr {f f' g g' : Fn Exact} (hf : f.HasNoNaN) (hg : g.HasNoNaN)
    (hff : f.forget = f'.forget) (hgg : g.forget = g'.forget) : f.less g = f'.less g' := by
  have hf' : f'.HasNoNaN := by rwa [← hasNoNaN_forget, ← hff, hasNoNaN_forget]
  have hswap : f'.compare g = (g.compare f').swap := compareWith_swap false g f'
  have hswap' : f'.compare g' = (g'.compare f').swap := compareWith_swap false g' f'
  rw [less, less, compare_congr_left hf hg hff, hswap, compare_congr_left hg hf' hgg, hswap']

theorem pairwise_forget_iff {fs : List (Fn Exact)} (h : ∀ f ∈ fs, f.HasNoNaN) :
    (fs.map forget).Pairwise (fun f g => g.less f = false) ↔
      fs.Pairwise fun f g => g.less f = false := by
  rw [List.pairwise_map]
  refine List.Pairwise.iff_of_mem fun {f g} hf hg => ?_
  rw [less_congr (h g hg) (h f hf) (forget_forget g).symm (forget_forget f).symm]

theorem hasNoNaN_of_forget {fs gs : List (Fn Exact)} (hfs : ∀ f ∈ fs, f.HasNoNaN)
    (h : fs.map forget = gs.map forget) : ∀ g ∈ gs, g.HasNoNaN := by
  intro g hg
  obtain ⟨f, hf, hfg⟩ := exists_mem_of_forall₂ (map_forget_eq_iff.1 h) hg
  rw [← hasNoNaN_forget, ← hfg, hasNoNaN_forget]
  exact hfs f hf

theorem ascending_of_forget {fs gs : List (Fn Exact)} (hfs : Ascending less HasNoNaN fs)
    (h : fs.map forget = gs.map forget) : Ascending less HasNoNaN gs := by
  have hgs := hasNoNaN_of_forget hfs.all h
  refine ⟨hgs, ?_⟩
  rw [← pairwise_forget_iff hgs, ← h, pairwise_forget_iff hfs.all]
  exact hfs.pairwise

/-- Shuffled lists are alike when they are sorted. -/
theorem Shuffled.sort (h : Shuffled fs gs) (hfs : ∀ f ∈ fs, f.HasNoNaN) :
    (sort fs).map forget = (sort gs).map forget := by
  have hgs : ∀ g ∈ gs, g.HasNoNaN := h.forall_mem (fun f g hfg hf => by
    rwa [← hasNoNaN_forget, ← hfg, hasNoNaN_forget]) hfs
  have hascending {l : List (Fn Exact)} (hl : ∀ f ∈ l, f.HasNoNaN) :
      Ascending less HasNoNaN ((Fn.sort l).map forget) :=
    ascending_of_forget (sortStable_ascending orders_hasNoNaN hl) (by simp [Fn.sort])
  have hperm : ((Fn.sort fs).map forget).Perm ((Fn.sort gs).map forget) :=
    ((sortStable_perm less fs).map forget).trans
      (h.trans ((sortStable_perm less gs).map forget).symm)
  have := forget_eq_of_ascending (hascending hfs) (hascending hgs) hperm
  simpa [Function.comp_def] using this

/-- Merged lists are alike if the lists are shuffled. -/
theorem Shuffled.mergeNeighbours {merge : Fn Exact → Fn Exact → Attempt Exact (Option (Fn Exact))}
    (hm : ∀ {f f' g g'}, Twins f f' → Twins g g' →
      Attempt.MatchedBy (Option.Rel Twins) (merge f g) (merge f' g'))
    (h : Shuffled fs gs) (hfs : ∀ f ∈ fs, f.Normal) (hgs : ∀ g ∈ gs, g.Normal) :
    Attempt.MatchedBy (List.Forall₂ Twins) (mergeNeighbours Fn.sort merge fs)
      (mergeNeighbours Fn.sort merge gs) := by
  have hsort {fs gs : List (Fn Exact)} (h : Shuffled fs gs) (hfs : ∀ f ∈ fs, f.Normal)
      (hgs : ∀ g ∈ gs, g.Normal) : List.Forall₂ Twins (Fn.sort fs) (Fn.sort gs) := by
    have hall := map_forget_eq_iff.1 (h.sort fun f hf => (hfs f hf).reduced.hasNoNaN)
    have hmem {l : List (Fn Exact)} (hl : ∀ f ∈ l, f.Normal) : ∀ f ∈ Fn.sort l, f.Normal :=
      fun f hf => hl f ((sortStable_perm less l).mem_iff.1 hf)
    refine (forall₂_and_of_forall_mem hall (hmem hfs) (hmem hgs)).imp ?_
    rintro f g ⟨hfg, hf, hg⟩
    exact ⟨hfg, hf, hg⟩
  unfold FunctionAlgebra.mergeNeighbours
  rw [h.length_eq]
  refine mergePasses_matchedBy (fun htwins => ?_) hm _ (hsort h hfs hgs)
  have hall := map_forget_eq_iff.2 (htwins.imp fun _ _ h => h.forget)
  refine hsort (.of_map_eq hall) (fun f hf => ?_) fun g hg => ?_
  · obtain ⟨g, -, h⟩ := exists_mem_of_forall₂ htwins.flip hf
    exact h.left
  · obtain ⟨f, -, h⟩ := exists_mem_of_forall₂ htwins hg
    exact h.right

/-- Parts that are shuffled are shuffled when they are simplified. -/
theorem Shuffled.mapM (hs : Respects simplify) (hn : Normalizes simplify) (h : Shuffled fs gs) :
    Attempt.MatchedBy (fun ps qs => Shuffled ps qs ∧ (∀ p ∈ ps, p.Normal) ∧ ∀ q ∈ qs, q.Normal)
      (fs.mapM simplify) (gs.mapM simplify) := by
  obtain ⟨hs', hsame, hperm⟩ := h.exists_perm
  have hnormal (l : List (Fn Exact)) :
      (l.mapM simplify).Meets (fun _ => True) fun ps => ∀ p ∈ ps, p.Normal := by
    refine (Attempt.Meets.mapM fun f _ => hn f).mono fun ps hps p hp => ?_
    obtain ⟨f, -, hf⟩ := exists_mem_of_forall₂ hps hp
    exact hf
  have hmapped := Attempt.MatchedBy.mapM (hsame.imp fun f g hfg => hs f g hfg)
  refine ((hmapped.trans (Attempt.mapM_matchedBy_of_perm hperm)).mono ?_).and_meets (hnormal fs)
    (hnormal gs)
  rintro ps rs ⟨qs, hpq, hqr⟩
  rw [Shuffled, map_forget_eq_iff.2 hpq]
  exact hqr.map forget

/-! ## Merges -/

theorem hasNoNaN_getD {inner : Option (Fn Exact)} (h : ∀ f ∈ inner, f.HasNoNaN) :
    (inner.getD identity).HasNoNaN := by
  cases inner with
  | none => exact hasNoNaN_identity
  | some f => exact h f rfl

theorem Multiplied.congr {h : Fn Exact} (hm : Multiplied f g h) (hf : f.EqForget f')
    (hg : g.EqForget g') (hfn : f.HasNoNaN) (hgn : g.HasNoNaN) :
    ∃ h', Multiplied f' g' h' ∧ h.EqForget h' := by
  cases hm with
  | absorbed => exact ⟨_, eq_undefined_of_forget hf ▸ .absorbed _, rfl⟩
  | exponents hi =>
    obtain ⟨inner, rfl, hi₁⟩ := exists_unary_of_forget hf
    obtain ⟨inner', rfl, hi₂⟩ := exists_unary_of_forget hg
    refine ⟨_, .exponents (equalInner_congr hi₁ hi₂ ▸ hi), ?_⟩
    rw [EqForget, power, power, forget_scaled, forget_scaled, hi₁]
  | @bases p s i q t j hi hp =>
    obtain ⟨i', rfl, hi₁⟩ := exists_unary_of_forget hf
    obtain ⟨j', rfl, hi₂⟩ := exists_unary_of_forget hg
    refine ⟨_, .bases (equalInner_congr hi₁ hi₂ ▸ hi) hp, ?_⟩
    have hgetD {i i' : Option (Fn Exact)} (h : i.map forget = i'.map forget) :
        (i.getD identity).forget = (i'.getD identity).forget := by
      cases i <;> cases i' <;> simp_all
    have hsort : (sort [i.getD identity, j.getD identity]).map forget =
        (sort [i'.getD identity, j'.getD identity]).map forget := by
      refine Shuffled.sort (.of_map_eq (by simp [hgetD hi₁, hgetD hi₂])) ?_
      have hleft := hasNoNaN_getD ((numbers_unary ..).1 hfn).2.2
      have hright := hasNoNaN_getD ((numbers_unary ..).1 hgn).2.2
      simpa using And.intro hleft hright
    simp [EqForget, power, forget_scaled, hsort]
  | values hv hw => exact ⟨_, .values (value?_congr hf ▸ hv) (value?_congr hg ▸ hw), rfl⟩

theorem Divided.congr {h : Fn Exact} (hm : Divided f g h) (hf : f.EqForget f')
    (hg : g.EqForget g') : ∃ h', Divided f' g' h' ∧ h.EqForget h' := by
  cases hm with
  | absorbed => exact ⟨_, eq_undefined_of_forget hf ▸ .absorbed _, rfl⟩
  | exponents ht hi =>
    obtain ⟨inner, rfl, hi₁⟩ := exists_unary_of_forget hf
    obtain ⟨inner', rfl, hi₂⟩ := exists_unary_of_forget hg
    refine ⟨_, .exponents ht (equalInner_congr hi₁ hi₂ ▸ hi), ?_⟩
    rw [EqForget, power, power, forget_scaled, forget_scaled, hi₁]
  | values hv hw => exact ⟨_, .values (value?_congr hf ▸ hv) (value?_congr hg ▸ hw), rfl⟩

theorem Added.congr {h : Fn Exact} (hs : Respects simplify) (hm : Added simplify f g h)
    (hf : f.EqForget f') (hg : g.EqForget g') : ∃ h', Added simplify f' g' h' ∧ h.EqForget h' := by
  cases hm with
  | absorbed =>
    obtain rfl := eq_undefined_of_forget hf
    exact ⟨_, .absorbed _, rfl⟩
  | scales hk hi =>
    obtain ⟨inner, rfl, hi₁⟩ := exists_unary_of_forget hf
    obtain ⟨inner', rfl, hi₂⟩ := exists_unary_of_forget hg
    refine ⟨_, .scales hk (equalInner_congr hi₁ hi₂ ▸ hi), ?_⟩
    rw [EqForget, forget_scaled, forget_scaled, hi₁]
  | heads htails hu =>
    obtain ⟨a, as, rfl, ha, has⟩ := exists_product_cons_of_forget hf
    obtain ⟨b, bs, rfl, hb, hbs⟩ := exists_product_cons_of_forget hg
    refine ⟨_, .heads (equalAll_congr has hbs ▸ htails)
      (beq_congr (forget_unit_congr ha) (forget_unit_congr hb) ▸ hu), ?_⟩
    rw [EqForget, forget_product, forget_product, List.map_cons, List.map_cons, has,
      ← forget_withScale, ← forget_withScale _ a, ha, scale_congr ha, scale_congr hb]
  | @numerators n d n' d' top hd ht =>
    obtain ⟨m, e, rfl, hm, he⟩ := exists_quotient_of_forget hf
    obtain ⟨m', e', rfl, hm', he'⟩ := exists_quotient_of_forget hg
    have hsum : (sum [n, n']).EqForget (sum [m, m']) := by simp [EqForget, hm, hm']
    obtain ⟨top', ht', htop⟩ := hs _ _ hsum top ht
    refine ⟨_, .numerators (beq_congr he he' ▸ hd) ht', ?_⟩
    rw [EqForget, forget_quotient, forget_quotient, htop, he]
  | values hv hw => exact ⟨_, .values (value?_congr hf ▸ hv) (value?_congr hg ▸ hw), rfl⟩

theorem mergeMultiply?_rel (hf : f.EqForget f') (hg : g.EqForget g') (hfn : f.HasNoNaN)
    (hgn : g.HasNoNaN) : Option.Rel EqForget (mergeMultiply? f g) (mergeMultiply? f' g') := by
  cases h : mergeMultiply? f g with
  | none =>
    rw [(rescaled_of_forget hf).mergeMultiply?_eq_none (rescaled_of_forget hg) h]
    exact .none
  | some m =>
    obtain ⟨m', hm', hmm⟩ := (multiplied_of_mergeMultiply? h).congr hf hg hfn hgn
    rw [hm'.mergeMultiply?]
    exact .some hmm

theorem mergeDivide?_rel (hf : f.EqForget f') (hg : g.EqForget g') :
    Option.Rel EqForget (mergeDivide? f g) (mergeDivide? f' g') := by
  cases h : mergeDivide? f g with
  | none =>
    rw [(rescaled_of_forget hf).mergeDivide?_eq_none (rescaled_of_forget hg) h]
    exact .none
  | some m =>
    obtain ⟨m', hm', hmm⟩ := (divided_of_mergeDivide? h).congr hf hg
    rw [hm'.mergeDivide?]
    exact .some hmm

theorem mergeAddWith_matchedBy (hs : Respects simplify) (hf : f.EqForget f')
    (hg : g.EqForget g') : Attempt.MatchedBy (Option.Rel EqForget) (mergeAddWith simplify f g)
      (mergeAddWith simplify f' g') := by
  intro merged hm
  cases merged with
  | none =>
    rw [mergeAddWith_eq_none_iff] at hm
    refine ⟨none, mergeAddWith_eq_none_iff.2 fun hadd => hm ?_, .none⟩
    exact hadd.congr hf.symm hg.symm
  | some h =>
    have hmeets : (mergeAddWith simplify f g).Meets (fun _ => True) fun merged =>
        ∀ m ∈ merged, Added simplify f g m :=
      mergeAddWith_meets fun _ _ _ _ _ _ => .trivial _
    obtain ⟨h', hadded, hh⟩ := (hmeets.of_ok hm h rfl).congr hs hf hg
    exact ⟨some h', hadded.mergeAddWith, .some hh⟩

theorem mergeSimplified_matchedBy (hs : Respects simplify) (hn : Normalizes simplify)
    {merge : Fn Exact → Fn Exact → Attempt Exact (Option (Fn Exact))}
    (hm : Attempt.MatchedBy (Option.Rel EqForget) (merge f g) (merge f' g')) :
    Attempt.MatchedBy (Option.Rel Twins) (mergeSimplified simplify merge f g)
      (mergeSimplified simplify merge f' g') := by
  refine hm.bind fun merged merged' h => ?_
  cases h with
  | none => exact .pure .none
  | @some m m' h =>
    refine ((hs m m' h).and_meets (hn m) (hn m')).bind fun x y hxy => .pure (.some ?_)
    exact ⟨hxy.1, hxy.2.1, hxy.2.2⟩

/-! ## Sums -/

theorem Normal.isZero_eq (h : f.Normal) : f.isZero = f.value?.any (· == 0) := by
  cases hz : f.isZero with
  | true =>
    obtain rfl := eq_zero_of_isZero hz
    simp [Fn.value?]
  | false =>
    have h0 := h.value?_ne_zero hz
    cases hv : f.value? with
    | none => rfl
    | some v => simpa [hv] using h0

theorem Twins.isZero_eq (h : Twins f g) : f.isZero = g.isZero := by
  rw [h.left.isZero_eq, h.right.isZero_eq, value?_congr h.forget]

theorem forget_ite_sum (ts us : List (Fn Exact)) :
    (if sameChildren us (sum ts).toTerms = true then sum ts else sum us).forget =
      (sum us).forget := by
  split_ifs with h
  · rw [forget_sum, forget_sum, map_forget_of_sameChildren h, toTerms]
  · rfl

theorem ofTerms_congr {ts us ms ms' : List (Fn Exact)} (h : List.Forall₂ Twins ms ms') :
    (ofTerms (sum ts) ms).EqForget (ofTerms (sum us) ms') := by
  have hsame : ms.map forget = ms'.map forget :=
    map_forget_eq_iff.2 (h.imp fun _ _ h => h.forget)
  have hfilter : List.Forall₂ Twins (ms.filter (!·.isZero)) (ms'.filter (!·.isZero)) := by
    refine List.rel_filter (fun f g hfg => ?_) h
    simp only [hfg.isZero_eq]
  unfold ofTerms
  rw [Shuffled.any_eq (fun _ _ => isUndefined_congr) (.of_map_eq hsame)]
  split
  · rfl
  generalize ms.filter (!·.isZero) = l, ms'.filter (!·.isZero) = l' at hfilter
  cases hfilter with
  | nil => rfl
  | cons ht hrest =>
    cases hrest with
    | nil => exact ht.forget
    | cons hu hrest =>
      dsimp only
      rw [EqForget, forget_ite_sum, forget_ite_sum, forget_sum, forget_sum]
      exact congrArg sum (map_forget_eq_iff.2 (.cons ht.forget (.cons hu.forget
        (hrest.imp fun _ _ h => h.forget))))

/-- Sums of the same functions in another order have the same simplified form. -/
theorem simplifySum_of_shuffled (hs : Respects simplify) (hn : Normalizes simplify)
    (h : Shuffled fs gs) :
    Attempt.MatchedBy EqForget (simplifySum simplify fs) (simplifySum simplify gs) := by
  refine (h.mapM hs hn).bind fun ps qs ⟨hparts, hps, hqs⟩ => ?_
  have hflat : Shuffled (ps.flatMap toTerms) (qs.flatMap toTerms) :=
    hparts.flatMap fun f => by cases f <;> simp [toTerms]
  have hterms {l : List (Fn Exact)} (hl : ∀ p ∈ l, p.Normal) :
      ∀ t ∈ l.flatMap toTerms, t.Normal := by
    intro t ht
    obtain ⟨p, hp, ht⟩ := List.mem_flatMap.1 ht
    exact toTerms_normal (hl p hp) t ht
  have hfilter : Shuffled ((ps.flatMap toTerms).filter (!·.isZero))
      ((qs.flatMap toTerms).filter (!·.isZero)) := by
    have hzero {l : List (Fn Exact)} (hl : ∀ p ∈ l, p.Normal) : ∀ t ∈ l.flatMap toTerms,
        (!t.isZero) = !t.forget.value?.any (· == 0) := by
      intro t ht
      rw [(hterms hl t ht).isZero_eq, value?_forget]
    exact hflat.filter (q := fun f => !f.value?.any (· == 0)) (hzero hps) (hzero hqs)
  dsimp only
  rw [hflat.any_eq fun _ _ => isUndefined_congr]
  split
  · exact .pure rfl
  · refine (hfilter.mergeNeighbours (fun hf hg => ?_) (fun t ht => ?_) fun t ht => ?_).bind
      fun ms ms' hm => .pure (ofTerms_congr hm)
    · exact mergeSimplified_matchedBy hs hn (mergeAddWith_matchedBy hs hf.forget hg.forget)
    · exact hterms hps t (List.mem_of_mem_filter ht)
    · exact hterms hqs t (List.mem_of_mem_filter ht)

/-! ## Products -/

theorem Shuffled.splitCoefficient (h : Shuffled fs gs) (hfs : ∀ f ∈ fs, f.Reduced) :
    (splitCoefficient fs).1 = (splitCoefficient gs).1 ∧
      Shuffled (splitCoefficient fs).2 (splitCoefficient gs).2 := by
  have hcoefficient (l : List (Fn Exact)) : l.map coefficient = (l.map forget).map coefficient := by
    rw [List.map_map]
    exact List.map_congr_left fun f _ => by simp [coefficient]
  have hgs := h.forall_mem (fun f g hfg hf => hf.congr hfg) hfs
  rw [splitCoefficient_fst hfs, splitCoefficient_fst hgs, hcoefficient, hcoefficient gs,
    (List.Perm.map _ h).prod_eq]
  refine ⟨rfl, ?_⟩
  rw [Fn.splitCoefficient, Fn.splitCoefficient, splitCoefficientFrom_snd, splitCoefficientFrom_snd]
  exact (h.filter (q := (·.value?.isNone)) (by simp) (by simp)).map forget_unit

theorem splitCoefficient_snd_congr (h : fs.map forget = gs.map forget) :
    (splitCoefficient fs).2.map forget = (splitCoefficient gs).2.map forget := by
  rw [splitCoefficient, splitCoefficient, splitCoefficientFrom_snd, splitCoefficientFrom_snd,
    map_forget_eq_iff, List.forall₂_map_left_iff, List.forall₂_map_right_iff]
  refine (List.rel_filter (fun f g hfg => ?_) (map_forget_eq_iff.1 h)).imp
    fun _ _ => forget_unit_congr
  simp only [value?_congr hfg]

theorem forget_ite_product (fs gs : List (Fn Exact)) :
    (if sameChildren gs (product fs).toFactors = true then product fs else product gs).forget =
      (product gs).forget := by
  split_ifs with h
  · rw [forget_product, forget_product, map_forget_of_sameChildren h, toFactors]
  · rfl

theorem ofFactors_congr {c : Exact} {us us' : List (Fn Exact)}
    (h : us.map forget = us'.map forget) :
    (ofFactors (product fs) c us).EqForget (ofFactors (product gs) c us') := by
  unfold ofFactors
  rw [ite_scaleFirst, ite_scaleFirst, Shuffled.any_eq (fun _ _ => isUndefined_congr) (.of_map_eq h)]
  split
  · rfl
  split
  · rfl
  cases map_forget_eq_iff.1 h with
  | nil => rfl
  | @cons u u' rest rest' hu hrest =>
    have hhead : (u.scaleBy c).EqForget (u'.scaleBy c) := forget_scaleBy_congr c hu
    rw [if_neg (by simp), if_neg (by simp), scaleFirst, scaleFirst]
    cases hrest with
    | nil => exact hhead
    | cons hv hrest =>
      dsimp only
      rw [EqForget, forget_ite_product, forget_ite_product, forget_product, forget_product]
      exact congrArg product (map_forget_eq_iff.2 (.cons hhead (.cons hv hrest)))

theorem absorb_of_hasFiniteNumbers (hf : f.HasFiniteNumbers) (factors : List (Fn Exact)) :
    (absorb f factors).outcome = .ok zero := by
  obtain ⟨g, hg, -⟩ := (absorb_ends derivativeFailures_real.toFailures hf.kernels factors).exists_ok
  rw [hg, (absorb_meets f factors).of_ok hg]

/-- Products of the same functions in another order have the same simplified form. -/
theorem simplifyProduct_of_shuffled (hs : Respects simplify) (hn : Normalizes simplify)
    (h : Shuffled fs gs) (hgs : (product gs).HasFiniteNumbers) :
    Attempt.MatchedBy EqForget (simplifyProduct simplify fs) (simplifyProduct simplify gs) := by
  refine (h.mapM hs hn).bind fun ps qs ⟨hparts, hps, hqs⟩ => ?_
  have hflat : Shuffled (ps.flatMap toFactors) (qs.flatMap toFactors) :=
    hparts.flatMap fun f => by cases f <;> simp [toFactors]
  have hfactors {l : List (Fn Exact)} (hl : ∀ p ∈ l, p.Normal) :
      ∀ f ∈ l.flatMap toFactors, f.Reduced := by
    intro f hf
    obtain ⟨p, hp, hf⟩ := List.mem_flatMap.1 hf
    exact (toFactors_normal (hl p hp) f hf).reduced
  have hunits {l : List (Fn Exact)} (hl : ∀ f ∈ l, f.Reduced) :
      ∀ u ∈ (splitCoefficient l).2, u.Normal := by
    intro u hu
    have hunit := isUnitFactor_splitCoefficient hl u hu
    exact hunit.reduced.normal (by simp [hunit.value?])
  dsimp only
  rw [hflat.any_eq (p := fun f => f.value?.any (· == 0)) fun f g hfg => by rw [value?_congr hfg],
    hflat.any_eq fun _ _ => isUndefined_congr]
  split
  · intro g hg
    rw [(absorb_meets _ _).of_ok hg]
    exact ⟨zero, absorb_of_hasFiniteNumbers hgs _, rfl⟩
  split
  · exact .pure rfl
  · obtain ⟨hc, hsplit⟩ := hflat.splitCoefficient (hfactors hps)
    refine (hsplit.mergeNeighbours (fun hf hg => ?_) (hunits (hfactors hps))
      (hunits (hfactors hqs))).bind fun ms ms' hm => .pure ?_
    · refine mergeSimplified_matchedBy hs hn (.pure ?_)
      exact mergeMultiply?_rel hf.forget hg.forget hf.left.reduced.hasNoNaN hg.left.reduced.hasNoNaN
    · have hsame : ms.map forget = ms'.map forget :=
        map_forget_eq_iff.2 (hm.imp fun _ _ h => h.forget)
      have hreduced : ∀ m ∈ ms, m.Reduced := by
        intro m hmem
        obtain ⟨m', -, h⟩ := exists_mem_of_forall₂ hm.flip hmem
        exact h.left.reduced
      rw [hc, ((Shuffled.of_map_eq hsame).splitCoefficient hreduced).1]
      exact ofFactors_congr (splitCoefficient_snd_congr hsame)

end FunctionAlgebra.Fn
