import FunctionAlgebra.Fn.Simplify
import FunctionAlgebra.Proofs.Attempt

/-!
# What simplified parts are put together to

Once the parts of a function are simplified and merged, only a few cases are left in which they make
a function. They are listed here once, as inductive predicates.

## Main definitions

* `Fn.KernelStep` — what is done with a standard function whose inner function is simplified.
* `Fn.FromTerms`, `Fn.FromFactors` — what the sum of merged terms and the product of merged factors
  come to.

## Main statements

* `Fn.kernelStep_of_simplifyKernel`, `Fn.fromTerms_of_ofTerms`, `Fn.fromFactors_of_ofFactors` —
  there are no other cases.
-/

namespace FunctionAlgebra.Fn

variable {α : Type} [Scalar α]

/-! ## Standard functions -/

/-- What is done with a standard function of a simplified inner function. Exponents and frequencies
of zero leave a constant, and an exponent of one leaves the inner function. -/
inductive KernelStep (simplify : Fn α → Attempt α (Fn α)) (s : α) :
    Kernel α → Option (Fn α) → Attempt α (Fn α) → Prop where
  | exponentZero {p inner} (h0 : (p == 0) = true) :
    KernelStep simplify s (.power p) inner (pure (ofValue s))
  | exponentOne {p f} (h0 : (p == 0) = false) (h1 : (p == 1) = true) :
    KernelStep simplify s (.power p) (some f) (simplify (f.scaleBy s))
  | power {p inner} (h0 : (p == 0) = false) (h1 : ∀ f ∈ inner, (p == 1) = false) :
    KernelStep simplify s (.power p) inner (pure (scaled (.power p) s inner))
  | infiniteShift {omega shift inner} (h0 : (omega == 0) = true)
      (hshift : Scalar.isInfinite shift = true) :
    KernelStep simplify s (.sine omega shift) inner (throw .sineOfInfinity)
  | frequencyZero {omega shift inner} (h0 : (omega == 0) = true)
      (hshift : Scalar.isInfinite shift = false) :
    KernelStep simplify s (.sine omega shift) inner (pure (ofValue (s * Scalar.sin shift)))
  | sine {omega shift inner} (h0 : (omega == 0) = false) :
    KernelStep simplify s (.sine omega shift) inner (pure (scaled (.sine omega shift) s inner))
  | other {k inner} (hp : k.kind ≠ .power) (hsine : k.kind ≠ .sine) :
    KernelStep simplify s k inner (pure (scaled k s inner))

theorem kernelStep_of_simplifyKernel {simplify : Fn α → Attempt α (Fn α)} {k : Kernel α} {s : α}
    {inner : Option (Fn α)} {x : Attempt α (Fn α)} (h : simplifyKernel simplify k s inner = x) :
    KernelStep simplify s k inner x := by
  subst h
  cases k with
  | power p =>
    cases inner with
    | none =>
      simp only [simplifyKernel]
      split_ifs with h0
      · exact .exponentZero h0
      · exact .power (Bool.eq_false_iff.2 h0) nofun
    | some f =>
      simp only [simplifyKernel]
      split_ifs with h0 h1
      · exact .exponentZero h0
      · exact .exponentOne (Bool.eq_false_iff.2 h0) h1
      · exact .power (Bool.eq_false_iff.2 h0) fun _ _ => Bool.eq_false_iff.2 h1
  | sine omega shift =>
    simp only [simplifyKernel]
    split_ifs with h0 hshift
    · exact .infiniteShift h0 hshift
    · exact .frequencyZero h0 (Bool.eq_false_iff.2 hshift)
    · exact .sine (Bool.eq_false_iff.2 h0)
  | arcSine | arcTangent | exponential | logarithm => exact .other nofun nofun

/-! ## Sums and products -/

/-- A function is put together from parts, two or more of which are wrapped. Where the parts are
those of a function that is at hand, it is this one. -/
inductive Assembled (wrap : List (Fn α) → Fn α) (f : Fn α) (parts ts : List (Fn α)) :
    Fn α → Prop where
  | single {t} (hts : ts = [t]) : Assembled wrap f parts ts t
  | unchanged (hlen : 2 ≤ ts.length) (hsame : sameChildren ts parts = true) :
    Assembled wrap f parts ts f
  | wrapped (hlen : 2 ≤ ts.length) : Assembled wrap f parts ts (wrap ts)

section Assembled

variable {wrap : List (Fn α) → Fn α} {f g : Fn α} {parts ts : List (Fn α)}

omit [Scalar α] in
theorem two_le_length (hnil : ts ≠ []) (hsingle : ∀ t, ts ≠ [t]) : 2 ≤ ts.length := by
  match ts with
  | [] => exact (hnil rfl).elim
  | [t] => exact (hsingle t rfl).elim
  | _ :: _ :: _ => simp

theorem assembled_of_two_le (hlen : 2 ≤ ts.length) :
    Assembled wrap f parts ts (if sameChildren ts parts then f else wrap ts) := by
  split_ifs with hsame
  · exact .unchanged hlen hsame
  · exact .wrapped hlen

theorem Assembled.holds {P : Fn α → Prop} (h : Assembled wrap f parts ts g) (hts : ∀ t ∈ ts, P t)
    (hsame : sameChildren ts parts = true → P f) (hwrap : P (wrap ts)) : P g := by
  cases h with
  | single hts' => exact hts _ (by simp [hts'])
  | unchanged _ hsame' => exact hsame hsame'
  | wrapped => exact hwrap

end Assembled

/-- A function is what the sum `f` comes to if its terms are simplified, flattened and merged to
`ts`. -/
inductive FromTerms (f : Fn α) (ts : List (Fn α)) : Fn α → Prop where
  | absorbed (hu : ts.any isUndefined = true) : FromTerms f ts undefined
  | empty (hdef : ts.any isUndefined = false) (hts : ts.filter (!·.isZero) = []) :
    FromTerms f ts zero
  | assembled {g} (hdef : ts.any isUndefined = false)
      (hg : Assembled sum f f.toTerms (ts.filter (!·.isZero)) g) :
    FromTerms f ts g

theorem fromTerms_of_ofTerms {f g : Fn α} {ts : List (Fn α)} (h : ofTerms f ts = g) :
    FromTerms f ts g := by
  unfold ofTerms at h
  cases hu : ts.any isUndefined with
  | true =>
    rw [hu, if_pos rfl] at h
    exact h ▸ .absorbed hu
  | false =>
    rw [hu, if_neg Bool.false_ne_true] at h
    split at h
    · exact h ▸ .empty hu ‹_›
    · exact h ▸ .assembled hu (.single ‹_›)
    · rename_i hnil hsingle
      exact h ▸ .assembled hu (assembled_of_two_le (two_le_length hnil hsingle))

inductive ScaledFirst (c : α) : List (Fn α) → List (Fn α) → Prop where
  | one {u us} (h1 : (c == 1) = true) : ScaledFirst c (u :: us) (u :: us)
  | head {u us} (h1 : (c == 1) = false) : ScaledFirst c (u :: us) (u.scaleBy c :: us)

theorem scaledFirst_cons (c : α) (u : Fn α) (us : List (Fn α)) :
    ScaledFirst c (u :: us) (if c == 1 then u :: us else scaleFirst c (u :: us)) := by
  split_ifs with h1
  · exact .one h1
  · exact .head (Bool.eq_false_iff.2 h1)

theorem ScaledFirst.forall_mem {P : Fn α → Prop} {c : α} {us gs : List (Fn α)}
    (h : ScaledFirst c us gs) (hus : ∀ u ∈ us, P u) (hscale : ∀ u, P u → P (u.scaleBy c)) :
    ∀ g ∈ gs, P g := by
  cases h with
  | one => exact hus
  | head =>
    rw [List.forall_mem_cons] at hus ⊢
    exact ⟨hscale _ hus.1, hus.2⟩

theorem ScaledFirst.ne_nil {c : α} {us gs : List (Fn α)} (h : ScaledFirst c us gs) : gs ≠ [] := by
  cases h <;> simp

/-- A function is what the product `f` comes to if its factors are simplified, flattened, split from
the coefficient `c` and merged to `us`. -/
inductive FromFactors (f : Fn α) (c : α) (us : List (Fn α)) : Fn α → Prop where
  | zero (h0 : (c == 0) = true) : FromFactors f c us zero
  | absorbed (hu : (Scalar.isNaN c || us.any isUndefined) = true) : FromFactors f c us undefined
  | constant (hnan : Scalar.isNaN c = false) (hus : us = []) : FromFactors f c us (ofValue c)
  | assembled {gs g} (h0 : (c == 0) = false) (hnan : Scalar.isNaN c = false)
      (hdef : us.any isUndefined = false) (hgs : ScaledFirst c us gs)
      (hg : Assembled product f f.toFactors gs g) :
    FromFactors f c us g

theorem fromFactors_of_ofFactors {f g : Fn α} {c : α} {us : List (Fn α)}
    (h : ofFactors f c us = g) : FromFactors f c us g := by
  unfold ofFactors at h
  split at h
  · exact h ▸ .zero ‹_›
  rename_i h0
  split at h
  · exact h ▸ .absorbed ‹_›
  rename_i hu
  rw [Bool.not_eq_true, Bool.or_eq_false_iff] at hu
  cases us with
  | nil => exact h ▸ .constant hu.1 rfl
  | cons u us =>
    have hgs := scaledFirst_cons c u us
    refine .assembled (Bool.eq_false_iff.2 h0) hu.1 hu.2 hgs ?_
    simp only [List.isEmpty_cons, Bool.false_eq_true, if_false] at h
    split at h
    · exact h ▸ .single ‹_›
    · exact h ▸ assembled_of_two_le (two_le_length hgs.ne_nil ‹_›)

end FunctionAlgebra.Fn
