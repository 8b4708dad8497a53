import FunctionAlgebra.Attempt
import Mathlib.Data.List.Perm.Basic

/-!
# Reasoning about attempts

Only outcomes are compared here; warnings never change an outcome.

## Main definitions

* `FailsOnly` — what holds of the failure of a computation without warnings.
* `Attempt.Meets` — what holds of the result, if there is one, and of the failure, if there is one.
* `Attempt.Approximates` — an attempt is another one as far as its depth allows.
* `Attempt.MatchedBy` — results of an attempt are related to results of another one.

## Main statements

* `Attempt.Meets.bind` — conditions of two steps compose.
* `Attempt.mapM_eq_ok_iff` — a list is mapped if each of its items is.
-/

namespace FunctionAlgebra

variable {α β γ : Type}

/-- What stands in the second of two related lists is related to an item of the first. -/
theorem exists_mem_of_forall₂ {R : β → γ → Prop} {xs : List β} {ys : List γ} {y : γ}
    (h : List.Forall₂ R xs ys) (hy : y ∈ ys) : ∃ x ∈ xs, R x y := by
  induction h with
  | nil => cases hy
  | cons hxy _ ih =>
    rcases List.mem_cons.1 hy with rfl | hy
    · exact ⟨_, by simp, hxy⟩
    · obtain ⟨x, hx, hxy⟩ := ih hy
      exact ⟨x, by simp [hx], hxy⟩

theorem forall₂_and_of_forall_mem {R : β → γ → Prop} {P : β → Prop} {Q : γ → Prop} {xs : List β}
    {ys : List γ} (h : List.Forall₂ R xs ys) (hxs : ∀ x ∈ xs, P x) (hys : ∀ y ∈ ys, Q y) :
    List.Forall₂ (fun x y => R x y ∧ P x ∧ Q y) xs ys := by
  induction h with
  | nil => exact .nil
  | cons hxy _ ih =>
    rw [List.forall_mem_cons] at hxs hys
    exact .cons ⟨hxy, hxs.1, hys.1⟩ (ih hxs.2 hys.2)

/-! ## Computations without warnings -/

theorem exceptBind_eq_ok_iff {ε : Type} {r : Except ε β} {f : β → Except ε γ} {z : γ} :
    (r >>= f) = .ok z ↔ ∃ y, r = .ok y ∧ f y = .ok z := by
  cases r with
  | error e => simp [bind, Except.bind]
  | ok y => simp [bind, Except.bind]

/-- A list is mapped without warnings if each of its items is. -/
theorem exceptMapM_eq_ok_iff {ε : Type} {f : β → Except ε γ} {xs : List β} {ys : List γ} :
    xs.mapM f = .ok ys ↔ List.Forall₂ (fun x y => f x = .ok y) xs ys := by
  induction xs generalizing ys with
  | nil => cases ys <;> simp [pure, Except.pure]
  | cons x xs ih =>
    rw [List.mapM_cons]
    constructor
    · intro h
      cases hx : f x with
      | error e => simp [hx, bind, Except.bind] at h
      | ok y =>
        cases hxs : xs.mapM f with
        | error e => simp [hx, hxs, bind, Except.bind] at h
        | ok zs =>
          obtain rfl : y :: zs = ys := by
            simpa [hx, hxs, bind, Except.bind, pure, Except.pure] using h
          exact .cons hx (ih.1 hxs)
    · rintro (_ | ⟨hx, hxs⟩)
      simp [hx, ih.2 hxs, bind, Except.bind, pure, Except.pure]

/-- If the computation fails, its failure satisfies `E`. -/
def FailsOnly (E : Failure α → Prop) (r : Except (Failure α) β) : Prop := ∀ e, r = .error e → E e

namespace FailsOnly

variable {E : Failure α → Prop} {r : Except (Failure α) β}

theorem ok (x : β) : FailsOnly E (.ok x : Except (Failure α) β) := by
  intro e h
  cases h

theorem of_eq_ok {x : β} (h : r = .ok x) : FailsOnly E r := h ▸ ok x

theorem error {e : Failure α} (h : E e) : FailsOnly E (.error e : Except (Failure α) β) := by
  rintro _ ⟨⟩
  exact h

theorem bind {f : β → Except (Failure α) γ} (h : FailsOnly E r)
    (hf : ∀ x, r = .ok x → FailsOnly E (f x)) : FailsOnly E (r >>= f) := by
  cases r with
  | ok x => exact hf x rfl
  | error e => exact error (h e rfl)

theorem map {f : β → γ} (h : FailsOnly E r) : FailsOnly E (r.map f) := by
  cases r with
  | ok x => exact ok _
  | error e => exact error (h e rfl)

end FailsOnly

namespace Attempt

instance : LawfulMonad (Attempt α) := by
  refine LawfulMonad.mk' _ ?_ ?_ ?_
  · rintro β ⟨r, ws⟩
    cases r with
    | error e => rfl
    | ok x => simp [Functor.map]
  · intro β γ x f
    simp [bind, pure]
  · rintro β γ δ ⟨r, ws⟩ f g
    cases r with
    | error e => rfl
    | ok x =>
      simp only [bind]
      cases (f x).outcome <;> simp

@[simp] theorem outcome_throw (e : Failure α) : (throw e : Attempt α β).outcome = .error e := rfl

@[simp] theorem outcome_warn (w : Warning) : (warn w : Attempt α Unit).outcome = .ok () := rfl

@[simp] theorem outcome_ofExcept (r : Except (Failure α) β) : (ofExcept r).outcome = r := rfl

@[simp] theorem outcome_monadLift (r : Except (Failure α) β) :
    (monadLift r : Attempt α β).outcome = r := rfl

theorem outcome_bind (a : Attempt α β) (f : β → Attempt α γ) :
    (a >>= f).outcome = a.outcome >>= fun x => (f x).outcome := by
  obtain ⟨r, ws⟩ := a
  cases r <;> rfl

theorem pure_eq_ok_iff {x y : β} : (pure x : Attempt α β).outcome = .ok y ↔ x = y := by
  simp

theorem map_eq_ok_iff {a : Attempt α β} {f : β → γ} {y : γ} :
    (f <$> a).outcome = .ok y ↔ ∃ x, a.outcome = .ok x ∧ f x = y := by
  rw [← bind_pure_comp, bind_eq_ok_iff]
  simp

/-- If the attempt has a result, it satisfies `Q`; if it fails, the failure satisfies `E`. -/
def Meets (E : Failure α → Prop) (Q : β → Prop) (a : Attempt α β) : Prop :=
  match a.outcome with
  | .ok x => Q x
  | .error e => E e

variable {E : Failure α → Prop} {Q : β → Prop} {R : γ → Prop}

theorem Meets.of_ok {a : Attempt α β} {x : β} (h : a.Meets E Q) (hx : a.outcome = .ok x) : Q x := by
  simpa [Meets, hx] using h

theorem Meets.of_error {a : Attempt α β} {e : Failure α} (h : a.Meets E Q)
    (he : a.outcome = .error e) : E e := by
  simpa [Meets, he] using h

/-- An attempt that must not fail has a result. -/
theorem Meets.exists_ok {a : Attempt α β} (h : a.Meets (fun _ => False) Q) :
    ∃ x, a.outcome = .ok x ∧ Q x := by
  cases hx : a.outcome with
  | ok x => exact ⟨x, rfl, h.of_ok hx⟩
  | error e => exact (h.of_error hx).elim

theorem Meets.pure {x : β} (h : Q x) : (pure x : Attempt α β).Meets E Q := h

theorem Meets.throw {e : Failure α} (h : E e) : (throw e : Attempt α β).Meets E Q := h

theorem Meets.lift {r : Except (Failure α) β} (h : FailsOnly E r) (hQ : ∀ x, r = .ok x → Q x) :
    (monadLift r : Attempt α β).Meets E Q := by
  cases r with
  | ok x => exact hQ x rfl
  | error e => exact h e rfl

theorem Meets.of_eq_ok {a : Attempt α β} {x : β} (h : a.outcome = .ok x) :
    a.Meets E fun y => y = x := by
  simp [Meets, h]

theorem Meets.trivial (a : Attempt α β) : a.Meets (fun _ => True) fun _ => True := by
  cases h : a.outcome <;> simp [Meets, h]

theorem Meets.of_forall_ok {a : Attempt α β} (h : ∀ x, a.outcome = .ok x → Q x) :
    a.Meets (fun _ => True) Q := by
  cases hx : a.outcome with
  | ok x => simpa [Meets, hx] using h x hx
  | error e => simp [Meets, hx]

theorem Meets.mono {a : Attempt α β} {Q' : β → Prop} (h : a.Meets E Q) (hQ : ∀ x, Q x → Q' x) :
    a.Meets E Q' := by
  cases hx : a.outcome with
  | ok x => simpa [Meets, hx] using hQ x (h.of_ok hx)
  | error e => simpa [Meets, hx] using h.of_error hx

/-- A condition that results satisfy whatever the failures are. -/
theorem Meets.and_of_ok {a : Attempt α β} {Q' : β → Prop} (h : a.Meets E Q)
    (g : a.Meets (fun _ => True) Q') : a.Meets E (fun x => Q' x ∧ Q x) := by
  cases hx : a.outcome with
  | ok x => simpa [Meets, hx] using And.intro (g.of_ok hx) (h.of_ok hx)
  | error e => simpa [Meets, hx] using h.of_error hx

/-- The result of an attempt is what it is. -/
theorem Meets.outcome {a : Attempt α β} (h : a.Meets E Q) :
    a.Meets E (fun x => Q x ∧ a.outcome = .ok x) := by
  cases hx : a.outcome with
  | ok x => simpa [Meets, hx] using h.of_ok hx
  | error e => simpa [Meets, hx] using h.of_error hx

theorem Meets.bind {a : Attempt α β} {f : β → Attempt α γ} (h : a.Meets E Q)
    (hf : ∀ x, Q x → (f x).Meets E R) : (a >>= f).Meets E R := by
  obtain ⟨r, ws⟩ := a
  cases r with
  | ok x => exact hf x h
  | error e => exact h

/-- A list is mapped if each of its items is. -/
theorem mapM_eq_ok_iff {f : β → Attempt α γ} {xs : List β} {ys : List γ} :
    (xs.mapM f).outcome = .ok ys ↔ List.Forall₂ (fun x y => (f x).outcome = .ok y) xs ys := by
  induction xs generalizing ys with
  | nil => cases ys <;> simp [eq_comm]
  | cons x xs ih =>
    rw [List.mapM_cons, bind_eq_ok_iff]
    constructor
    · rintro ⟨y, hy, h⟩
      obtain ⟨ys', hys', rfl⟩ := map_eq_ok_iff.1 (by simpa using h)
      exact .cons hy (ih.1 hys')
    · rintro (_ | ⟨hy, hys⟩)
      refine ⟨_, hy, bind_eq_ok_iff.2 ⟨_, ih.2 hys, rfl⟩⟩

theorem Meets.mapM {f : β → Attempt α γ} {P : β → γ → Prop} {xs : List β}
    (h : ∀ x ∈ xs, (f x).Meets E (P x)) : (xs.mapM f).Meets E (List.Forall₂ P xs) := by
  induction xs with
  | nil => exact .nil
  | cons x xs ih =>
    rw [List.mapM_cons]
    refine (h x (by simp)).bind fun y hy => ?_
    refine (ih fun z hz => h z (by simp [hz])).bind fun ys hys => ?_
    exact List.Forall₂.cons hy hys

/-- What every result of a step satisfies, all items of a mapped list satisfy. -/
theorem Meets.mapM_forall {f : β → Attempt α γ} {xs : List β} (h : ∀ x ∈ xs, (f x).Meets E R) :
    (xs.mapM f).Meets E fun ys => ∀ y ∈ ys, R y := by
  refine (Meets.mapM h).mono fun ys hys y hy => ?_
  obtain ⟨x, -, hy⟩ := exists_mem_of_forall₂ hys hy
  exact hy

/-- What is known of the items that a result comes apart into is known of those of all results. -/
theorem Meets.mapM_flatMap {δ : Type} {f : β → Attempt α γ} {φ : γ → List δ} {S : δ → Prop}
    {xs : List β} (h : ∀ x ∈ xs, (f x).Meets E fun y => ∀ z ∈ φ y, S z) :
    (xs.mapM f).Meets E fun ys => ∀ z ∈ ys.flatMap φ, S z :=
  (Meets.mapM_forall h).mono fun _ hys _ hz =>
    have ⟨y, hy, hz⟩ := List.mem_flatMap.1 hz
    hys y hy _ hz

/-- Steps that agree on the result of the first one have one continuation. -/
theorem bind_congr_of_ok {a : Attempt α β} {f g : β → Attempt α γ}
    (h : ∀ x, a.outcome = .ok x → f x = g x) : a >>= f = a >>= g := by
  obtain ⟨r, ws⟩ := a
  cases r with
  | error e => rfl
  | ok x => simp [Bind.bind, h x rfl]

/-! ## Attempts that give up sooner -/

/-- An attempt that either exceeds the depth or is the other one, warnings included. -/
def Approximates (a b : Attempt α β) : Prop := a.outcome = .error .depthExceeded ∨ a = b

namespace Approximates

variable {a b c : Attempt α β}

theorem refl (a : Attempt α β) : a.Approximates a := .inr rfl

theorem trans (h : a.Approximates b) (g : b.Approximates c) : a.Approximates c := by
  obtain h | rfl := h
  · exact .inl h
  · exact g

theorem throw (a : Attempt α β) : (throw .depthExceeded : Attempt α β).Approximates a := .inl rfl

theorem eq_of_ne (h : a.Approximates b) (ha : a.outcome ≠ .error .depthExceeded) : a = b :=
  h.resolve_left ha

theorem of_ok (h : a.Approximates b) {x : β} (hx : a.outcome = .ok x) : b.outcome = .ok x := by
  rw [← h.eq_of_ne (by simp [hx]), hx]

theorem bind {f g : β → Attempt α γ} (h : a.Approximates b)
    (hfg : ∀ x, a.outcome = .ok x → (f x).Approximates (g x)) :
    (a >>= f).Approximates (b >>= g) := by
  obtain ⟨r, ws⟩ := a
  obtain h | rfl := h
  · obtain rfl : r = .error .depthExceeded := h
    exact .inl rfl
  · cases r with
    | error e => exact .refl _
    | ok x =>
      obtain hx | hx := hfg x rfl
      · exact .inl hx
      · exact .inr (by simp [Bind.bind, hx])

theorem mapM {f g : β → Attempt α γ} (h : ∀ x, (f x).Approximates (g x)) (xs : List β) :
    (xs.mapM f).Approximates (xs.mapM g) := by
  induction xs with
  | nil => exact .refl _
  | cons x xs ih =>
    simp only [List.mapM_cons]
    exact (h x).bind fun y _ => ih.bind fun _ _ => .refl _

end Approximates

/-! ## Attempts with corresponding results -/

/-- If the first attempt has a result, the second one has a result that is related to it. -/
def MatchedBy (R : β → γ → Prop) (a : Attempt α β) (b : Attempt α γ) : Prop :=
  ∀ x, a.outcome = .ok x → ∃ y, b.outcome = .ok y ∧ R x y

namespace MatchedBy

variable {δ ε : Type} {R : β → γ → Prop} {S : δ → ε → Prop} {a : Attempt α β} {b : Attempt α γ}

theorem pure {x : β} {y : γ} (h : R x y) :
    MatchedBy R (pure x : Attempt α β) (Pure.pure y : Attempt α γ) := by
  rintro _ ⟨⟩
  exact ⟨y, rfl, h⟩

theorem throw (e : Failure α) (b : Attempt α γ) :
    MatchedBy R (throw e : Attempt α β) b := by
  rintro _ ⟨⟩

theorem mono {R' : β → γ → Prop} (h : MatchedBy R a b) (hR : ∀ x y, R x y → R' x y) :
    MatchedBy R' a b := by
  intro x hx
  obtain ⟨y, hy, hxy⟩ := h x hx
  exact ⟨y, hy, hR x y hxy⟩

theorem trans {c : Attempt α δ} {S : γ → δ → Prop} (h : MatchedBy R a b) (g : MatchedBy S b c) :
    MatchedBy (Relation.Comp R S) a c := by
  intro x hx
  obtain ⟨y, hy, hxy⟩ := h x hx
  obtain ⟨z, hz, hyz⟩ := g y hy
  exact ⟨z, hz, y, hxy, hyz⟩

theorem and_meets {P : β → Prop} {Q : γ → Prop} (h : MatchedBy R a b)
    (ha : a.Meets (fun _ => True) P) (hb : b.Meets (fun _ => True) Q) :
    MatchedBy (fun x y => R x y ∧ P x ∧ Q y) a b := by
  intro x hx
  obtain ⟨y, hy, hxy⟩ := h x hx
  exact ⟨y, hy, hxy, ha.of_ok hx, hb.of_ok hy⟩

theorem bind {f : β → Attempt α δ} {g : γ → Attempt α ε} (h : MatchedBy R a b)
    (hfg : ∀ x y, R x y → MatchedBy S (f x) (g y)) : MatchedBy S (a >>= f) (b >>= g) := by
  intro z hz
  obtain ⟨x, hx, hz⟩ := bind_eq_ok_iff.1 hz
  obtain ⟨y, hy, hxy⟩ := h x hx
  obtain ⟨w, hw, hzw⟩ := hfg x y hxy z hz
  exact ⟨w, bind_eq_ok_iff.2 ⟨y, hy, hw⟩, hzw⟩

theorem mapM {f : β → Attempt α δ} {g : γ → Attempt α ε} {xs : List β} {ys : List γ}
    (h : List.Forall₂ (fun x y => MatchedBy S (f x) (g y)) xs ys) :
    MatchedBy (List.Forall₂ S) (xs.mapM f) (ys.mapM g) := by
  induction h with
  | nil => exact .pure .nil
  | cons hxy _ ih =>
    simp only [List.mapM_cons]
    exact hxy.bind fun x y hxy => ih.bind fun xs ys h => .pure (.cons hxy h)

end MatchedBy

/-- The results for a list in another order are the results in another order. -/
theorem mapM_matchedBy_of_perm {f : β → Attempt α γ} {xs ys : List β} (h : xs.Perm ys) :
    MatchedBy List.Perm (xs.mapM f) (ys.mapM f) := by
  intro zs hzs
  obtain ⟨ws, hws, hperm⟩ := List.perm_comp_forall₂ h.symm (mapM_eq_ok_iff.1 hzs)
  exact ⟨ws, mapM_eq_ok_iff.2 hws, hperm.symm⟩

end Attempt

end FunctionAlgebra
