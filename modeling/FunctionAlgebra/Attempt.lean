import FunctionAlgebra.Failure

/-!
# Attempts

The result of an operation that may fail and may warn. Warnings stay when the operation fails
later.

## Main definitions

* `Warning` — what a user should know about a result.
* `Attempt` — an outcome with the warnings that were given on the way.
-/

namespace FunctionAlgebra

inductive Warning where
  /-- A zero factor hides factors of the product, written as `text`, that are not finite. -/
  | absorbed (text : String)
deriving DecidableEq, Repr

def Warning.message : Warning → String
  | absorbed text => "Zero factor in " ++ text ++ " absorbs non-finite factors."

/-- An outcome and the warnings that were given before it, in order. -/
structure Attempt (α β : Type) where
  outcome : Except (Failure α) β
  warnings : List Warning

namespace Attempt

variable {α β γ : Type}

instance : Monad (Attempt α) where
  pure x := ⟨.ok x, []⟩
  bind a f := match a.outcome with
    | .ok x => ⟨(f x).outcome, a.warnings ++ (f x).warnings⟩
    | .error e => ⟨.error e, a.warnings⟩

instance : MonadExcept (Failure α) (Attempt α) where
  throw e := ⟨.error e, []⟩
  tryCatch a handle := match a.outcome with
    | .ok _ => a
    | .error e => ⟨(handle e).outcome, a.warnings ++ (handle e).warnings⟩

def ofExcept (r : Except (Failure α) β) : Attempt α β := ⟨r, []⟩

instance : MonadLift (Except (Failure α)) (Attempt α) := ⟨ofExcept⟩

def warn (w : Warning) : Attempt α Unit := ⟨.ok (), [w]⟩

@[ext] theorem ext {a b : Attempt α β} (h : a.outcome = b.outcome)
    (g : a.warnings = b.warnings) : a = b := by
  cases a; cases b; simp_all

@[simp] theorem outcome_pure (x : β) : (pure x : Attempt α β).outcome = .ok x := rfl

@[simp] theorem warnings_pure (x : β) : (pure x : Attempt α β).warnings = [] := rfl

theorem bind_eq_ok_iff {a : Attempt α β} {f : β → Attempt α γ} {y : γ} :
    (a >>= f).outcome = .ok y ↔ ∃ x, a.outcome = .ok x ∧ (f x).outcome = .ok y := by
  obtain ⟨r, ws⟩ := a
  cases r <;> simp [bind]

end Attempt

end FunctionAlgebra
