import FunctionAlgebra.Double
import FunctionAlgebra.Evaluator
import FunctionAlgebra.Proofs.Attempt

/-!
# The derivatives that an evaluator keeps

An evaluator builds derivatives when they are asked for and keeps them, also when a later one fails.
What it keeps are the first iterates of one step, so its answers tell nothing of what it was asked
before.

## Main definitions

* `Fn.nthDerivative` — the iterates of taking the derivative and simplifying it.
* `Evaluator.Call`, `Evaluator.Answer`, `Evaluator.answer` — what an evaluator is asked and answers.
* `Evaluator.after` — an evaluator after some calls, whether these failed or not.
* `Evaluator.Remembers` — an evaluator keeps the first iterates for a function.

## Main statements

* `Evaluator.Remembers.after` — no calls make an evaluator keep anything else.
* `Evaluator.after_answers_as_new` — after any calls, an evaluator answers as a new one.
* `Evaluator.sample_fails_without_points` — a derivative that is missing, but none of its values.
-/

namespace FunctionAlgebra

variable {α : Type} [Scalar α]

def Fn.nthDerivative (f : Fn α) : Nat → Attempt α (Fn α)
  | 0 => pure f
  | n + 1 => f.nthDerivative n >>= Fn.nextDerivative

/-- Without a derivative of one order, there is none of a higher order. -/
theorem Fn.nthDerivative_eq_error {f : Fn α} {m n : Nat} {cause : Failure α}
    (h : (f.nthDerivative m).outcome = .error cause) (hmn : m ≤ n) :
    (f.nthDerivative n).outcome = .error cause := by
  induction hmn with
  | refl => exact h
  | step _ ih =>
    rw [nthDerivative, Attempt.outcome_bind, ih]
    rfl

namespace Evaluator

inductive Call (α : Type) where
  | call (x : α)
  | diff (x : α) (order : Int)
  | function (order : Int)
  | isZeroFunction (order : Int)
  | sample (xs : List α) (order : Int)

inductive Answer (α : Type) where
  | number (value : α)
  | function (f : Fn α)
  | truth (value : Bool)
  | numbers (values : List α)

def answer (e : Evaluator α) : Call α → Except (Failure α) (Answer α) × Evaluator α
  | .call x =>
    let (result, e) := e.call x
    (result.outcome.map .number, e)
  | .diff x order =>
    let (result, e) := e.diff x order
    (result.outcome.map .number, e)
  | .function order =>
    let (result, e) := e.function order
    (result.outcome.map .function, e)
  | .isZeroFunction order =>
    let (result, e) := e.isZeroFunction order
    (result.outcome.map .truth, e)
  | .sample xs order =>
    let (result, e) := e.sample xs order
    (result.outcome.map .numbers, e)

def after (e : Evaluator α) : List (Call α) → Evaluator α
  | [] => e
  | c :: calls => (e.answer c).2.after calls

/-- What an evaluator for `f` keeps are the first derivatives of `f`. -/
structure Remembers (f : Fn α) (allow : Bool) (e : Evaluator α) : Prop where
  root : e.root = f
  allowNonfinite : e.allowNonfinite = allow
  derivatives : ∀ (i : Nat) (d : Fn α), e.derivatives[i]? = some d →
    (f.nthDerivative (i + 1)).outcome = .ok d

theorem remembers_new (f : Fn α) (allow : Bool) : Remembers f allow (new f allow) :=
  ⟨rfl, rfl, by simp [new]⟩

theorem outcome_isZeroFunction (e : Evaluator α) (order : Int) :
    (e.isZeroFunction order).1.outcome =
      (e.function order).1.outcome >>= fun g => .ok g.isZero := by
  unfold isZeroFunction
  dsimp only
  rw [Attempt.outcome_bind]
  rfl

namespace Remembers

variable {f : Fn α} {allow : Bool} {e : Evaluator α}

/-- All that an evaluator keeps are derivatives, the function itself included. -/
theorem getElem? (h : Remembers f allow e) {n : Nat} {d : Fn α}
    (hd : (e.root :: e.derivatives)[n]? = some d) : (f.nthDerivative n).outcome = .ok d := by
  cases n with
  | zero =>
    obtain rfl : e.root = d := by simpa using hd
    simp [Fn.nthDerivative, h.root]
  | succ n => exact h.derivatives n d (by simpa using hd)

theorem last (h : Remembers f allow e) :
    (f.nthDerivative e.derivatives.length).outcome = .ok e.last := by
  apply h.getElem?
  rw [Evaluator.last, List.getLast?_eq_getElem?]
  cases e.derivatives with
  | nil => rfl
  | cons d ds => simp

/-- The next derivative, where there is one, is the one that is added. -/
theorem push (h : Remembers f allow e) {d : Fn α} (hd : e.last.nextDerivative.outcome = .ok d) :
    Remembers f allow { e with derivatives := e.derivatives ++ [d] } := by
  refine ⟨h.root, h.allowNonfinite, fun i g hg => ?_⟩
  rcases Nat.lt_or_ge i e.derivatives.length with hi | hi
  · exact h.derivatives i g (by simpa [List.getElem?_append_left hi] using hg)
  · obtain rfl : i = e.derivatives.length := by
      have := (List.getElem?_eq_some_iff.1 hg).1
      simp at this
      omega
    obtain rfl : d = g := by simpa using hg
    exact Attempt.bind_eq_ok_iff.2 ⟨_, h.last, hd⟩

/-- Growing by `n` derivatives fails if the last of them cannot be built. What was built before a
failure is kept. -/
theorem grow (h : Remembers f allow e) (n : Nat) :
    Remembers f allow (grow n e).2 ∧
    (grow n e).1.outcome = (f.nthDerivative (e.derivatives.length + n)).outcome.map (fun _ => ()) ∧
    ((grow n e).1.outcome = .ok () →
      e.derivatives.length + n ≤ (grow n e).2.derivatives.length) := by
  induction n generalizing e with
  | zero => exact ⟨h, by simp [Evaluator.grow, h.last, Except.map], fun _ => Nat.le_refl _⟩
  | succ n ih =>
    have hnext : (f.nthDerivative (e.derivatives.length + 1)).outcome =
        e.last.nextDerivative.outcome := by
      rw [Fn.nthDerivative, Attempt.outcome_bind, h.last]
      rfl
    rw [Evaluator.grow]
    cases hd : e.last.nextDerivative.outcome with
    | error cause =>
      have hn := Fn.nthDerivative_eq_error (hnext.trans hd)
        (Nat.add_le_add_left (Nat.succ_le_succ n.zero_le) _)
      exact ⟨h, by simp [hn, Except.map], by simp⟩
    | ok d =>
      obtain ⟨hkeeps, houtcome, hlength⟩ := ih (h.push hd)
      have hadd : (e.derivatives ++ [d]).length + n = e.derivatives.length + (n + 1) := by
        simp
        omega
      rw [hadd] at houtcome hlength
      exact ⟨hkeeps, houtcome, hlength⟩

theorem remembers_function (h : Remembers f allow e) (order : Int) :
    Remembers f allow (e.function order).2 := by
  unfold Evaluator.function
  split
  · exact h
  · exact (h.grow _).1

/-- A derivative of natural order is what the iterates say; other orders are refused. -/
theorem outcome_function (h : Remembers f allow e) (order : Int) :
    (e.function order).1.outcome =
      if order < 0 then .error (.invalidOrder order)
      else (f.nthDerivative order.toNat).outcome := by
  unfold Evaluator.function
  split
  · rfl
  · set n := order.toNat
    obtain ⟨hkeeps, houtcome, hlength⟩ := h.grow (n - e.derivatives.length)
    dsimp only
    generalize Evaluator.grow (n - e.derivatives.length) e = grown at hkeeps houtcome hlength
    rw [Attempt.outcome_bind]
    cases hresult : grown.1.outcome with
    | error cause =>
      have herror : (f.nthDerivative (e.derivatives.length + (n - e.derivatives.length))).outcome =
          .error cause := by
        rw [hresult] at houtcome
        cases ho : (f.nthDerivative (e.derivatives.length + (n - e.derivatives.length))).outcome with
        | error c => simpa [ho, Except.map, eq_comm] using houtcome
        | ok g => simp [ho, Except.map] at houtcome
      -- What is kept already does not fail.
      have hlt : e.derivatives.length < n := by
        by_contra hle
        rw [Nat.sub_eq_zero_of_le (Nat.le_of_not_lt hle), Nat.add_zero, h.last] at herror
        cases herror
      rw [Nat.add_sub_cancel' (Nat.le_of_lt hlt)] at herror
      rw [herror]
      rfl
    | ok u =>
      have hle : n < (grown.2.root :: grown.2.derivatives).length := by
        have := hlength hresult
        simp
        omega
      have hd := List.getElem?_eq_getElem hle
      rw [hkeeps.getElem? hd, hd]
      rfl

theorem outcome_diff (h : Remembers f allow e) (x : α) (order : Int) :
    (e.diff x order).1.outcome = (e.function order).1.outcome >>= fun g =>
      g.evaluate x >>= (new f allow).check order x := by
  have hcheck : (e.function order).2.check order x = (new f allow).check order x := by
    funext value
    rw [check, check, (h.remembers_function order).allowNonfinite]
    rfl
  rw [diff]
  dsimp only
  rw [Attempt.outcome_bind, hcheck]
  rfl

theorem outcome_sample (h : Remembers f allow e) (xs : List α) (order : Int) :
    (e.sample xs order).1.outcome = (e.function order).1.outcome >>= fun g =>
      (new f allow).sampleOf g xs := by
  have hsample (g : Fn α) : (e.function order).2.sampleOf g xs = (new f allow).sampleOf g xs := by
    rw [sampleOf, sampleOf, (h.remembers_function order).allowNonfinite]
    rfl
  rw [sample]
  dsimp only
  rw [Attempt.outcome_bind]
  simp only [hsample]
  rfl

/-- No call makes an evaluator keep anything but derivatives. -/
theorem answer (h : Remembers f allow e) (c : Call α) : Remembers f allow (e.answer c).2 := by
  cases c with
  | call x => exact h.remembers_function 0
  | diff x order => exact h.remembers_function order
  | function order => exact h.remembers_function order
  | isZeroFunction order => exact h.remembers_function order
  | sample xs order => exact h.remembers_function order

theorem after (h : Remembers f allow e) (calls : List (Call α)) :
    Remembers f allow (e.after calls) := by
  induction calls generalizing e with
  | nil => exact h
  | cons c calls ih => exact ih (h.answer c)

/-- What an evaluator answers depends on the function only. -/
theorem answer_eq_new (h : Remembers f allow e) (c : Call α) :
    (e.answer c).1 = ((new f allow).answer c).1 := by
  have hnew := remembers_new f allow
  have hfunction (order : Int) :
      (e.function order).1.outcome = ((new f allow).function order).1.outcome := by
    rw [h.outcome_function, hnew.outcome_function]
  have hdiff (x : α) (order : Int) :
      (e.diff x order).1.outcome = ((new f allow).diff x order).1.outcome := by
    rw [h.outcome_diff, hnew.outcome_diff, hfunction]
  cases c with
  | call x => exact congrArg (Except.map Answer.number) (hdiff x 0)
  | diff x order => exact congrArg (Except.map Answer.number) (hdiff x order)
  | function order => exact congrArg (Except.map Answer.function) (hfunction order)
  | isZeroFunction order =>
    have hzero : (e.isZeroFunction order).1.outcome =
        ((new f allow).isZeroFunction order).1.outcome := by
      rw [outcome_isZeroFunction, outcome_isZeroFunction, hfunction]
    exact congrArg (Except.map Answer.truth) hzero
  | sample xs order =>
    have hsample : (e.sample xs order).1.outcome =
        ((new f allow).sample xs order).1.outcome := by
      rw [h.outcome_sample, hnew.outcome_sample, hfunction]
    exact congrArg (Except.map Answer.numbers) hsample

end Remembers

def Accepts (e : Evaluator α) (value : α) : Prop :=
  e.allowNonfinite = true ∨ Scalar.isFinite value = true

theorem check_eq_ok_iff {e : Evaluator α} {order : Int} {x v w : α} :
    e.check order x v = .ok w ↔ v = w ∧ e.Accepts v := by
  unfold check Accepts
  cases e.allowNonfinite <;> cases Scalar.isFinite v <;> simp

theorem sampleOf_eq_ok_iff {e : Evaluator α} {g : Fn α} {xs vs : List α} :
    e.sampleOf g xs = .ok vs ↔
      xs.mapM (fun x => g.evaluate x) = .ok vs ∧ ∀ v ∈ vs, e.Accepts v := by
  unfold sampleOf Accepts
  cases xs.mapM (fun x => g.evaluate x) with
  | error cause => simp [bind, Except.bind]
  | ok ws =>
    by_cases hall : ∀ w ∈ ws, e.allowNonfinite = true ∨ Scalar.isFinite w = true
    · have hgoes : (!e.allowNonfinite && !ws.all Scalar.isFinite) = false := by
        cases h : e.allowNonfinite <;> simp_all
      simp only [bind, Except.bind, hgoes]
      constructor
      · rintro ⟨⟩
        exact ⟨rfl, hall⟩
      · rintro ⟨⟨⟩, -⟩
        rfl
    · have hstops : (!e.allowNonfinite && !ws.all Scalar.isFinite) = true := by
        cases h : e.allowNonfinite <;> simp_all
      simp only [bind, Except.bind, hstops]
      constructor
      · rintro ⟨⟩
      · rintro ⟨⟨⟩, h⟩
        exact absurd h hall

/-- Some points are sampled if the function has an accepted value at each of them. -/
theorem sampleOf_eq_ok_iff_forall₂ {e : Evaluator α} (order : Int) {g : Fn α} {xs vs : List α} :
    e.sampleOf g xs = .ok vs ↔
      List.Forall₂ (fun x v => (g.evaluate x >>= e.check order x) = .ok v) xs vs := by
  have hstep (x v : α) : (g.evaluate x >>= e.check order x) = .ok v ↔
      g.evaluate x = .ok v ∧ e.Accepts v := by
    cases hx : g.evaluate x with
    | error cause => simp [bind, Except.bind]
    | ok w =>
      simp only [bind, Except.bind, check_eq_ok_iff, Except.ok.injEq]
      constructor
      · rintro ⟨rfl, h⟩
        exact ⟨rfl, h⟩
      · rintro ⟨rfl, h⟩
        exact ⟨rfl, h⟩
  rw [sampleOf_eq_ok_iff, exceptMapM_eq_ok_iff]
  simp only [hstep]
  constructor
  · rintro ⟨h, haccepts⟩
    exact (forall₂_and_of_forall_mem h (P := fun _ => True) (fun _ _ => trivial) haccepts).imp
      fun x v hxv => ⟨hxv.1, hxv.2.2⟩
  · intro h
    refine ⟨h.imp fun x v hxv => hxv.1, fun v hv => ?_⟩
    obtain ⟨x, -, hxv⟩ := exists_mem_of_forall₂ h hv
    exact hxv.2

/-- Sampling some points is asking for the derivative and its value at each of them. -/
theorem Remembers.sample_eq_ok_iff {f : Fn α} {allow : Bool} {e : Evaluator α}
    (h : Remembers f allow e) (order : Int) (xs vs : List α) :
    (e.sample xs order).1.outcome = .ok vs ↔
      (∃ g, (e.function order).1.outcome = .ok g) ∧
      List.Forall₂ (fun x v => (e.diff x order).1.outcome = .ok v) xs vs := by
  simp only [h.outcome_sample, h.outcome_diff]
  cases hg : (e.function order).1.outcome with
  | error cause => simp [bind, Except.bind]
  | ok g =>
    simp only [bind, Except.bind, Except.ok.injEq, exists_eq', true_and]
    exact sampleOf_eq_ok_iff_forall₂ order

/-- Where there is a value, there is a derivative. -/
theorem Remembers.exists_function {f : Fn α} {allow : Bool} {e : Evaluator α}
    (h : Remembers f allow e) {x v : α} {order : Int} (hv : (e.diff x order).1.outcome = .ok v) :
    ∃ g, (e.function order).1.outcome = .ok g := by
  rw [h.outcome_diff] at hv
  cases hg : (e.function order).1.outcome with
  | error cause =>
    rw [hg] at hv
    cases hv
  | ok g => exact ⟨g, rfl⟩

/-- After any calls, also failed ones, every call is answered as by a new evaluator. The derivative
of an order is an iterate of taking the derivative and simplifying. Some points are sampled if the
derivative has an accepted value at each of them, and these are the values; without any point, if
there is a derivative. -/
theorem after_answers_as_new (f : Fn α) (allow : Bool) (calls : List (Call α)) :
    (∀ c, (((new f allow).after calls).answer c).1 = ((new f allow).answer c).1) ∧
    (∀ n : Nat, (((new f allow).after calls).function n).1.outcome =
      (f.nthDerivative n).outcome) ∧
    ∀ (n : Nat) (xs vs : List α), (((new f allow).after calls).sample xs n).1.outcome = .ok vs ↔
      List.Forall₂ (fun x v => (((new f allow).after calls).diff x n).1.outcome = .ok v) xs vs ∧
      (xs = [] → ∃ g, (((new f allow).after calls).function n).1.outcome = .ok g) := by
  have h := (remembers_new f allow).after calls
  refine ⟨h.answer_eq_new, fun n => ?_, fun n xs vs => ?_⟩
  · rw [h.outcome_function, if_neg (by omega), Int.toNat_natCast]
  · rw [h.sample_eq_ok_iff]
    constructor
    · rintro ⟨hg, hvs⟩
      exact ⟨hvs, fun _ => hg⟩
    · rintro ⟨hvs, hg⟩
      refine ⟨?_, hvs⟩
      cases hvs with
      | nil => exact hg rfl
      | cons hv _ => exact h.exists_function hv

/-- Where the derivative cannot be built, no points cannot be sampled, but no value is missing. -/
theorem sample_fails_without_points :
    let e := new (Fn.unary (.sine 1 (Scalar.infinity : Float)) 1 none) true
    ¬ ((∃ vs, (e.sample [] 1).1.outcome = .ok vs) ↔
      ∀ x ∈ ([] : List Float), ∃ v, (e.diff x 1).1.outcome = .ok v) := by
  intro e h
  obtain ⟨vs, hvs⟩ := h.2 (by simp)
  have hfails : (e.sample [] 1).1.outcome.isOk = false := by
    decide +kernel
  rw [hvs] at hfails
  cases hfails

end Evaluator

end FunctionAlgebra
