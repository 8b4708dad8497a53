import FunctionAlgebra.Double
import FunctionAlgebra.Proofs.SineShifts
import FunctionAlgebra.Proofs.Storage

/-!
# Archives are maps

Under names that do not get in each other's way, an archive answers like a map from names to
functions, over any run of saving and loading, failed steps included.

## Main definitions

* `Catalog` — a map from names to functions, with saving and loading.
* `Archive.Represents` — an archive holds the functions of a map.
* `Archive.Step`, `Archive.perform`, `Catalog.perform` — what is asked of both, and their answers.
* `Archive.run`, `Catalog.run` — the answers to some steps.
* `Archive.Fits` — no name in a run leads through the place of a file that is saved in it.

## Main statements

* `Archive.Represents.perform` — a step keeps an archive and a map alike.
* `Archive.perform_save_of_not_function` — a value that is not a function is not stored.
* `Archive.run_answers_as_catalog` — a run from the empty archive is answered as by the map.
* `Archive.loadAs_fails_otherwise` — a function of another kind, refused with another failure.
-/

namespace FunctionAlgebra

variable {α : Type}

/-- A map from names of files to functions. -/
abbrev Catalog (α : Type) := String → Option (Fn α)

namespace Catalog

open Archive (path)

/-- The map after saving a function under a name, unless one is there that must be kept. -/
def save (m : Catalog α) (directory file : String) (f : Fn α) (overwrite : Bool) :
    Except (Failure α) (Catalog α) :=
  if (m file).isSome && !overwrite then .error (.fileExists (path directory file))
  else .ok (Function.update m file (some f))

def load (m : Catalog α) (directory file : String) : Except (Failure α) (Fn α) :=
  match m file with
  | some f => .ok f
  | none => .error (.fileMissing (quoted (path directory file)))

end Catalog

namespace Archive

/-- Neither of two names leads through the place of the other, unless they are one. -/
def Apart (k l : String) : Prop :=
  (pathParts k <+: pathParts l → k = l) ∧ (pathParts l <+: pathParts k → k = l)

instance (k l : String) : Decidable (Apart k l) := inferInstanceAs (Decidable (_ ∧ _))

/-- An archive holds the functions of a map, all of them saved under some names. -/
structure Represents (saved : String → Prop) (a : Archive α) (m : Catalog α) : Prop where
  get? : ∀ k, a.get? (pathParts k) = (m k).map fun f => .function f.toRecord
  saved : ∀ file ∈ a.files, ∃ k, saved k ∧ file.1 = pathParts k

namespace Represents

variable {saved : String → Prop} {a : Archive α} {m : Catalog α} {name file : String}

theorem empty (saved : String → Prop) : Represents saved (empty : Archive α) fun _ => none where
  get? _ := rfl
  saved := nofun

/-- No file is in the way of a name that is apart from those under which files are saved. -/
theorem clear (h : Represents saved a m) (hapart : ∀ s, saved s → Apart s file) :
    a.Clear (pathParts file) where
  above entry hentry hstart := by
    obtain ⟨s, hs, hplace⟩ := h.saved entry hentry
    rw [hplace] at hstart ⊢
    rw [(hapart s hs).1 hstart]
  below entry hentry hstart := by
    obtain ⟨s, hs, hplace⟩ := h.saved entry hentry
    rw [hplace] at hstart ⊢
    rw [(hapart s hs).2 hstart]

theorem put (h : Represents saved a m) (hfile : saved file) (f : Fn α) :
    Represents saved (a.put (pathParts file) (.function f.toRecord))
      (Function.update m file (some f)) where
  get? k := by
    rw [get?_put, Function.update_apply, h.get?]
    by_cases hk : k = file
    · simp [hk]
    · rw [if_neg fun hparts => hk (pathParts_injective hparts), if_neg hk]
  saved entry hentry := by
    rcases List.mem_cons.1 hentry with rfl | hrest
    · exact ⟨file, hfile, rfl⟩
    · exact h.saved entry (List.mem_of_mem_filter hrest)

/-- What is loaded is what the map holds. -/
theorem load (h : Represents saved a m) (hfile : IsPlain file)
    (hapart : ∀ s, saved s → Apart s file) (directory : String) :
    a.load directory file = m.load directory file := by
  have hget := h.get? file
  rw [Catalog.load]
  cases hm : m file with
  | none => exact load_eq_missing hfile (h.clear hapart) (by rw [hget, hm]; rfl) directory
  | some f => exact load_eq_ok hfile (h.clear hapart) (by rw [hget, hm]; rfl) directory

end Represents

/-! ## Steps -/

inductive Step (α : Type) where
  | save (name : String) (value : Argument α) (overwrite : Bool)
  /-- Saving a value by its own attribute. -/
  | saveItself (name : String) (value : Argument α) (overwrite : Bool)
  | load (name : String)
  /-- Loading a function that has to be of one of the kinds with a common name. -/
  | loadAs (name common : String) (belongs : Fn.Kind → Bool)

namespace Step

def name : Step α → String
  | save name _ _ | saveItself name _ _ | load name | loadAs name _ _ => name

def file : Step α → String
  | save name _ _ | saveItself name _ _ => fileName name
  | load name | loadAs name _ _ => name

def writes : Step α → Bool
  | save _ _ _ | saveItself _ _ _ => true
  | load _ | loadAs _ _ _ => false

end Step

def changed {σ : Type} (state : σ) :
    Except (Failure α) σ → Except (Failure α) (Option (Fn α)) × σ
  | .ok state => (.ok none, state)
  | .error cause => (.error cause, state)

variable [Scalar α]

/-- The answer to a step, which is a function if one is loaded, and the archive after it. -/
def perform (a : Archive α) (directory : String) :
    Step α → Except (Failure α) (Option (Fn α)) × Archive α
  | .save name value overwrite => changed a (a.saveArgument directory name value overwrite)
  | .saveItself name value overwrite => changed a (a.saveItself directory name value overwrite)
  | .load name => ((a.load directory name).map some, a)
  | .loadAs name common belongs => ((a.loadAs directory name common belongs).map some, a)

def run (a : Archive α) (directory : String) :
    List (Step α) → List (Except (Failure α) (Option (Fn α))) × Archive α
  | [] => ([], a)
  | step :: steps =>
    let (answer, a) := a.perform directory step
    let (answers, a) := a.run directory steps
    (answer :: answers, a)

end Archive

namespace Catalog

open Archive (Step fileName changed)

variable [Scalar α]

def refused {σ : Type} (value : Argument α) : Except (Failure α) σ := do
  let text ← value.describe
  .error (.onlyFunctionsSaved text)

def expect (f : Fn α) (common : String) (belongs : Fn.Kind → Bool) : Except (Failure α) (Fn α) :=
  if belongs f.kind then .ok f
  else do
    let text ← f.render
    .error (.storedOtherKind text common)

/-- The answer to a step, and the map after it. Only functions are saved, and only functions of the
kinds asked for are loaded. -/
def perform (m : Catalog α) (directory : String) :
    Step α → Except (Failure α) (Option (Fn α)) × Catalog α
  | .save name value overwrite => changed m <| match value with
    | .function f => m.save directory (fileName name) f overwrite
    | value => refused value
  | .saveItself name value overwrite => changed m <| match value with
    | .function f => m.save directory (fileName name) f overwrite
    | value => .error (.noAttribute value.typeName "save")
  | .load file => ((m.load directory file).map some, m)
  | .loadAs file common belongs =>
    ((m.load directory file >>= (expect · common belongs)).map some, m)

def run (m : Catalog α) (directory : String) :
    List (Step α) → List (Except (Failure α) (Option (Fn α))) × Catalog α
  | [] => ([], m)
  | step :: steps =>
    let (answer, m) := m.perform directory step
    let (answers, m) := m.run directory steps
    (answer :: answers, m)

end Catalog

namespace Archive

variable {saved : String → Prop} {a : Archive α} {m : Catalog α} {name file : String}

namespace Represents

/-- Saving a function keeps an archive and a map alike. -/
theorem save (h : Represents saved a m) (hname : IsPlain name) (hfile : saved (fileName name))
    (hapart : ∀ s, saved s → Apart s (fileName name)) (directory : String) (f : Fn α)
    (overwrite : Bool) :
    (changed a (a.save directory name f overwrite)).1 =
        (changed m (m.save directory (fileName name) f overwrite)).1 ∧
      Represents saved (changed a (a.save directory name f overwrite)).2
        (changed m (m.save directory (fileName name) f overwrite)).2 := by
  have hsome : (a.get? (pathParts (fileName name))).isSome = (m (fileName name)).isSome := by
    rw [h.get?, Option.isSome_map]
  rw [save_eq hname (h.clear hapart), hsome, Catalog.save]
  split_ifs
  · exact ⟨rfl, h⟩
  · exact ⟨rfl, h.put hfile f⟩

variable [Scalar α]

/-- What is not saved leaves both as they are. -/
theorem refused (h : Represents saved a m) (value : Argument α) :
    (changed a (Catalog.refused value)).1 = (changed m (Catalog.refused value)).1 ∧
      Represents saved (changed a (Catalog.refused value)).2
        (changed m (Catalog.refused value)).2 := by
  rw [Catalog.refused, Catalog.refused]
  cases value.describe with
  | ok text => exact ⟨rfl, h⟩
  | error cause => exact ⟨rfl, h⟩

theorem loadAs (h : Represents saved a m) (hfile : IsPlain file)
    (hapart : ∀ s, saved s → Apart s file) (directory common : String)
    (belongs : Fn.Kind → Bool) :
    a.loadAs directory file common belongs =
      m.load directory file >>= (Catalog.expect · common belongs) := by
  rw [Archive.loadAs, h.load hfile hapart directory]
  refine congrArg _ (funext fun f => ?_)
  rw [Catalog.expect]
  split_ifs <;> rfl

/-- A step keeps an archive and a map alike, and both give one answer. -/
theorem perform (h : Represents saved a m) {step : Step α} (hname : IsPlain step.name)
    (hfile : step.writes = true → saved step.file) (hapart : ∀ s, saved s → Apart s step.file)
    (directory : String) :
    (a.perform directory step).1 = (m.perform directory step).1 ∧
      Represents saved (a.perform directory step).2 (m.perform directory step).2 := by
  cases step with
  | save name value overwrite =>
    cases value with
    | function f => exact h.save hname (hfile rfl) hapart directory f overwrite
    | none | number | truth | text | interval => exact h.refused _
  | saveItself name value overwrite =>
    cases value with
    | function f => exact h.save hname (hfile rfl) hapart directory f overwrite
    | none | number | truth | text | interval => exact ⟨rfl, h⟩
  | load file => exact ⟨congrArg (Except.map some) (h.load hname hapart directory), h⟩
  | loadAs file common belongs =>
    exact ⟨congrArg (Except.map some) (h.loadAs hname hapart directory common belongs), h⟩

/-- Some steps keep an archive and a map alike, and all their answers are the same. -/
theorem run (h : Represents saved a m) {steps : List (Step α)}
    (hname : ∀ s ∈ steps, IsPlain s.name) (hfile : ∀ s ∈ steps, s.writes = true → saved s.file)
    (hapart : ∀ s ∈ steps, ∀ k, saved k → Apart k s.file) (directory : String) :
    (a.run directory steps).1 = (m.run directory steps).1 ∧
      Represents saved (a.run directory steps).2 (m.run directory steps).2 := by
  induction steps generalizing a m with
  | nil => exact ⟨rfl, h⟩
  | cons step steps ih =>
    rw [List.forall_mem_cons] at hname hfile hapart
    obtain ⟨hanswer, hstep⟩ := h.perform hname.1 hfile.1 hapart.1 directory
    obtain ⟨hanswers, hsteps⟩ := ih hstep hname.2 hfile.2 hapart.2
    exact ⟨congrArg₂ List.cons hanswer hanswers, hsteps⟩

end Represents

end Archive

/-! ## What is refused -/

namespace Archive

variable [Scalar α]

/-- A value that is not a function is refused by its text, if it has one, and no file is made. -/
theorem perform_save_of_not_function (a : Archive α) (directory name : String) {value : Argument α}
    (overwrite : Bool) (hvalue : ∀ f, value ≠ .function f)
    (hproper : value.Kernels Kernel.HasProperShift) :
    ∃ text, a.perform directory (.save name value overwrite) =
      (.error (.onlyFunctionsSaved text), a) := by
  have hrefused : a.saveArgument directory name value overwrite = Catalog.refused value := by
    cases value with
    | function f => exact (hvalue f rfl).elim
    | none | number | truth | text | interval => rfl
  rw [perform, hrefused, Catalog.refused]
  cases ht : value.describe with
  | ok text => exact ⟨text, rfl⟩
  | error cause => exact (Fn.failures_proper.describe hproper cause ht).elim

end Archive

namespace Catalog

variable [Scalar α] {f : Fn α} {common : String} {belongs : Fn.Kind → Bool}

theorem expect_eq_ok_iff : expect f common belongs = .ok f ↔ belongs f.kind = true := by
  unfold expect
  split_ifs with h
  · simp [h]
  · cases f.render <;> simp [h, bind, Except.bind]

/-- A function that has a text is refused by that text if it is of another kind. -/
theorem expect_eq_storedOtherKind_iff (hf : f.Kernels Kernel.HasProperShift) :
    (∃ text, expect f common belongs = .error (.storedOtherKind text common)) ↔
      belongs f.kind = false := by
  unfold expect
  split_ifs with h
  · simp [h]
  · cases ht : f.render with
    | ok text => simp [h, bind, Except.bind]
    | error cause => exact (Fn.failures_proper.render hf cause ht).elim

end Catalog

/-! ## Runs -/

namespace Archive

/-- All names in a run are plain, and no name in it leads through the place of a file that is saved
in it, or the other way round. -/
structure Fits (steps : List (Step α)) : Prop where
  plain : ∀ s ∈ steps, IsPlain s.name
  apart : ∀ s ∈ steps, s.writes = true → ∀ t ∈ steps, Apart s.file t.file

instance (steps : List (Step α)) : Decidable (Fits steps) :=
  decidable_of_iff ((∀ s ∈ steps, IsPlain s.name) ∧
      ∀ s ∈ steps, s.writes = true → ∀ t ∈ steps, Apart s.file t.file)
    ⟨fun h => ⟨h.1, h.2⟩, fun h => ⟨h.plain, h.apart⟩⟩

variable [Scalar α]

/-- A run from the empty archive is answered as by a map from names to functions, and its files are
those of the map. What is stored is loaded as one of some kinds if it is of one of them, and is
otherwise refused with its text, if it has one. So is a value that is to be saved and is not a
function, and then no file is made. -/
theorem run_answers_as_catalog {steps : List (Step α)} (h : Fits steps) (directory : String) :
    (empty.run directory steps).1 = (Catalog.run (fun _ => none) directory steps).1 ∧
    (∀ file, (empty.run directory steps).2.get? (pathParts file) =
      ((Catalog.run (fun _ => none) directory steps).2 file).map fun f => .function f.toRecord) ∧
    (∀ (f : Fn α) (common : String) (belongs : Fn.Kind → Bool),
      (Catalog.expect f common belongs = .ok f ↔ belongs f.kind = true) ∧
      (f.Kernels Kernel.HasProperShift →
        ((∃ text, Catalog.expect f common belongs = .error (.storedOtherKind text common)) ↔
          belongs f.kind = false))) ∧
    ∀ (a : Archive α) (name : String) (value : Argument α) (overwrite : Bool),
      (∀ f, value ≠ .function f) → value.Kernels Kernel.HasProperShift →
        ∃ text, a.perform directory (.save name value overwrite) =
          (.error (.onlyFunctionsSaved text), a) := by
  let saved (k : String) : Prop := ∃ s ∈ steps, s.writes = true ∧ s.file = k
  have hapart : ∀ t ∈ steps, ∀ k, saved k → Apart k t.file := by
    rintro t ht _ ⟨s, hs, hwrites, rfl⟩
    exact h.apart s hs hwrites t ht
  obtain ⟨hanswers, hfiles⟩ := (Represents.empty saved).run h.plain
    (fun s hs hwrites => ⟨s, hs, hwrites, rfl⟩) hapart directory
  exact ⟨hanswers, hfiles.get?,
    fun f common belongs => ⟨Catalog.expect_eq_ok_iff, Catalog.expect_eq_storedOtherKind_iff⟩,
    fun a name value overwrite hvalue hproper =>
      a.perform_save_of_not_function directory name overwrite hvalue hproper⟩

/-- A function is saved, then saved over, loaded, and loaded as one of another kind. In between, an
interval with a number in it is refused. -/
theorem run_answers_as_catalog_doubles :
    let f : Fn Float := .product [.const 0, .zero, .unary (.sine 2 1) 1 none]
    let i : Argument Float := .interval (.closed 0 1) (.number 3)
    let steps : List (Step Float) := [.save "d/a" (.function f) false,
      .saveItself "d/a.npy" (.function .one) false, .save "b" i true,
      .load "d/a.npy", .loadAs "d/a.npy" "Power" (· = .power)]
    Fits steps ∧
      (empty.run "." steps).1 = (Catalog.run (fun _ => none) "." steps).1 ∧
      ∃ text, empty.perform "." (.save "b" i true) = (.error (.onlyFunctionsSaved text), empty) := by
  intro f i steps
  have h : Fits steps := by
    decide +kernel
  obtain ⟨hanswers, -, -, hrefused⟩ := run_answers_as_catalog h "."
  exact ⟨h, hanswers, hrefused empty "b" i true nofun trivial⟩

/-- A function of another kind is not refused as such if it has no text. -/
theorem loadAs_fails_otherwise :
    let f : Fn Float := .unary (.sine 1 Scalar.infinity) 1 none
    let steps : List (Step Float) :=
      [.save "a" (.function f) false, .loadAs "a.npy" "Power" (· = .power)]
    Fits steps ∧ f.kind ≠ .power ∧
      ∀ text, (empty.run "." steps).1[1]? ≠ some (.error (.storedOtherKind text "Power")) := by
  intro f steps
  refine ⟨by decide +kernel, by decide, fun text h => ?_⟩
  have hanswer : ((empty.run "." steps).1[1]?.any fun
      | .error .infiniteAngle => true
      | _ => false) = true := by
    decide +kernel
  rw [h] at hanswer
  cases hanswer

end Archive

end FunctionAlgebra
