import FunctionAlgebra.Archive.Path
import FunctionAlgebra.Archive.Record
import FunctionAlgebra.Argument
import FunctionAlgebra.Sorted.Stable

/-!
# Archives

A directory of files that hold functions or plain numbers. The order of saving is not kept: an
archive is a map from places to contents. A directory is there as long as files lie below it.

## Main definitions

* `Archive` — the files of a directory.
* `Archive.save`, `Archive.load`, `Archive.loadKind` — saving and loading functions.
* `Archive.saveNumbers` — saving plain numbers.
* `Archive.names` — the names of all files.
-/

namespace FunctionAlgebra

inductive Content (α : Type) where
  | function (record : Record α)
  | numbers (values : List α)

/-- The files of a directory, each with its place. -/
structure Archive (α : Type) where
  files : List (Place × Content α)

namespace Archive

variable {α : Type}

def empty : Archive α := ⟨[]⟩

def get? (a : Archive α) (place : Place) : Option (Content α) := a.files.lookup place

def put (a : Archive α) (place : Place) (content : Content α) : Archive α :=
  ⟨(place, content) :: a.files.filter (·.1 != place)⟩

def ending : String := ".npy"

/-- The name of the file for a given name: the ending is added where it is missing. -/
def fileName (name : String) : String := if name.endsWith ending then name else name ++ ending

def names (a : Archive α) : List String :=
  sortStable (fun s t => decide (s < t)) (a.files.map (pathOf ·.1))

def path (directory name : String) : String := directory ++ "/" ++ name

def hasDirectory (a : Archive α) (place : Place) : Bool :=
  a.files.any fun (file, _) => place.isPrefixOf file && place != file

/-- What lies at a place. The directories on the way to the place `made` are there, whether files
lie below them or not. -/
def entryAt (a : Archive α) (made place : Place) : Option Entry :=
  if (a.get? place).isSome then some .file
  else if place.isPrefixOf made || a.hasDirectory place then some .directory
  else none

def obstructed (shown : String) : Obstacle → Failure α
  | .missing => .fileMissing (quoted shown)
  | .notDirectory => .notDirectory (quoted shown)

/-- Make the directories that lead on from a place. A file can be in the way: then it stands where
the last one was to be made, or the next one cannot be made below it. -/
def makeDirectories (a : Archive α) (directory : String) (place : Place) :
    List String → Except (Failure α) Unit
  | [] => .ok ()
  | name :: rest =>
    let here := place ++ [name]
    let shown (p : Place) := quoted (path directory (pathOf p))
    if (a.get? here).isSome then
      .error <| match rest with
        | [] => .nameTaken (shown here)
        | next :: _ => .notDirectory (shown (here ++ [next]))
    else a.makeDirectories directory here rest

/-- Write a file at the end of a path, where the directories on the way to `made` are there. A file
that is there is kept, unless it may be overwritten. -/
def write (a : Archive α) (made : Place) (directory file : String) (overwrite : Bool)
    (content : Content α) : Except (Failure α) (Archive α) :=
  let shown := path directory file
  match Place.follow (a.entryAt made) [] (pathParts file) with
  | .error obstacle => .error (obstructed shown obstacle)
  | .ok place =>
    match a.entryAt made place with
    | none => .ok (a.put place content)
    | some entry =>
      if !overwrite then .error (.fileExists shown)
      else match entry with
        | .file => .ok (a.put place content)
        | .directory => .error (.isDirectory (quoted shown))

def isPath (name : String) : Bool := !name.toList.contains (Char.ofNat 0)

/-- Store a function. The directories on the way to the file are made first. -/
def save (a : Archive α) (directory name : String) (f : Fn α) (overwrite : Bool) :
    Except (Failure α) (Archive α) := do
  if !isPath name then throw .nullInPath
  let file := fileName name
  let parent := Place.ofParts (pathParts file).dropLast
  a.makeDirectories directory [] parent
  a.write parent directory file overwrite (.function f.toRecord)

def saveNumbers (a : Archive α) (directory name : String) (values : List α) :
    Except (Failure α) (Archive α) :=
  if !isPath name then .error .nullInPath
  else a.write [] directory (fileName name) true (.numbers values)

def load (a : Archive α) (directory name : String) : Except (Failure α) (Fn α) :=
  let shown := path directory name
  if !isPath name then .error .nullInPath
  else match Place.follow (a.entryAt []) [] (pathParts name) with
    | .error obstacle => .error (obstructed shown obstacle)
    | .ok place =>
      match a.get? place with
      | none =>
        .error (if a.entryAt [] place = none then .fileMissing (quoted shown)
          else .isDirectory (quoted shown))
      | some (.numbers _) => .error (.noFunctionInFile shown)
      | some (.function record) =>
        match record.toFn? with
        | some f => .ok f
        | none => .error (.noFunctionInFile shown)

variable [Scalar α]

def saveArgument (a : Archive α) (directory name : String) (value : Argument α)
    (overwrite : Bool) : Except (Failure α) (Archive α) :=
  match value with
  | .function f => a.save directory name f overwrite
  | value => do
    let text ← value.describe
    .error (.onlyFunctionsSaved text)

/-- Store a value by its own attribute `save`, which only functions have. -/
def saveItself (a : Archive α) (directory name : String) (value : Argument α)
    (overwrite : Bool) : Except (Failure α) (Archive α) :=
  match value with
  | .function f => a.save directory name f overwrite
  | value => .error (.noAttribute value.typeName "save")

/-- Load a function that has to be of one of the kinds with a common name. -/
def loadAs (a : Archive α) (directory name : String) (common : String)
    (belongs : Fn.Kind → Bool) : Except (Failure α) (Fn α) := do
  let f ← a.load directory name
  if belongs f.kind then return f
  let text ← f.render
  throw (.storedOtherKind text common)

def loadKind (a : Archive α) (directory name : String) (kind : Fn.Kind) :
    Except (Failure α) (Fn α) :=
  a.loadAs directory name kind.name (· = kind)

def loadStandard (a : Archive α) (directory name : String) : Except (Failure α) (Fn α) :=
  a.loadAs directory name "UnaryFunction" Fn.Kind.isStandard

end Archive

end FunctionAlgebra
