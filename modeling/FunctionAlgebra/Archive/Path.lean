/-!
# Paths

A path is a text with slashes. Its parts lead, one after the other, from a directory to a place
below it.

## Main definitions

* `pathParts`, `pathOf` — the parts of a path, and the path with given parts.
* `Place` — the names that lead from a directory to a place below it.
* `Place.ofParts` — the place that a path means by its text alone.
* `Place.follow` — the place that a path leads to if every step starts from a directory.
-/

namespace FunctionAlgebra

def splitSlashes : List Char → List (List Char)
  | [] => [[]]
  | c :: cs =>
    if c == '/' then [] :: splitSlashes cs
    else match splitSlashes cs with
      | [] => [[c]]
      | piece :: pieces => (c :: piece) :: pieces

def joinSlashes : List (List Char) → List Char
  | [] => []
  | [piece] => piece
  | piece :: pieces => piece ++ '/' :: joinSlashes pieces

theorem splitSlashes_ne_nil (cs : List Char) : splitSlashes cs ≠ [] := by
  cases cs with
  | nil => simp [splitSlashes]
  | cons c cs => grind [splitSlashes]

theorem joinSlashes_cons (piece : List Char) {pieces : List (List Char)} (h : pieces ≠ []) :
    joinSlashes (piece :: pieces) = piece ++ '/' :: joinSlashes pieces := by
  cases pieces <;> simp_all [joinSlashes]

theorem joinSlashes_splitSlashes (cs : List Char) : joinSlashes (splitSlashes cs) = cs := by
  induction cs with
  | nil => rfl
  | cons c cs ih =>
    have nonempty := splitSlashes_ne_nil cs
    rw [splitSlashes]
    split
    · simp_all [joinSlashes_cons]
    · cases h : splitSlashes cs with
      | nil => contradiction
      | cons piece pieces => cases pieces <;> simp_all [joinSlashes]

def pathParts (path : String) : List String := (splitSlashes path.toList).map String.ofList

def pathOf (parts : List String) : String := String.ofList (joinSlashes (parts.map String.toList))

theorem pathOf_pathParts (path : String) : pathOf (pathParts path) = path := by
  have inverse : String.toList ∘ String.ofList = id := by
    funext cs
    simp
  simp [pathOf, pathParts, inverse, joinSlashes_splitSlashes]

/-- A place below a directory: the names that lead to it. -/
abbrev Place := List String

inductive Entry where
  | file
  | directory
deriving DecidableEq, Repr

inductive Obstacle where
  | missing
  | notDirectory
deriving DecidableEq, Repr

namespace Place

/-- The place that a part of a path leads to from a directory. An empty part and `.` stay there,
and `..` leads back. -/
def enter (place : Place) (part : String) : Place :=
  if part == "" || part == "." then place
  else if part == ".." then place.dropLast
  else place ++ [part]

def ofParts (parts : List String) : Place := parts.foldl enter []

/-- Follow a path from a place. Every part has to start from a directory. -/
def follow (entryAt : Place → Option Entry) (place : Place) : List String → Except Obstacle Place
  | [] => .ok place
  | part :: rest =>
    match entryAt place with
    | none => .error .missing
    | some .file => .error .notDirectory
    | some .directory => follow entryAt (place.enter part) rest

end Place

end FunctionAlgebra
