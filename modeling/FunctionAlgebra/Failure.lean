import FunctionAlgebra.Knots
import FunctionAlgebra.Text.Quoted

/-!
# Failures

## Main definitions

* `Failure` — the causes for which an operation has no result.
* `Failure.message` — their wording.
-/

namespace FunctionAlgebra

/-- Why an operation has no result. Texts in a failure are parts of its message that were written
when it arose. -/
inductive Failure (α : Type) where
  /-- A nested computation went deeper than its bound. -/
  | depthExceeded
  /-- An angle is infinite and has no whole number of turns. -/
  | infiniteAngle
  /-- An angle is a NaN. -/
  | undefinedAngle
  /-- The sine of an infinite angle. -/
  | sineOfInfinity
  /-- The base of a logarithm is too large. -/
  | baseOverflow
  /-- A piecewise function was evaluated outside its segments. -/
  | outsideDomain (x low high : α)
  | boundUndefined
  | boundsReversed (low high : α)
  | openPoint (x : α)
  | noTerms
  | noFactors
  | noSegments
  | overlap (first second : Interval α)
  /-- A segment is something else, written as `text`. -/
  | notSegment (text : String)
  | payloadNotFunction (range : Interval α)
  | invalidBase (base : α)
  /-- A leading coefficient was to be replaced by division, but it is zero. -/
  | zeroScale
  | oddSamples (count : Nat)
  | fewSamples
  | fewPoints
  | infinitePoint (x y : α)
  | contradiction (x first second : α)
  /-- A text does not denote a number. -/
  | notNumeral (text : String)
  /-- A value of this type is not a number. -/
  | notNumber (type : String)
  | tooManyNumbers (kind : String) (limit given : Nat)
  | tooManyPowerNumbers (given : Nat)
  | twoChains
  | chainNotFunction (text : String)
  | missing (role : String)
  | notFunction (role text : String)
  /-- Values of two types are not ordered. -/
  | unordered (relation first second : String)
  /-- Functions of two kinds were compared as if they were of one kind. -/
  | kindsDiffer (first second : String)
  | knotsUnlisted (text : String) (range : Interval α) (report : KnotReport)
  | invalidOrder (order : Int)
  | notFinite (order : Int) (x value : α)
  | samplesNotFinite
  | onlyFunctionsSaved (text : String)
  | fileExists (path : String)
  | fileMissing (path : String)
  /-- A directory was read as if it were a file. -/
  | isDirectory (path : String)
  /-- A file stands where a path needs a directory. -/
  | notDirectory (path : String)
  /-- A file stands where a directory was to be made. -/
  | nameTaken (path : String)
  /-- A path holds a null character. -/
  | nullInPath
  | noFunctionInFile (path : String)
  | storedOtherKind (text kind : String)
  /-- A value of this type was added to an angle. -/
  | notAngle (type : String)
  /-- A value of this type has no negative. -/
  | noNegative (type : String)
  | missingArguments (call : String) (names : List String)
  | surplusArguments (call : String) (least most given : Nat)
  | surplusChain (call : String)
  /-- An inner function was given by its place and by name. -/
  | repeatedChain (call : String)
  | pairTooLong
  | pairTooShort (count : Nat)
  | pairIndex
  | noLists
  | zeroChunk
  | noAttribute (kind name : String)

namespace Failure

open Scalar (numeral)

def message {α : Type} [Scalar α] : Failure α → String
  | depthExceeded => "maximum recursion depth exceeded"
  | infiniteAngle => "cannot convert float infinity to integer"
  | undefinedAngle => "cannot convert float NaN to integer"
  | sineOfInfinity => "math domain error"
  | baseOverflow => "math range error"
  | outsideDomain x low high =>
    numeral x ++ " is outside the domain [" ++ numeral low ++ ", " ++ numeral high ++ "]."
  | boundUndefined => "Interval bounds must not be NaN."
  | boundsReversed low high =>
    "Lower bound " ++ numeral low ++ " exceeds upper bound " ++ numeral high ++ "."
  | openPoint x => "Single point interval at " ++ numeral x ++ " must include both bounds."
  | noTerms => "A sum needs at least one term (no terms given)."
  | noFactors => "A product needs at least one factor (no terms given)."
  | noSegments => "A concatenation needs at least one segment."
  | overlap a b => "Segments " ++ a.text ++ " and " ++ b.text ++ " overlap."
  | notSegment text => "Segment " ++ text ++ " is not an Interval."
  | payloadNotFunction range => "Payload of segment " ++ range.text ++ " is not a function."
  | invalidBase base => "Invalid logarithm base: " ++ numeral base
  | zeroScale => "Cannot rescale a function with zero scale."
  | oddSamples n => "Expected pairs of x and y values, got " ++ toString n ++ " numbers."
  | fewSamples => "At least two points are needed."
  | fewPoints => "At least two distinct x values are needed."
  | infinitePoint x y => "Non-finite point (" ++ numeral x ++ ", " ++ numeral y ++ ")."
  | contradiction x y z =>
    "Contradicting values " ++ numeral y ++ " and " ++ numeral z ++ " at x=" ++ numeral x ++ "."
  | notNumeral text => "could not convert string to float: " ++ text
  | notNumber type => "float() argument must be a string or a real number, not '" ++ type ++ "'"
  | tooManyNumbers kind limit given =>
    kind ++ " takes at most " ++ toString limit ++ " numbers (" ++ toString given ++ " given)."
  | tooManyPowerNumbers given =>
    "Power takes at most a weight and an exponent (" ++ toString given ++ " numbers given)."
  | twoChains => "The chain function was given twice."
  | chainNotFunction text => "Chain must be a function, got " ++ text ++ "."
  | missing role => "The " ++ role ++ " must not be None."
  | notFunction role text => "Cannot use " ++ text ++ " as " ++ role ++ " (not a function)."
  | unordered relation a b =>
    "'" ++ relation ++ "' not supported between instances of '" ++ a ++ "' and '" ++ b ++ "'"
  | kindsDiffer a b => "Cannot compare " ++ a ++ " with " ++ b ++ "."
  | knotsUnlisted text range report =>
    "Cannot list the knots of " ++ text ++ " on " ++ range.text ++ " (" ++ report.name ++ ")."
  | invalidOrder n => "Invalid derivative order: " ++ toString n
  | notFinite n x value =>
    "Derivative " ++ toString n ++ " is not finite at x=" ++ numeral x ++ ": " ++ numeral value
  | samplesNotFinite => "Some values are not finite."
  | onlyFunctionsSaved text => "Only functions can be saved, got " ++ text ++ "."
  | fileExists path => "File already exists: " ++ path
  | fileMissing path => "[Errno 2] No such file or directory: " ++ path
  | isDirectory path => "[Errno 21] Is a directory: " ++ path
  | notDirectory path => "[Errno 20] Not a directory: " ++ path
  | nameTaken path => "[Errno 17] File exists: " ++ path
  | nullInPath => "embedded null byte"
  | noFunctionInFile path => "File " ++ path ++ " does not contain a function."
  | storedOtherKind text kind => "Stored function " ++ text ++ " is not a " ++ kind ++ "."
  | notAngle type =>
    if type == "str" then "can only concatenate str (not \"float\") to str"
    else "unsupported operand type(s) for +: '" ++ type ++ "' and 'float'"
  | noNegative type => "bad operand type for unary -: '" ++ type ++ "'"
  | missingArguments call names =>
    call ++ " missing " ++ toString names.length ++ " required positional argument" ++
      (if names.length = 1 then ": " else "s: ") ++
      " and ".intercalate (names.map fun n => "'" ++ n ++ "'")
  | surplusArguments call least most given =>
    call ++ " takes " ++
      (if least = most then toString most else "from " ++ toString least ++ " to " ++ toString most)
      ++ " positional argument" ++ (if most = 1 then "" else "s") ++ " but " ++ toString given ++
      (if given = 1 then " was given" else " were given")
  | surplusChain call => call ++ " got an unexpected keyword argument 'chain'"
  | repeatedChain call => call ++ " got multiple values for argument 'chain'"
  | pairTooLong => "too many values to unpack (expected 2)"
  | pairTooShort n => "not enough values to unpack (expected 2, got " ++ toString n ++ ")"
  | pairIndex => "tuple index out of range"
  | noLists => "map() must have at least two arguments."
  | zeroChunk => "range() arg 3 must not be zero"
  | noAttribute kind name => "'" ++ kind ++ "' object has no attribute '" ++ name ++ "'"

end Failure

end FunctionAlgebra
