import FunctionAlgebra.Failure

/-!
# Lists of arguments

## Main definitions

* `chunks` — a list in pieces of one length.
* `unpackSingle` — the elements of a list that is given as the only argument.
* `joinColumns` — the texts at the same place in several lists, joined.
-/

namespace FunctionAlgebra

variable {α β : Type}

def chunksOf (n : Nat) : List β → List (List β)
  | [] => []
  | x :: xs => (x :: xs.take n) :: chunksOf n (xs.drop n)
termination_by xs => xs.length

/-- Pieces of a given size. There are none of negative size. -/
def chunks (size : Int) (xs : List β) : Except (Failure α) (List (List β)) :=
  if size = 0 then .error .zeroChunk
  else if size < 0 then .ok []
  else .ok (chunksOf (size.toNat - 1) xs)

/-- If there is one argument, and it has elements, these are the arguments. -/
def unpackSingle (elements? : β → Option (List β)) (args : List β) : List β :=
  match args with
  | [arg] => (elements? arg).getD args
  | args => args

def columns : List (List β) → List (List β)
  | [] => []
  | [xs] => xs.map ([·])
  | xs :: rest => xs.zipWith (· :: ·) (columns rest)

def joinColumns (separator : String) (lists : List (List String)) :
    Except (Failure α) (List String) :=
  if lists.isEmpty then .error .noLists
  else .ok ((columns lists).map (separator.intercalate ·))

end FunctionAlgebra
