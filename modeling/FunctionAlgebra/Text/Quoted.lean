import FunctionAlgebra.Text.Printable

/-!
# Quoted texts

## Main definitions

* `quoted` — a text in quotation marks, with unprintable characters escaped.
-/

namespace FunctionAlgebra

def hexDigits : Nat → Nat → List Char
  | 0, _ => []
  | width + 1, n => hexDigits width (n / 16) ++ [Nat.digitChar (n % 16)]

def escaped (mark c : Char) : List Char :=
  if c = mark ∨ c = '\\' then ['\\', c]
  else if c = '\n' then ['\\', 'n']
  else if c = '\r' then ['\\', 'r']
  else if c = '\t' then ['\\', 't']
  else if isPrintable c then [c]
  else if c.toNat < 0x100 then '\\' :: 'x' :: hexDigits 2 c.toNat
  else if c.toNat < 0x10000 then '\\' :: 'u' :: hexDigits 4 c.toNat
  else '\\' :: 'U' :: hexDigits 8 c.toNat

/-- Single quotation marks, or double ones around a text that has a single one and no double
one. -/
def quoted (text : String) : String :=
  let cs := text.toList
  let mark := if '\'' ∈ cs ∧ '"' ∉ cs then '"' else '\''
  String.ofList (mark :: cs.flatMap (escaped mark) ++ [mark])

end FunctionAlgebra
