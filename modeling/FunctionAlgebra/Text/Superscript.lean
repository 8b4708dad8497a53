/-!
# Superscripts

## Main definitions

* `superscript` — write a text in superscript characters, where there are any.
-/

namespace FunctionAlgebra

/-- The characters that can be raised. The letters C, F, Q, S, X, Y, Z and q cannot. -/
def plainCharacters : List Char :=
  "0123456789+-.,()=abcdefghijklmnoprstuvwxyzABDEGHIJKLMNOPRTUVW".toList

def raisedCharacters : List Char :=
  "⁰¹²³⁴⁵⁶⁷⁸⁹⁺⁻·ʾ⁽⁾⁼ᵃᵇᶜᵈᵉᶠᵍʰⁱʲᵏˡᵐⁿᵒᵖʳˢᵗᵘᵛʷˣʸᶻᴬᴮᴰᴱᴳᴴᴵᴶᴷᴸᴹᴺᴼᴾᴿᵀᵁⱽᵂ".toList

def raise (c : Char) : Char := ((plainCharacters.zip raisedCharacters).lookup c).getD c

def superscript (text : String) : String := text.map raise

end FunctionAlgebra
