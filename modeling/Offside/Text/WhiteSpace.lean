import Offside.Text.CharSet

/-!
White space: the characters with the property White_Space, and what is left of a
text once they are dropped from its end.
-/

namespace Offside.Text

def whiteSpaces : CharSet :=
  ⟨[
    9, 14, 32, 33, 133, 134, 160, 161, 5760, 5761, 8192, 8203, 8232, 8234, 8239, 8240, 8287,
    8288, 12288, 12289]⟩

def isWhiteSpace (c : Char) : Bool :=
  whiteSpaces.mem c

def trimEnd (s : String) : String :=
  String.ofList (s.toList.reverse.dropWhile isWhiteSpace).reverse

end Offside.Text
