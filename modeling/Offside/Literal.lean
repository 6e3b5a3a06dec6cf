import Offside.Binary64
import Offside.Text.Escape
import Offside.Text.Quoted

/-!
Constants and the text that stands for each of them. Decimal integers are signed,
hexadecimal ones unsigned, both of 64 bits.
-/

namespace Offside

inductive Literal
  | nil
  | bool (b : Bool)
  | int (n : Int64)
  | uint (n : UInt64)
  | float (x : Binary64)
  | str (s : String)
  deriving DecidableEq, Repr

namespace Literal

def text : Literal → String
  | nil => "nil"
  | bool true => "true"
  | bool false => "false"
  | int n => toString n.toInt
  | uint n => "0x" ++ Text.hex n.toNat
  | float x => x.text
  | str s => "\"" ++ String.ofList (Text.Quoted.encode s.toList) ++ "\""

theorem text_str (s : String) :
    (str s).text.toList = '"' :: Text.Quoted.encode s.toList ++ ['"'] := by
  simp [text]

end Literal

end Offside
