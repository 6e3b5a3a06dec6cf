/-!
Characters spelled so that they can be seen, for messages that quote one.
-/

namespace Offside.Text

def hex (n : Nat) : String :=
  String.ofList (Nat.toDigits 16 n)

/-- Quotes, the backslash and the common controls are escaped by a backslash, the
rest of printable ASCII stands for itself, all else is given by code point. -/
def escape (c : Char) : String :=
  match c with
  | '\t' => "\\t"
  | '\r' => "\\r"
  | '\n' => "\\n"
  | '\'' => "\\'"
  | '"' => "\\\""
  | '\\' => "\\\\"
  | c =>
    if 0x20 ≤ c.toNat ∧ c.toNat ≤ 0x7e then String.singleton c
    else "\\u\x7b" ++ hex c.toNat ++ "\x7d"

end Offside.Text
