import Offside.Lexeme

/-!
Logical lines: the lexemes between two line breaks, with the number of the physical
line on which they start and their indentation in levels.
-/

namespace Offside

structure Line where
  number : Nat
  indentation : Nat
  lexemes : List Lexeme
  deriving DecidableEq, Repr

namespace Line

def alignRight (width : Nat) (s : String) : String :=
  String.ofList (List.replicate (width - s.length) ' ') ++ s

/-- One row: the number in four columns, the indentation in square brackets, the lexemes. -/
def text (l : Line) : String :=
  alignRight 4 (toString l.number) ++ " [" ++ toString l.indentation ++ "]" ++
    String.join (l.lexemes.map fun x => " " ++ x.text) ++ "\n"

end Line

def listing (lines : List Line) : String :=
  String.join (lines.map Line.text)

end Offside
