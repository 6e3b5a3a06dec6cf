/-!
Settings of the front end: what one level of indentation looks like, and how deep
things may nest.
-/

namespace Offside

inductive Indentation
  | tabs
  | spaces (n : Nat)
  deriving DecidableEq, Repr

namespace Indentation

def unit : Indentation → Char
  | tabs => '\t'
  | spaces _ => ' '

/-- How many of them make a level; no width is read as a width of one. -/
def width : Indentation → Nat
  | tabs => 1
  | spaces n => max n 1

theorem width_pos (i : Indentation) : 0 < i.width := by
  cases i <;> simp only [width] <;> omega

def describe : Indentation → String
  | tabs => "tabs"
  | spaces 1 => "single spaces"
  | spaces n => "groups of " ++ toString n ++ " spaces"

end Indentation

/-- `maxDepth` bounds the nesting of brackets, of blocks and else-if links, the operators
of one statement, and the depth of its tree. -/
structure Config where
  indentation : Indentation := .tabs
  maxDepth : Nat := 128
  deriving DecidableEq, Repr

end Offside
