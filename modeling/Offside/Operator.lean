/-!
Operators with their symbols and binding levels. The level grows as the binding gets
looser, so the loosest operator of a statement has the largest level and ends up at
the root. A call binds like a selection, at level 1.
-/

namespace Offside

inductive UnaryOp
  | negate
  | not
  | bitNot
  deriving DecidableEq, Repr

inductive BinaryOp
  | add
  | subtract
  | multiply
  | divide
  | remainder
  | power
  | less
  | lessEqual
  | greater
  | greaterEqual
  | notEqual
  | equal
  | and
  | or
  | shiftLeft
  | shiftRight
  | bitAnd
  | bitOr
  | bitXor
  | select
  | assign
  | addAssign
  | subtractAssign
  | multiplyAssign
  | divideAssign
  | remainderAssign
  | powerAssign
  deriving DecidableEq, Repr

def callLevel : Nat := 1

namespace UnaryOp

def symbol : UnaryOp → String
  | negate => "-"
  | not => "!"
  | bitNot => "~"

def level (_ : UnaryOp) : Nat := 3

end UnaryOp

namespace BinaryOp

def symbol : BinaryOp → String
  | add => "+"
  | subtract => "-"
  | multiply => "*"
  | divide => "/"
  | remainder => "%"
  | power => "^"
  | less => "<"
  | lessEqual => "<="
  | greater => ">"
  | greaterEqual => ">="
  | notEqual => "!="
  | equal => "=="
  | and => "&&"
  | or => "||"
  | shiftLeft => "<<"
  | shiftRight => ">>"
  | bitAnd => "&"
  | bitOr => "|"
  | bitXor => "^^"
  | select => "."
  | assign => "="
  | addAssign => "+="
  | subtractAssign => "-="
  | multiplyAssign => "*="
  | divideAssign => "/="
  | remainderAssign => "%="
  | powerAssign => "^="

def level : BinaryOp → Nat
  | select => 1
  | power => 2
  | multiply | divide | remainder => 4
  | add | subtract => 5
  | shiftLeft | shiftRight => 6
  | less | lessEqual | greater | greaterEqual => 7
  | equal | notEqual => 8
  | bitAnd => 9
  | bitXor => 10
  | bitOr => 11
  | and => 12
  | or => 13
  | assign | addAssign | subtractAssign | multiplyAssign | divideAssign | remainderAssign
  | powerAssign => 14

def rightToLeft : BinaryOp → Bool
  | power | assign | addAssign | subtractAssign | multiplyAssign | divideAssign
  | remainderAssign | powerAssign => true
  | _ => false

theorem level_of_rightToLeft {op : BinaryOp} (h : op.rightToLeft = true) :
    op.level = 2 ∨ op.level = 14 := by
  cases op <;> simp [rightToLeft] at h <;> simp [level]

end BinaryOp

end Offside
