import Offside.Lexeme

/-!
Expression trees, with their text as S-expressions and the counts of their leaves and
inner nodes.
-/

namespace Offside

inductive Expr
  | literal (l : Literal)
  | ident (i : Ident)
  | unary (op : UnaryOp) (argument : Expr)
  | binary (op : BinaryOp) (left right : Expr)
  | call (callee : Expr) (arguments : List Expr)
  | array (elements : List Expr)
  deriving Repr, Inhabited

namespace Expr

def form (words : List String) : String :=
  "(" ++ " ".intercalate words ++ ")"

mutual

def text : Expr → String
  | literal l => l.text
  | ident i => i.text
  | unary op argument => form [op.symbol, argument.text]
  | binary op left right => form [op.symbol, left.text, right.text]
  | call callee arguments => form ("call" :: callee.text :: texts arguments)
  | array elements => "\x7b" ++ ", ".intercalate (texts elements) ++ "\x7d"

def texts : List Expr → List String
  | [] => []
  | e :: es => e.text :: texts es

end

mutual

def leafCount : Expr → Nat
  | literal _ | ident _ => 1
  | unary _ argument => argument.leafCount
  | binary _ left right => left.leafCount + right.leafCount
  | call callee arguments => callee.leafCount + leafCounts arguments
  | array elements => leafCounts elements

def leafCounts : List Expr → Nat
  | [] => 0
  | e :: es => e.leafCount + leafCounts es

end

mutual

def innerCount : Expr → Nat
  | literal _ | ident _ => 0
  | unary _ argument => 1 + argument.innerCount
  | binary _ left right => 1 + left.innerCount + right.innerCount
  | call callee arguments => 1 + callee.innerCount + innerCounts arguments
  | array elements => 1 + innerCounts elements

def innerCounts : List Expr → Nat
  | [] => 0
  | e :: es => e.innerCount + innerCounts es

end

end Expr

end Offside
