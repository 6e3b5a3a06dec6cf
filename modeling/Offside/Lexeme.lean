import Offside.Ident
import Offside.Literal
import Offside.Operator

/-!
Lexemes: a kind, and for names and literals the value. A value may in fact sit on any
kind, and be missing on any; only what the lexer makes is well shaped.
-/

namespace Offside

inductive Keyword
  | class_
  | function
  | if_
  | else_
  | while_
  | for_
  | foreach
  | in_
  | return_
  deriving DecidableEq, Repr

def Keyword.text : Keyword → String
  | class_ => "class"
  | function => "function"
  | if_ => "if"
  | else_ => "else"
  | while_ => "while"
  | for_ => "for"
  | foreach => "foreach"
  | in_ => "in"
  | return_ => "return"

inductive Kind
  | name
  | literal
  | not
  | bitNot
  | operator (op : BinaryOp)
  | openBracket
  | closeBracket
  | openBrace
  | closeBrace
  | comma
  | keyword (k : Keyword)
  deriving DecidableEq, Repr

inductive Group
  | argument
  | unaryOperator
  | binaryOperator
  | bracket
  | terminator
  deriving DecidableEq, Repr

inductive Payload
  | name (i : Ident)
  | literal (l : Literal)
  deriving DecidableEq, Repr

structure Lexeme where
  kind : Kind
  payload : Option Payload := none
  deriving DecidableEq, Repr

namespace Kind

def unary? : Kind → Option UnaryOp
  | not => some .not
  | bitNot => some .bitNot
  | _ => none

def binary? : Kind → Option BinaryOp
  | operator op => some op
  | _ => none

def group? : Kind → Option Group
  | name | literal => some .argument
  | not | bitNot => some .unaryOperator
  | operator _ => some .binaryOperator
  | openBracket | closeBracket | openBrace | closeBrace => some .bracket
  | comma => some .terminator
  | keyword _ => none

def text : Kind → String
  | name => "Name"
  | literal => "Literal"
  | not => UnaryOp.not.symbol
  | bitNot => UnaryOp.bitNot.symbol
  | operator op => op.symbol
  | openBracket => "("
  | closeBracket => ")"
  | openBrace => "\x7b"
  | closeBrace => "\x7d"
  | comma => ","
  | keyword k => k.text

/-- Kinds spelled with punctuation, longer spellings first. -/
def symbols : List Kind :=
  [.operator .addAssign, .operator .subtractAssign, .operator .multiplyAssign,
    .operator .divideAssign, .operator .remainderAssign, .operator .powerAssign,
    .operator .bitXor, .operator .equal, .operator .notEqual, .operator .lessEqual,
    .operator .greaterEqual, .operator .shiftLeft, .operator .shiftRight, .operator .and,
    .operator .or,
    .openBracket, .closeBracket, .openBrace, .closeBrace, .comma, .not, .bitNot,
    .operator .select, .operator .add, .operator .subtract, .operator .multiply,
    .operator .divide, .operator .remainder, .operator .power, .operator .assign,
    .operator .less, .operator .greater, .operator .bitAnd, .operator .bitOr]

end Kind

namespace Payload

def text : Payload → String
  | name i => i.text
  | literal l => l.text

end Payload

namespace Lexeme

def ofIdent (i : Ident) : Lexeme :=
  ⟨.name, some (.name i)⟩

def ofLiteral (l : Literal) : Lexeme :=
  ⟨.literal, some (.literal l)⟩

def reserved : List (String × Lexeme) :=
  [("class", ⟨.keyword .class_, none⟩), ("function", ⟨.keyword .function, none⟩),
    ("if", ⟨.keyword .if_, none⟩), ("else", ⟨.keyword .else_, none⟩),
    ("while", ⟨.keyword .while_, none⟩), ("for", ⟨.keyword .for_, none⟩),
    ("foreach", ⟨.keyword .foreach, none⟩), ("in", ⟨.keyword .in_, none⟩),
    ("return", ⟨.keyword .return_, none⟩), ("true", ofLiteral (.bool true)),
    ("false", ofLiteral (.bool false)), ("nil", ofLiteral .nil)]

def ofWord (word : String) : Lexeme :=
  (reserved.lookup word).getD (ofIdent ⟨word, .none⟩)

def plainName? (l : Lexeme) : Option String :=
  match l.payload with
  | some (.name i) => i.plain?
  | _ => none

/-- An operator shows its symbol whatever it carries; any other kind shows the value it
carries in place of its spelling. -/
def text (l : Lexeme) : String :=
  match l.kind.binary?, l.kind.unary?, l.payload with
  | some op, _, _ => op.symbol
  | none, some op, _ => op.symbol
  | none, none, some p => p.text
  | none, none, none => l.kind.text

theorem text_ofIdent (i : Ident) : (ofIdent i).text = i.text := rfl

theorem text_of_payload_none (k : Kind) : (⟨k, none⟩ : Lexeme).text = k.text := by
  cases k <;> rfl

end Lexeme

end Offside
