import Offside.Config
import Offside.Lexeme

/-!
What can be wrong with a source: one constructor per cause, with the kind of error,
the message and, for some, advice on how to mend it.
-/

namespace Offside

inductive ErrorKind
  | lexical
  | parse
  | scope
  | internal
  deriving DecidableEq, Repr

namespace ErrorKind

def label : ErrorKind → String
  | lexical => "Lexical Error"
  | parse => "Parse Error"
  | scope => "Scope Error"
  | internal => "Internal Error"

/-- The terminal's code for the colour of the label: red, yellow, magenta, blue. -/
def colour : ErrorKind → Nat
  | lexical => 31
  | parse => 33
  | scope => 35
  | internal => 34

end ErrorKind

inductive Nesting
  | brackets
  | operators
  | tree
  | blocks
  deriving DecidableEq, Repr

def Nesting.describe : Nesting → String
  | brackets => "Brackets and arrays"
  | operators => "Operators in one statement"
  | tree => "Operators and brackets"
  | blocks => "Blocks and else-if chains"

inductive Fault
  | mixedIndentation (expected : Indentation)
  | unevenIndentation (length width : Nat)
  | unclosedComment
  | unclosedNestedComment
  | unterminatedString
  | invalidEscape (c : Char)
  | incompleteHex
  | hexOutOfRange (digits : String)
  | manyDots
  | trailingDot
  | numberOutOfRange (digits : String)
  | unexpectedCharacter (c : Char)
  | emptyStatement
  | missingArgument
  | adjacentArguments
  | argumentThenUnary
  | leadingBinary
  | unaryThenBinary
  | binaryThenBinary
  | strayComma
  | missingValue
  | invalidLexeme (l : Lexeme)
  | unopenedBracket
  | unopenedBrace
  | unclosedBracket
  | unclosedBrace
  | memberOutsideClass (name : String)
  | tooDeep (what : Nesting) (limit : Nat)
  | unexpectedIndentation
  | elseWithoutIf
  | malformedElse
  | malformedClass
  | malformedFunction
  | malformedFor
  | malformedForeach
  | outsideFunction
  | nameTaken (name : String)
  | noRoot
  | unaryWithoutArgument
  | binaryWithoutArguments
  | callWithoutCallee
  | unknownSymbol (id : Nat)
  deriving DecidableEq, Repr

namespace Fault

/-- The internal ones break an invariant of the front end; no source brings them about. -/
def kind : Fault → ErrorKind
  | mixedIndentation _ | unevenIndentation .. | unclosedComment | unclosedNestedComment
  | unterminatedString | invalidEscape _ | incompleteHex | hexOutOfRange _ | manyDots
  | trailingDot | numberOutOfRange _ | unexpectedCharacter _ => .lexical
  | emptyStatement | missingArgument | adjacentArguments | argumentThenUnary | leadingBinary
  | unaryThenBinary | binaryThenBinary | strayComma | missingValue | invalidLexeme _
  | unopenedBracket | unopenedBrace | unclosedBracket | unclosedBrace | tooDeep ..
  | unexpectedIndentation | elseWithoutIf | malformedElse | malformedClass
  | malformedFunction | malformedFor | malformedForeach => .parse
  | memberOutsideClass _ | outsideFunction | nameTaken _ => .scope
  | noRoot | unaryWithoutArgument | binaryWithoutArguments | callWithoutCallee
  | unknownSymbol _ => .internal

def message : Fault → String
  | mixedIndentation expected =>
    "Mixed indentation, this module is indented with " ++ expected.describe
  | unevenIndentation length width =>
    "Indentation of " ++ toString length ++ " spaces is not a multiple of " ++ toString width
  | unclosedComment => "Unable to find the end of a multi-line comment"
  | unclosedNestedComment => "Unable to find the end of a nested comment"
  | unterminatedString => "Unterminated string literal"
  | invalidEscape c => "Invalid escape sequence '\\" ++ Text.escape c ++ "'"
  | incompleteHex => "Incomplete hex number"
  | hexOutOfRange digits => "Hex number 0x" ++ digits ++ " is out of range"
  | manyDots => "Encountered a floating point value containing multiple dots"
  | trailingDot => "Encountered a floating point value ending with a dot"
  | numberOutOfRange digits => "Number " ++ digits ++ " is out of range"
  | unexpectedCharacter c => "Unexpected character: '" ++ String.singleton c ++ "'"
  | emptyStatement => "Empty statement"
  | missingArgument => "An operator is missing an argument"
  | adjacentArguments => "Encountered two arguments without an operator between them"
  | argumentThenUnary =>
    "Encountered an argument followed by an unary operator without a binary operator between them"
  | leadingBinary => "Encountered a binary operator in the beginning of a statement"
  | unaryThenBinary => "Encountered a unary operator followed by a binary operator"
  | binaryThenBinary => "Encountered two sequential binary operators"
  | strayComma => "Encountered a comma outside of an argument list"
  | missingValue => "Operand lexeme without a value"
  | invalidLexeme l => "Invalid lexeme \"" ++ l.text ++ "\" in statement"
  | unopenedBracket => "Unmatched closing bracket"
  | unopenedBrace => "Unmatched closing curled brace"
  | unclosedBracket => "Unmatched opening bracket"
  | unclosedBrace => "Unmatched opening curled brace"
  | memberOutsideClass name => "Class member \"@" ++ name ++ "\" referenced outside of a class"
  | tooDeep .. => "Nesting too deep"
  | unexpectedIndentation => "Unexpected increase in the indentation level"
  | elseWithoutIf => "Encountered an else statement without a preceding if statement"
  | malformedElse => "Invalid else statement"
  | malformedClass => "Malformed class declaration"
  | malformedFunction =>
    "Encountered an invalid lexeme type in a function declaration - at this point only names " ++
      "are permitted"
  | malformedFor => "Invalid number of terms in a for statement"
  | malformedForeach => "Malformed foreach statement"
  | outsideFunction => "Regular statements and assignments need to be placed within functions"
  | nameTaken name =>
    "Name \"" ++ name ++
      "\" has already been used by another class, function or variable in the current scope"
  | noRoot => "Failed to perform operator resolution"
  | unaryWithoutArgument => "Unary operator without an argument reached operator resolution"
  | binaryWithoutArguments => "Binary operator without two arguments reached operator resolution"
  | callWithoutCallee => "Invalid call offset encountered during operator resolution"
  | unknownSymbol id => "Symbol " ++ toString id ++ " does not exist"

def help : Fault → Option String
  | strayComma =>
    some "Commas separate call arguments, array elements and the terms of a for statement."
  | tooDeep what limit =>
    some (what.describe ++ " may be nested at most " ++ toString limit ++ " levels deep.")
  | malformedElse => some "An else line is either bare or continues with another if statement."
  | malformedClass =>
    some "A class declaration consists of \"class\" followed by a single name."
  | malformedFor =>
    some "A for statement takes exactly three comma separated terms: for init, condition, step"
  | malformedForeach => some "Write it as: foreach name in container"
  | _ => none

def ofQuoted : Text.Quoted.Defect → Fault
  | .unterminated => unterminatedString
  | .badEscape c => invalidEscape c

end Fault

end Offside
