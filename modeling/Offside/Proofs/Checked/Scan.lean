import Mathlib
import Offside.Proofs.Checked.Run
import Offside.Scan.Lines

/-!
A source scanned by a cursor over its characters. The cursor is looked behind, moved back and
subtracted from; what has been passed is cut out of the source. Past the end every character is a
NUL, which a source may hold as well.
-/

namespace Offside.Scan

open Checked

/-- The characters, the place of the next one and the number of its line, the logical lines that are
finished and the one that is open. -/
structure Scanner where
  source : List Char
  style : Indentation
  current : Nat := 0
  number : Nat := 1
  lines : List Line := []
  latest : Line := ⟨1, 0, []⟩

abbrev Scanning (α : Type) := StateT Scanner (ExceptT Error Option) α

namespace Scanner

def atEnd (s : Scanner) : Bool :=
  s.source.length ≤ s.current

def peek (s : Scanner) : Char :=
  s.source[s.current]?.getD '\x00'

def peekNext (s : Scanner) : Char :=
  s.source[s.current + 1]?.getD '\x00'

def matches_ (marker : List Char) (s : Scanner) : Bool :=
  marker.zipIdx.all fun (c, i) => s.source[s.current + i]? == some c

def forward (n : Nat) (s : Scanner) : Scanner :=
  { s with current := s.current + n }

def newLine (s : Scanner) : Scanner :=
  { s with number := s.number + 1 }

def push (l : Lexeme) (s : Scanner) : Scanner :=
  { s with latest := { s.latest with lexemes := s.latest.lexemes ++ [l] } }

def indented (level : Nat) (s : Scanner) : Scanner :=
  { s with latest := ⟨s.number, level, []⟩ }

def finish (s : Scanner) : Scanner :=
  if s.latest.lexemes = [] then s
  else { s with lines := s.lines ++ [s.latest], latest := ⟨s.number, 0, []⟩ }

def fail {α : Type} (fault : Fault) : Scanning α := do
  let s ← get
  throw ⟨s.number, fault⟩

def advance : Scanning Char := do
  let s ← get
  unless s.atEnd do set (s.forward 1)
  return s.peek

def skip : Scanning Unit := do
  let _ ← advance

def stepBack : Scanning Unit := do
  let s ← get
  let current ← sub s.current 1
  set { s with current }

def repeatWhile (goes : Scanner → Bool) (step : Scanning Unit) : Scanning Unit := do
  let s ← get
  if goes s then
    step
    (· |>.repeatWhile goes step)
partial_fixpoint

def since (start : Nat) : Scanning (List Char) := do
  let s ← get
  let cs ← slice s.source start s.current
  return cs

/-- Measures the indentation of the physical line that starts here. -/
def beginLine : Scanning Unit := do
  let s ← get
  repeatWhile (isIndent ·.peek) (modify (·.forward 1))
  let indent ← since s.current
  let s ← get
  if s.peek = '\n' ∨ s.peek = '\r' ∨ s.peek = '\x00' then set (s.indented 0)
  else if indent.any (· != s.style.unit) then
    if s.peek = ';' then set (s.indented 0) else fail (.mixedIndentation s.style)
  else
    match s.style with
    | .tabs => set (s.indented indent.length)
    | .spaces n =>
      let (levels, left) ← divMod indent.length (max n 1)
      if left ≠ 0 ∧ s.peek ≠ ';' then fail (.unevenIndentation indent.length (max n 1))
      else set (s.indented levels)

/-- To the end of a comment between `;;`, the first of which is behind. -/
def blockEnd (start : Nat) : Scanning Unit := do
  let s ← get
  if s.atEnd then throw ⟨start, .unclosedComment⟩
  else if s.matches_ [';', ';'] then set (s.forward 2)
  else
    let c ← advance
    if c = '\n' then modify newLine
    (· |>.blockEnd start)
partial_fixpoint

/-- To the `.;` that closes the outermost of the comments that are open. -/
def nestedEnd (start depth : Nat) : Scanning Unit := do
  let s ← get
  if s.atEnd then throw ⟨start, .unclosedNestedComment⟩
  else if s.matches_ [';', '.'] then
    set (s.forward 2)
    (· |>.nestedEnd start (depth + 1))
  else if s.matches_ ['.', ';'] then
    let depth ← sub depth 1
    set (s.forward 2)
    unless depth = 0 do (· |>.nestedEnd start depth)
  else
    let c ← advance
    if c = '\n' then modify newLine
    (· |>.nestedEnd start depth)
partial_fixpoint

def comment : Scanning Unit := do
  let s ← get
  if s.matches_ [';', ';'] then
    set (s.forward 2)
    blockEnd s.number
  else if s.matches_ [';', '.'] then
    set (s.forward 2)
    nestedEnd s.number 1
  else repeatWhile (fun s => s.peek != '\n' && !s.atEnd) skip

def quoted (value : List Char) : Scanning (List Char) := do
  let s ← get
  if s.atEnd || s.peek == '\n' then fail (.ofQuoted .unterminated)
  else
    let c ← advance
    if c = '"' then return value
    else if c = '\\' then
      let l ← advance
      match Text.Quoted.meaning? l with
      | some c => (· |>.quoted (value ++ [c]))
      | none => fail (.ofQuoted (.badEscape l))
    else (· |>.quoted (value ++ [c]))
partial_fixpoint

/-- Passes digits and one dot at most, given whether there was one and which character was the
latest. -/
def digits (dot : Bool) (last : Char) : Scanning (Bool × Char) := do
  let s ← get
  if s.peek = '.' then
    if dot then fail .manyDots
    else
      skip
      (· |>.digits true s.peek)
  else if s.peek.isDigit then
    skip
    (· |>.digits dot s.peek)
  else return (dot, last)
partial_fixpoint

/-- The digits of a hexadecimal number, `0x` being behind. -/
def hexadecimal : Scanning Literal := do
  let s ← get
  repeatWhile (isHexDigit ·.peek) skip
  let t ← get
  if t.current = s.current then fail .incompleteHex
  else
    let run ← since s.current
    if hexValue run < UInt64.size then return .uint (UInt64.ofNat (hexValue run))
    else fail (.hexOutOfRange (String.ofList run))

def decimals (start : Nat) (first : Char) : Scanning Literal := do
  let (dot, last) ← digits false first
  if last = '.' then fail .trailingDot
  else
    let run ← since start
    if dot then
      let places := (run.dropWhile (· != '.')).length - 1
      return .float (Binary64.ofDecimal (decimalValue (run.filter (· != '.'))) places)
    else if decimalValue run < Nat.pow 2 63 then return .int (Int64.ofNat (decimalValue run))
    else fail (.numberOutOfRange (String.ofList run))

def numeral (first : Char) : Scanning Literal := do
  let s ← get
  let start ← sub s.current 1
  if first = '0' ∧ s.peek = 'x' then
    skip
    hexadecimal
  else decimals start first

def text : Scanning String := do
  let s ← get
  repeatWhile (isWordChar ·.peek) skip
  let run ← since s.current
  return String.ofList run

/-- The first character of punctuation, what it makes with another one, and what it makes alone. -/
def marks : List (Char × List (Char × Kind) × Kind) :=
  [('(', [], .openBracket), (')', [], .closeBracket), ('\x7b', [], .openBrace),
    ('\x7d', [], .closeBrace), (',', [], .comma), ('.', [], .operator .select), ('~', [], .bitNot),
    ('+', [('=', .operator .addAssign)], .operator .add),
    ('-', [('=', .operator .subtractAssign)], .operator .subtract),
    ('*', [('=', .operator .multiplyAssign)], .operator .multiply),
    ('/', [('=', .operator .divideAssign)], .operator .divide),
    ('%', [('=', .operator .remainderAssign)], .operator .remainder),
    ('^', [('^', .operator .bitXor), ('=', .operator .powerAssign)], .operator .power),
    ('=', [('=', .operator .equal)], .operator .assign), ('!', [('=', .operator .notEqual)], .not),
    ('<', [('<', .operator .shiftLeft), ('=', .operator .lessEqual)], .operator .less),
    ('>', [('>', .operator .shiftRight), ('=', .operator .greaterEqual)], .operator .greater),
    ('&', [('&', .operator .and)], .operator .bitAnd),
    ('|', [('|', .operator .or)], .operator .bitOr)]

def joined (plain : Kind) : List (Char × Kind) → Scanning Kind
  | [] => return plain
  | (d, k) :: others => do
    let s ← get
    if s.peek = d ∧ s.atEnd = false then
      set (s.forward 1)
      return k
    else joined plain others

def unmarked (c : Char) : Scanning Lexeme := do
  let s ← get
  if c = ':' ∧ s.peek = ':' ∧ isWordStart s.peekNext then
    skip
    return .ofIdent ⟨← text, .scope⟩
  else if c = '@' ∧ isWordStart s.peek then return .ofIdent ⟨← text, .member⟩
  else if c.isDigit then return .ofLiteral (← numeral c)
  else if isWordStart c then
    stepBack
    return .ofWord (← text)
  else fail (.unexpectedCharacter c)

def lexeme (c : Char) : Scanning Lexeme := do
  if c = '"' then return .ofLiteral (.str (String.ofList (← quoted [])))
  else
    match marks.lookup c with
    | some (others, plain) => return ⟨← joined plain others, none⟩
    | none => unmarked c

def step : Scanning Unit := do
  let c ← advance
  if c = '\n' then
    modify fun s => s.finish.newLine
    beginLine
  else if c = ' ' ∨ c = '\t' ∨ c = '\r' then return ()
  else if c = ';' then
    stepBack
    comment
  else
    let l ← lexeme c
    modify (push l)

def toEnd : Scanning (List Line) := do
  let s ← get
  if s.atEnd then return s.finish.lines
  else
    step
    (· |>.toEnd)
partial_fixpoint

end Scanner

def scan (style : Indentation) (source : String) : ExceptT Error Option (List Line) :=
  (do
    Scanner.beginLine
    Scanner.toEnd).run' { source := source.toList, style }

end Offside.Scan
