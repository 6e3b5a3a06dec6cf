import Offside.Expr.Resolve

/-!
Expressions from lexemes. Each open bracket is a frame that gathers statements: a closed
statement is a tree, the open one a run of elements. A lexeme changes the innermost frame
only, or opens or closes one, so that parsing is a fold over the lexemes.
-/

namespace Offside.Expr

structure Setting where
  maxDepth : Nat
  inClass : Bool
  deriving DecidableEq, Repr

/-- What a frame is for. The first two stand for the whole line. -/
inductive Context
  | statement
  | statements
  | group
  | call
  | array
  deriving DecidableEq, Repr

namespace Context

def isList : Context → Bool
  | statement | group => false
  | statements | call | array => true

def unclosed? : Context → Option Fault
  | statement | statements => none
  | group | call => some .unclosedBracket
  | array => some .unclosedBrace

end Context

/-- The group of the latest element, which comes first in the run. -/
def lastGroup? : List Element → Option Group
  | [] => none
  | .operand _ :: _ => some .argument
  | .operator (.call ..) :: _ => some .argument
  | .operator (.unary _) :: _ => some .unaryOperator
  | .operator (.binary _) :: _ => some .binaryOperator

def close (maxDepth : Nat) (run : List Element) : Except Fault Measured :=
  match lastGroup? run with
  | none => .error .emptyStatement
  | some .argument =>
    if maxDepth < run.countP (·.isOperator) then .error (.tooDeep .operators maxDepth)
    else do
      let m ← resolve run.reverse
      if maxDepth < m.depth then .error (.tooDeep .tree maxDepth) else .ok m
  | some _ => .error .missingArgument

/-- Closed statements and the open one, the latest first in both. -/
structure Frame where
  context : Context
  closed : List Measured := []
  run : List Element := []
  deriving Repr

namespace Frame

def lastGroup? (f : Frame) : Option Group :=
  Expr.lastGroup? f.run

def push (e : Element) (f : Frame) : Frame :=
  { f with run := e :: f.run }

def closeStatement (maxDepth : Nat) (f : Frame) : Except Fault Frame := do
  return { f with closed := (← close maxDepth f.run) :: f.closed, run := [] }

/-- Room for a new argument: behind another one, a new statement has to begin. -/
def separate (maxDepth : Nat) (f : Frame) : Except Fault Frame :=
  if f.lastGroup? = some .argument then
    if f.context.isList then f.closeStatement maxDepth else .error .adjacentArguments
  else .ok f

/-- All statements of a list, which may be empty but may not end in a comma. -/
def statements (maxDepth : Nat) (f : Frame) : Except Fault (List Measured) :=
  if f.run.isEmpty && f.closed.isEmpty then .ok []
  else do return ((← close maxDepth f.run) :: f.closed).reverse

def element (maxDepth : Nat) (f : Frame) : Except Fault Element :=
  match f.context with
  | .call => do
    let ms ← f.statements maxDepth
    return .operator (.call (ms.map (·.expr)) (Measured.deepest ms))
  | .array => return .operand (.array (← f.statements maxDepth))
  | _ => return .operand (← close maxDepth f.run)

end Frame

structure State where
  frame : Frame
  outer : List Frame
  deriving Repr

namespace State

def start (c : Context) : State :=
  ⟨⟨c, [], []⟩, []⟩

def push (e : Element) (s : State) : State :=
  { s with frame := s.frame.push e }

def enter (maxDepth : Nat) (c : Context) (s : State) : Except Fault State :=
  if maxDepth ≤ s.outer.length then .error (.tooDeep .brackets maxDepth)
  else .ok ⟨⟨c, [], []⟩, s.frame :: s.outer⟩

def leave (maxDepth : Nat) (closes : Context → Bool) (fault : Fault) (s : State) :
    Except Fault State :=
  match s.outer with
  | f :: outer =>
    if closes s.frame.context then do
      return ⟨f.push (← s.frame.element maxDepth), outer⟩
    else .error fault
  | [] => .error fault

end State

def operand (inClass : Bool) (l : Lexeme) : Except Fault Expr :=
  match l.payload with
  | none => .error .missingValue
  | some (.literal x) => .ok (.literal x)
  | some (.name i) =>
    if i.sigil = .member ∧ inClass = false then .error (.memberOutsideClass i.name)
    else .ok (.ident i)

/-- A minus sign that follows no argument negates; any other binary operator needs one. -/
def binaryElement (op : BinaryOp) : Option Group → Except Fault Element
  | some .argument => .ok (.operator (.binary op))
  | g =>
    if op = .subtract then .ok (.operator (.unary .negate))
    else
      match g with
      | none => .error .leadingBinary
      | some .unaryOperator => .error .unaryThenBinary
      | some _ => .error .binaryThenBinary

def unaryElement (op : UnaryOp) : Option Group → Except Fault Element
  | some .argument => .error .argumentThenUnary
  | _ => .ok (.operator (.unary op))

/-- A bracket behind an argument calls it, any other groups. -/
def bracketContext : Option Group → Context
  | some .argument => .call
  | _ => .group

def step (setting : Setting) (s : State) (l : Lexeme) : Except Fault State :=
  match l.kind with
  | .openBracket => s.enter setting.maxDepth (bracketContext s.frame.lastGroup?)
  | .closeBracket =>
    s.leave setting.maxDepth (fun c => c = .group ∨ c = .call) .unopenedBracket
  | .openBrace => do
    let frame ← s.frame.separate setting.maxDepth
    { s with frame }.enter setting.maxDepth .array
  | .closeBrace => s.leave setting.maxDepth (· = .array) .unopenedBrace
  | .comma =>
    if s.frame.context.isList then do
      return { s with frame := ← s.frame.closeStatement setting.maxDepth }
    else .error .strayComma
  | .name | .literal => do
    let frame ← s.frame.separate setting.maxDepth
    let leaf ← operand setting.inClass l
    return { s with frame := frame.push (.operand (.leaf leaf)) }
  | .not => return s.push (← unaryElement .not s.frame.lastGroup?)
  | .bitNot => return s.push (← unaryElement .bitNot s.frame.lastGroup?)
  | .operator op => return s.push (← binaryElement op s.frame.lastGroup?)
  | .keyword _ => .error (.invalidLexeme l)

def run (setting : Setting) (s : State) (lexemes : List Lexeme) : Except Fault State :=
  lexemes.foldlM (step setting) s

theorem run_append (setting : Setting) (s : State) (a b : List Lexeme) :
    run setting s (a ++ b) = run setting s a >>= fun s => run setting s b := by
  simp [run, List.foldlM_append]

def State.finish (s : State) : Except Fault Frame :=
  match s.frame.context.unclosed? with
  | some fault => .error fault
  | none => .ok s.frame

def parseStatement (setting : Setting) (lexemes : List Lexeme) : Except Fault Expr := do
  let frame ← (← run setting (.start .statement) lexemes).finish
  return (← close setting.maxDepth frame.run).expr

def parseStatements (setting : Setting) (lexemes : List Lexeme) :
    Except Fault (List Expr) := do
  let frame ← (← run setting (.start .statements) lexemes).finish
  return (← frame.statements setting.maxDepth).map (·.expr)

end Offside.Expr
