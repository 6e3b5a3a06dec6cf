import Offside.Error
import Offside.Module
import Offside.Module.Block
import Offside.Scan.Lines

/-!
Modules from lines. A line first closes the blocks that are deeper than itself; an else
line goes on with the if statement that ends there; any other line declares a symbol, is
a statement, or opens a block. Every fault is that of the line being read.
-/

namespace Offside.Module

/-- What follows the word on an else line; nothing for any other line. -/
def afterElse? : List Lexeme → Option (List Lexeme)
  | l :: rest => if l.kind = .keyword .else_ then some rest else none
  | [] => none

namespace State

def setting (config : Config) (s : State) : Expr.Setting :=
  ⟨config.maxDepth, s.inClass⟩

def statement (config : Config) (s : State) (lexemes : List Lexeme) : Except Fault Expr :=
  Expr.parseStatement (s.setting config) lexemes

def declareClass (config : Config) (line : Nat) (header : List Lexeme) (s : State) :
    Except Fault State :=
  match header.mapM (·.plainName?) with
  | some [name] => do
    let (symbols, id) ← s.symbols.declare s.scope name .class_
    { s with symbols }.enter config.maxDepth (.class_ id) line
  | _ => .error .malformedClass

def declareArguments (id : Nat) (arguments : List String) (symbols : SymbolTree) :
    Except Fault SymbolTree :=
  arguments.foldlM (fun symbols name => (·.1) <$> symbols.declare id name .variable_) symbols

def declareFunction (config : Config) (line : Nat) (header : List Lexeme) (s : State) :
    Except Fault State :=
  match header.mapM (·.plainName?) with
  | some (name :: arguments) => do
    let (symbols, id) ← s.symbols.declare s.scope name .function
    let symbols ← declareArguments id arguments symbols
    { s with symbols }.enter config.maxDepth (.function id arguments) line
  | _ => .error .malformedFunction

def openIf (config : Config) (line : Nat) (header : List Lexeme) (chain : List Arm)
    (s : State) : Except Fault State := do
  let condition ← s.statement config header
  s.enter config.maxDepth (.if_ condition chain) line

def openWhile (config : Config) (line : Nat) (header : List Lexeme) (s : State) :
    Except Fault State := do
  let condition ← s.statement config header
  s.enter config.maxDepth (.while_ condition) line

def openFor (config : Config) (line : Nat) (header : List Lexeme) (s : State) :
    Except Fault State := do
  match ← Expr.parseStatements (s.setting config) header with
  | [init, condition, step] => s.enter config.maxDepth (.for_ init condition step) line
  | _ => throw .malformedFor

def openForeach (config : Config) (line : Nat) (header : List Lexeme) (s : State) :
    Except Fault State :=
  match header with
  | item :: word :: container =>
    match item.plainName? with
    | some name =>
      if word.kind = .keyword .in_ then do
        let container ← s.statement config container
        s.enter config.maxDepth (.foreach ⟨name, .none⟩ container) line
      else .error .malformedForeach
    | none => .error .malformedForeach
  | _ => .error .malformedForeach

def addReturn (config : Config) (line : Nat) (value : List Lexeme) (s : State) :
    Except Fault State :=
  if value.isEmpty then .ok (s.add (.return_ (.literal .nil) line))
  else do return s.add (.return_ (← s.statement config value) line)

def read (config : Config) (line : Nat) (lexemes : List Lexeme) (s : State) :
    Except Fault State :=
  match lexemes with
  | [] => .ok s
  | first :: rest =>
    match first.kind with
    | .keyword .class_ => s.declareClass config line rest
    | .keyword .function => s.declareFunction config line rest
    | .keyword .else_ => .error .elseWithoutIf
    | kind =>
      if s.directlyInClass then .error .outsideFunction
      else
        match kind with
        | .keyword .if_ => s.openIf config line rest []
        | .keyword .while_ => s.openWhile config line rest
        | .keyword .for_ => s.openFor config line rest
        | .keyword .foreach => s.openForeach config line rest
        | .keyword .return_ => s.addReturn config line rest
        | _ => do return s.add (.expr (← s.statement config lexemes) line)

/-- The if statement at this level that the next line may go on with, the chain before it,
and what is around it. -/
def openArm? (height : Nat) (s : State) : Option (Arm × List Arm × State) :=
  match s.blocks with
  | ⟨.if_ condition chain, line, body⟩ :: outer =>
    if outer.length = height then
      some (⟨condition, body.reverse, line⟩, chain, { s with blocks := outer })
    else none
  | _ => none

/-- An else line behind an if statement; `rest` is what follows the word. -/
def otherwise (config : Config) (line : Nat) (rest : List Lexeme) (arm : Arm)
    (chain : List Arm) (s : State) : Except Fault State :=
  match rest with
  | [] => s.enter config.maxDepth (.else_ arm chain) line
  | first :: header =>
    if first.kind = .keyword .if_ then s.openIf config line header (arm :: chain)
    else .error .malformedElse

def step (config : Config) (s : State) (l : Line) : Except Fault State :=
  if s.blocks.length < l.indentation then .error .unexpectedIndentation
  else do
    let s ← s.leaveTo (l.indentation + 1)
    match s.openArm? l.indentation, afterElse? l.lexemes with
    | some (arm, chain, outer), some rest => outer.otherwise config l.number rest arm chain
    | _, _ => (← s.leaveTo l.indentation).read config l.number l.lexemes

/-- What remains once the last line is read: the open blocks end, and the statements
outside of every function make up the entry function. -/
def done (s : State) : Except Fault SymbolTree := do
  let s ← s.leaveTo 0
  s.symbols.setFunction SymbolTree.root ⟨[], s.entry.reverse⟩

def readAll (config : Config) (s : State) (lines : List Line) : Except Error State :=
  lines.foldlM (fun s l => atLine l.number (s.step config l)) s

theorem readAll_append (config : Config) (s : State) (a b : List Line) :
    s.readAll config (a ++ b) = s.readAll config a >>= (·.readAll config b) := by
  simp [readAll, List.foldlM_append]

end State

def symbolsOf (config : Config) (name : String) (lines : List Line) :
    Except Error SymbolTree := do
  let s ← (State.start name).readAll config lines
  atLine 0 s.done

def ofLines (config : Config) (name : String) (lines : List Line) : Except Error Module := do
  return ⟨name, ← symbolsOf config name lines⟩

def ofSource (config : Config) (name : String) (source : String) : Except Error Module := do
  ofLines config name (← tokenize config.indentation source)

end Offside.Module
