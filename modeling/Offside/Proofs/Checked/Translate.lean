import Mathlib
import Offside.Module.Build
import Offside.Proofs.Checked.Parse
import Offside.Proofs.Checked.Tree

/-!
Modules read by a cursor over the lines. A body is read by a call of its own, at one level more than
the line that opens it; levels, classes and else-if links are counted up on the way in and, however
the body ends, down again. A line that is taken leaves an empty one behind.
-/

namespace Offside.Module

open Checked

/-- The lines, the place of the next one, and what surrounds it: its level, the classes, the scope
and the else-if links. -/
structure Translator where
  lines : List Line
  offset : Nat := 0
  indentation : Nat := 0
  classes : Nat := 0
  symbols : SymbolTree
  current : Nat := SymbolTree.root
  links : Nat := 0
  maxDepth : Nat

abbrev Translation (α : Type) := Run Error Translator α

namespace Translator

def fail {α : Type} (line : Nat) (fault : Fault) : Translation α :=
  throw ⟨line, fault⟩

/-- The lexemes of the next line, which is behind then and empty. -/
def takeLine : Translation (List Lexeme) := do
  let t ← get
  let l ← t.lines[t.offset]?
  set { t with lines := t.lines.set t.offset { l with lexemes := [] }, offset := t.offset + 1 }
  return l.lexemes

def setting (t : Translator) : Expr.Setting :=
  ⟨t.maxDepth, decide (0 < t.classes)⟩

def statement (line : Nat) (ws : List Lexeme) : Translation Expr := do
  let t ← get
  let read ← Expr.readStatement t.setting ws
  atLine line read

def statements (line : Nat) (ws : List Lexeme) : Translation (List Expr) := do
  let t ← get
  let read ← Expr.readStatements t.setting ws
  atLine line read

def declare (line : Nat) (name : String) (kind : SymbolKind) : Translation Nat := do
  let t ← get
  let (symbols, id) ← atLine line (← t.symbols.enroll t.current name kind)
  set { t with symbols }
  return id

/-- The dotted name of a declared symbol, which is asked for and not used. -/
def traceName (id : Nat) : Translation Unit := do
  let t ← get
  let _ ← t.symbols.address id

def declareAll (line : Nat) : List String → Translation Unit
  | [] => return ()
  | name :: names => do
    let _ ← declare line name .variable_
    declareAll line names

def className? : List Lexeme → Option String
  | [_, name] => name.plainName?
  | _ => none

def foreachHeader? : List Lexeme → Option (String × List Lexeme)
  | _ :: item :: word :: container =>
    if word.kind = .keyword .in_ then item.plainName?.map fun name => (name, container) else none
  | _ => none

def elseLine? (t : Translator) : Option Line := do
  let l ← t.lines[t.offset]?
  if l.indentation = t.indentation ∧ (l.lexemes.head?.map (·.kind)) = some (.keyword .else_) then
    some l
  else none

mutual

/-- The statements of a body, up to the first line that is less deep. -/
def body : Translation (List Stmt) := do
  let t ← get
  match t.lines[t.offset]? with
  | none => return []
  | some l =>
    if l.indentation < t.indentation then return []
    else if t.indentation < l.indentation then fail l.number .unexpectedIndentation
    else
      let lexemes ← takeLine
      let first ← (· |>.line l.number lexemes)
      let others ← (· |>.body)
      return first.toList ++ others
partial_fixpoint

def block (number : Nat) : Translation (List Stmt) := fun t =>
  if t.maxDepth ≤ t.indentation + t.links then
    some (.error ⟨number, .tooDeep .blocks t.maxDepth⟩, t)
  else do
    let (read, t) ← { t with indentation := t.indentation + 1 } |>.body
    return (read, { t with indentation := ← sub t.indentation 1 })
partial_fixpoint

def line (number : Nat) (lexemes : List Lexeme) : Translation (Option Stmt) :=
  match lexemes with
  | [] => return none
  | first :: _ =>
    match first.kind with
    | .keyword .class_ => do
      (· |>.class_ number lexemes)
      return none
    | .keyword .function => do
      (· |>.function number lexemes)
      return none
    | .keyword .else_ => fail number .elseWithoutIf
    | kind => do
      let t ← get
      let scope ← t.symbols.get? t.current
      if scope.kind ≠ .function then fail number .outsideFunction
      else
        let stmt ← (· |>.unit number kind lexemes)
        return some stmt
partial_fixpoint

def unit (number : Nat) (kind : Kind) (lexemes : List Lexeme) : Translation Stmt :=
  match kind with
  | .keyword .if_ => (· |>.chain number lexemes)
  | .keyword .while_ => do
    let condition ← statement number (← slice lexemes 1 lexemes.length)
    let body ← (· |>.block number)
    return .while_ condition body number
  | .keyword .for_ => do
    match ← statements number (← slice lexemes 1 lexemes.length) with
    | [init, condition, step] =>
      let body ← (· |>.block number)
      return .for_ init condition step body number
    | _ => fail number .malformedFor
  | .keyword .foreach => do
    match foreachHeader? lexemes with
    | some (name, container) =>
      let container ← statement number container
      let body ← (· |>.block number)
      return .foreach ⟨name, .none⟩ container body number
    | none => fail number .malformedForeach
  | .keyword .return_ => do
    if lexemes.length = 1 then return .return_ (.literal .nil) number
    else
      let e ← statement number (← slice lexemes 1 lexemes.length)
      return .return_ e number
  | _ => do
    let e ← statement number lexemes
    return .expr e number
partial_fixpoint

def class_ (number : Nat) (lexemes : List Lexeme) : Translation Unit :=
  match className? lexemes with
  | none => fail number .malformedClass
  | some name => do
    let id ← declare number name .class_
    traceName id
    let _ ← (· |>.inScope id 1 number [])
    return ()
partial_fixpoint

def function (number : Nat) (lexemes : List Lexeme) : Translation Unit := do
  let header ← slice lexemes 1 lexemes.length
  match header.mapM (·.plainName?) with
  | some (name :: arguments) =>
    let id ← declare number name .function
    traceName id
    let body ← (· |>.inScope id 0 number arguments)
    let t ← get
    let symbols ← t.symbols.redefine id fun _ => ⟨arguments, body⟩
    set { t with symbols }
  | _ => fail number .malformedFunction
partial_fixpoint

def inScope (id classes number : Nat) (arguments : List String) : Translation (List Stmt) :=
  fun outer => do
    let inside := { outer with current := id, classes := outer.classes + classes }
    let (read, t) ← (ExceptT.run (declareAll number arguments >>= fun _ => (· |>.block number))).run inside
    return (read, { t with current := outer.current, classes := ← sub t.classes classes })
partial_fixpoint

def chain (number : Nat) (lexemes : List Lexeme) : Translation Stmt := do
  let condition ← statement number (← slice lexemes 1 lexemes.length)
  let body ← (· |>.block number)
  match elseLine? (← get) with
  | none => return .if_ condition body number
  | some l =>
    let lexemes ← takeLine
    match lexemes[1]? with
    | none =>
      let otherwise ← (· |>.block l.number)
      return .ifElse condition body otherwise number
    | some next =>
      if next.kind = .keyword .if_ then
        let otherwise ← (· |>.link l.number lexemes)
        return .ifElse condition body [otherwise] number
      else fail l.number .malformedElse
partial_fixpoint

/-- The rest of a chain, one link further. -/
def link (number : Nat) (lexemes : List Lexeme) : Translation Stmt := fun t => do
  let header ← slice lexemes 1 lexemes.length
  let (read, t) ← { t with links := t.links + 1 } |>.chain number header
  return (read, { t with links := ← sub t.links 1 })
partial_fixpoint

end

end Translator

def translate (config : Config) (name : String) (lines : List Line) :
    Option (Except Error SymbolTree) := do
  let (read, t) ← (ExceptT.run Translator.body).run
    { lines, symbols := .new name, maxDepth := config.maxDepth }
  match read with
  | .error e => return .error e
  | .ok units => return .ok (← t.symbols.redefine SymbolTree.root fun f => { f with body := units })

end Offside.Module
