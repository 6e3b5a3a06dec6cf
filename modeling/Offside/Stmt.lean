import Offside.Expr
import Offside.Text.WhiteSpace

/-!
Statements with the lines they come from, and the functions they make up. The text of a
body is one row per statement, with the rows of nested bodies one step deeper.
-/

namespace Offside

inductive Stmt
  | expr (e : Expr) (line : Nat)
  | return_ (e : Expr) (line : Nat)
  | if_ (condition : Expr) (body : List Stmt) (line : Nat)
  | ifElse (condition : Expr) (body otherwise : List Stmt) (line : Nat)
  | foreach (item : Ident) (container : Expr) (body : List Stmt) (line : Nat)
  | for_ (init condition step : Expr) (body : List Stmt) (line : Nat)
  | while_ (condition : Expr) (body : List Stmt) (line : Nat)
  deriving Repr, Inhabited

structure Function where
  arguments : List String := []
  body : List Stmt := []
  deriving Repr, Inhabited

structure Row where
  depth : Nat
  text : String
  deriving DecidableEq, Repr

def Row.render (r : Row) : String :=
  String.ofList (List.replicate (2 * r.depth) ' ') ++ r.text ++ "\n"

def Row.renderAll (rows : List Row) : String :=
  String.join (rows.map Row.render)

namespace Stmt

def line : Stmt → Nat
  | expr _ line | return_ _ line | if_ _ _ line | ifElse _ _ _ line | foreach _ _ _ line
  | for_ _ _ _ _ line | while_ _ _ line => line

def head : Stmt → String
  | expr e _ => e.text
  | return_ e _ => "return " ++ e.text
  | if_ condition _ _ | ifElse condition _ _ _ => "if " ++ condition.text
  | foreach item container _ _ => "foreach " ++ item.text ++ " in " ++ container.text
  | for_ init condition step _ _ =>
    "for " ++ init.text ++ ", " ++ condition.text ++ ", " ++ step.text
  | while_ condition _ _ => "while " ++ condition.text

mutual

def rows (depth : Nat) (s : Stmt) : List Row :=
  ⟨depth, s.head⟩ ::
    match s with
    | expr .. | return_ .. => []
    | if_ _ body _ | foreach _ _ body _ | for_ _ _ _ body _ | while_ _ body _ =>
      bodyRows (depth + 1) body
    | ifElse _ body otherwise _ =>
      bodyRows (depth + 1) body ++ ⟨depth, "else"⟩ :: bodyRows (depth + 1) otherwise

def bodyRows (depth : Nat) : List Stmt → List Row
  | [] => []
  | s :: body => rows depth s ++ bodyRows depth body

end

/-- A statement on its own, without the white space at its end. -/
def text (s : Stmt) : String :=
  Text.trimEnd (Row.renderAll (s.rows 0))

end Stmt

end Offside
