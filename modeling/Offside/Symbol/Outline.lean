import Offside.Symbol.Tree

/-!
Outlines: symbols nested in one another in place of their numbers, as they are walked and
rendered.
-/

namespace Offside

inductive Outline
  | node (id : Nat) (symbol : Symbol) (children : List Outline)
  deriving Repr

namespace Outline

mutual

def walk : Outline → List (Nat × Symbol)
  | node id symbol children => (id, symbol) :: walkAll children

def walkAll : List Outline → List (Nat × Symbol)
  | [] => []
  | o :: os => o.walk ++ walkAll os

end

def head (s : Symbol) : String :=
  " ".intercalate (s.kind.text :: s.name :: s.arguments)

mutual

/-- Functions with their bodies and classes, each before what is declared in it. Variables
are left out. -/
def rows (depth : Nat) : Outline → List Row
  | node _ s children =>
    if s.kind = .variable_ then []
    else
      ⟨depth, head s⟩ :: (Stmt.bodyRows (depth + 1) s.body ++ rowsAll (depth + 1) children)

def rowsAll (depth : Nat) : List Outline → List Row
  | [] => []
  | o :: os => o.rows depth ++ rowsAll depth os

end

end Outline

namespace SymbolTree

/-- The outline below a symbol. What is declared in a scope has a larger number than the
scope; a tree in which that fails has no outline. -/
def outline (t : SymbolTree) (id : Nat) : Except Fault Outline :=
  match _h : t.get? id with
  | none => .error (.unknownSymbol id)
  | some s => do
    let children ← s.children.mapM fun child =>
      if id < child.2 then t.outline child.2 else .error (.unknownSymbol child.2)
    return .node id s children
termination_by t.size - id
decreasing_by
  have := get?_lt _h
  omega

theorem outline_unknown {t : SymbolTree} {id : Nat} (h : t.get? id = none) :
    t.outline id = .error (.unknownSymbol id) := by
  rw [outline]
  split <;> simp_all

theorem outline_known {t : SymbolTree} {id : Nat} {s : Symbol} (h : t.get? id = some s) :
    t.outline id = do
      let children ← s.children.mapM fun child =>
        if id < child.2 then t.outline child.2 else .error (.unknownSymbol child.2)
      return .node id s children := by
  rw [outline]
  split <;> simp_all

end SymbolTree

end Offside
