import Offside.Symbol.Outline

/-!
Modules: a name and the symbols below the entry function, whose body is made of the
statements outside of every function. A module is rendered from its outline, so that the
numbers of its symbols leave no trace in the text.
-/

namespace Offside

structure Module where
  name : String
  symbols : SymbolTree
  deriving Repr

namespace Module

def entry (m : Module) : List Stmt :=
  ((m.symbols.get? SymbolTree.root).map (·.body)).getD []

def resolve (m : Module) (name : String) : Option Nat :=
  m.symbols.resolve SymbolTree.root name

def outline (m : Module) : Except Fault Outline :=
  m.symbols.outline SymbolTree.root

def rows (name : String) : Outline → List Row
  | .node _ s children =>
    ⟨0, "module " ++ name⟩ :: (Stmt.bodyRows 1 s.body ++ Outline.rowsAll 1 children)

def text (m : Module) : Except Fault String := do
  return Row.renderAll (rows m.name (← m.outline))

end Module

end Offside
