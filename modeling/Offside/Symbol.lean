import Offside.Stmt

/-!
The symbols of a module: classes, functions and their arguments, each declared in a scope
that is a symbol itself. They are numbered in the order of declaration from 0, the
module's entry function. A symbol knows the number of its scope, which is smaller, and
those of the symbols declared in it, in the order of their names.
-/

namespace Offside

inductive SymbolKind
  | class_
  | function
  | variable_
  deriving DecidableEq, Repr

def SymbolKind.text : SymbolKind → String
  | class_ => "class"
  | function => "function"
  | variable_ => "variable"

structure Symbol where
  name : String
  kind : SymbolKind
  parent : Option Nat
  children : List (String × Nat) := []
  /-- What a function does; nothing for the other kinds. -/
  function : Option Function
  deriving Repr

namespace Symbol

def fresh (name : String) (kind : SymbolKind) (parent : Option Nat) : Symbol :=
  { name, kind, parent, function := if kind = .function then some {} else none }

def body (s : Symbol) : List Stmt :=
  (s.function.map (·.body)).getD []

def arguments (s : Symbol) : List String :=
  (s.function.map (·.arguments)).getD []

def insertChild (name : String) (id : Nat) :
    List (String × Nat) → List (String × Nat)
  | [] => [(name, id)]
  | child :: rest =>
    if name < child.1 then (name, id) :: child :: rest
    else child :: insertChild name id rest

theorem mem_insertChild {name : String} {id : Nat} {children : List (String × Nat)}
    {child : String × Nat} :
    child ∈ insertChild name id children ↔ child = (name, id) ∨ child ∈ children := by
  induction children with
  | nil => simp [insertChild]
  | cons c rest ih =>
    rw [insertChild]
    split
    · simp
    · simp only [List.mem_cons, ih]
      constructor
      · rintro (h | h | h) <;> simp [h]
      · rintro (h | h | h) <;> simp [h]

end Symbol

end Offside
