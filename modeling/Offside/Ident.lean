/-!
Names as they are referred to: plain, from the global scope with `::` in front, or a
member of the enclosing class with `@` in front.
-/

namespace Offside

inductive Sigil
  | none
  | scope
  | member
  deriving DecidableEq, Repr

def Sigil.text : Sigil → String
  | none => ""
  | scope => "::"
  | member => "@"

structure Ident where
  name : String
  sigil : Sigil
  deriving DecidableEq, Repr

namespace Ident

def text (i : Ident) : String :=
  i.sigil.text ++ i.name

def plain? (i : Ident) : Option String :=
  match i.sigil with
  | .none => some i.name
  | _ => none

theorem plain?_eq_some {i : Ident} {name : String} :
    i.plain? = some name ↔ i = ⟨name, .none⟩ := by
  cases i with
  | mk n s => cases s <;> simp [plain?]

end Ident

end Offside
