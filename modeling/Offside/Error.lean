import Offside.Fault

/-!
Errors: a fault and the line on which it was found. A diagnostic is the form in which
they are shown, with the wording in place of the cause.
-/

namespace Offside

structure Diagnostic where
  kind : ErrorKind
  line : Nat
  message : String
  help : Option String
  deriving DecidableEq, Repr

namespace Diagnostic

def text (d : Diagnostic) : String :=
  "Line " ++ toString d.line ++ ": " ++ d.message

def headline (d : Diagnostic) : String :=
  "Error: " ++ d.kind.label ++ ": " ++ d.message

end Diagnostic

structure Error where
  line : Nat
  fault : Fault
  deriving DecidableEq, Repr

namespace Error

def diagnostic (e : Error) : Diagnostic :=
  ⟨e.fault.kind, e.line, e.fault.message, e.fault.help⟩

def shift (n : Nat) (e : Error) : Error :=
  { e with line := e.line + n }

end Error

def atLine {α : Type} (line : Nat) : Except Fault α → Except Error α
  | .ok a => .ok a
  | .error fault => .error ⟨line, fault⟩

theorem atLine_eq_ok {α : Type} {line : Nat} {x : Except Fault α} {a : α} :
    atLine line x = .ok a ↔ x = .ok a := by
  cases x <;> simp [atLine]

theorem atLine_eq_error {α : Type} {line : Nat} {x : Except Fault α} {e : Error} :
    atLine line x = .error e ↔ e.line = line ∧ x = .error e.fault := by
  cases x with
  | ok a => simp [atLine]
  | error f =>
    obtain ⟨l, g⟩ := e
    simp only [atLine, Except.error.injEq, Error.mk.injEq]
    exact ⟨fun ⟨h, k⟩ => ⟨h.symm, k⟩, fun ⟨h, k⟩ => ⟨h.symm, k⟩⟩

end Offside
