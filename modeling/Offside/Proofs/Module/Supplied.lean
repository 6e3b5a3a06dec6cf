import Mathlib
import Offside.Proofs.Expr.Supplied
import Offside.Proofs.Module.Declare
import Offside.Proofs.Module.Reading
import Offside.Proofs.Module.Trace
import Offside.Proofs.Scan.Fault
import Offside.Proofs.Scan.Output

/-!
Lines with what they need. The lexemes of a source carry the values that the parser asks them for,
so that no source is answered with the complaint that one is missing.
-/

namespace Offside

namespace Header

variable (s : Expr.Setting) {ws : List Lexeme} {first : Lexeme} {rest : List Lexeme}

theorem say_supplied (h : Expr.Valued ws) (make : Expr → Header) :
    Supplied ((Expr.parseStatement s ws).map make) :=
  (Expr.parseStatement_supplied s h).map make

theorem parseFor_supplied (h : Expr.Valued ws) : Supplied (parseFor s ws) := by
  refine (Expr.parseStatements_supplied s h).bind fun terms => ?_
  split
  · exact .ok _
  · exact .error (by decide)

theorem parseForeach_supplied (h : Expr.Valued ws) : Supplied (parseForeach s ws) := by
  unfold parseForeach
  split
  · split
    · split
      · exact say_supplied s (fun l mem => h l (.tail _ (.tail _ mem))) _
      · exact .error (by decide)
    · exact .error (by decide)
  · exact .error (by decide)

theorem parseReturn_supplied (h : Expr.Valued ws) : Supplied (parseReturn s ws) := by
  unfold parseReturn
  split
  · exact .ok _
  · exact say_supplied s h return_

theorem parse_supplied (direct : Bool) (h : Expr.Valued (first :: rest)) :
    Supplied (parse s direct first rest) := by
  have behind : Expr.Valued rest := fun l mem => h l (.tail _ mem)
  unfold parse
  split
  · split
    · exact .ok _
    · exact .error (by decide)
  · split
    · exact .ok _
    · exact .error (by decide)
  · exact .error (by decide)
  · split
    · exact .error (by decide)
    · split
      · exact say_supplied s behind if_
      · exact say_supplied s behind while_
      · exact parseFor_supplied s behind
      · exact parseForeach_supplied s behind
      · exact parseReturn_supplied s behind
      · exact say_supplied s h expression

theorem parseElse_supplied (h : Expr.Valued ws) : Supplied (parseElse s ws) := by
  unfold parseElse
  split
  · exact .ok _
  · split
    · exact say_supplied s (fun l mem => h l (.tail _ mem)) elseIf
    · exact .error (by decide)

end Header

theorem SymbolTree.declare_supplied (t : SymbolTree) (scope : Nat) (name : String)
    (kind : SymbolKind) : Supplied (t.declare scope name kind) := by
  unfold declare
  split
  · exact .error (by rintro ⟨⟩)
  · split
    · exact .error (by rintro ⟨⟩)
    · exact .ok _

theorem SymbolTree.setFunction_supplied (t : SymbolTree) (id : Nat) (f : Function) :
    Supplied (t.setFunction id f) := by
  unfold setFunction
  split
  · split
    · exact .ok _
    · exact .error (by rintro ⟨⟩)
  · exact .error (by rintro ⟨⟩)

namespace Module

namespace State

variable (config : Config) (line : Nat) (s : State)

theorem enter_supplied (maxDepth : Nat) (opener : Opener) :
    Supplied (s.enter maxDepth opener line) := by
  unfold enter
  split
  · exact .error nofun
  · exact .ok _

theorem finish_supplied (b : Block) : Supplied (s.finish b) := by
  obtain ⟨opener, line, body⟩ := b
  cases opener with
  | function id arguments => exact (s.symbols.setFunction_supplied ..).bind fun _ => .ok _
  | _ => exact .ok _

theorem leaveMany_supplied (n : Nat) : Supplied (s.leaveMany n) := by
  induction n generalizing s with
  | zero => exact .ok s
  | succ n ih =>
    refine Supplied.bind ?_ ih
    unfold leave
    split
    · exact .ok s
    · exact finish_supplied _ _

theorem declareArguments_supplied (id : Nat) (arguments : List String) (t : SymbolTree) :
    Supplied (declareArguments id arguments t) := by
  induction arguments generalizing t with
  | nil => exact .ok t
  | cons x arguments ih =>
    rw [declareArguments_cons]
    exact (t.declare_supplied id x .variable_).bind fun _ => ih _

theorem perform_supplied (header : Header) : Supplied (s.perform config line header) := by
  cases header using Header.byEffect with
  | opens said opener opens =>
    rw [perform_of_opener opens]
    split
    · exact .error (by decide)
    · exact enter_supplied ..
  | leaf said leaf =>
    obtain ⟨stmt, leaf⟩ := leaf line
    rw [perform_of_leaf leaf]
    split
    · exact .error (by decide)
    · exact .ok _
  | class_ name =>
    exact (s.symbols.declare_supplied ..).bind fun _ => enter_supplied ..
  | function name arguments =>
    exact (s.symbols.declare_supplied ..).bind fun _ =>
      (declareArguments_supplied ..).bind fun _ => enter_supplied ..
  | elseIf | else_ => exact .error (by decide)

theorem resume_supplied (arm : Arm) (chain : List Arm) (header : Header) :
    Supplied (s.resume config line arm chain header) := by
  cases header with
  | elseIf | else_ => exact enter_supplied ..
  | _ => exact .error (by decide)

theorem step_supplied {l : Line} (h : Expr.Valued l.lexemes) : Supplied (s.step config l) := by
  unfold step
  split
  · exact .error (by decide)
  · refine (leaveMany_supplied s _).bind fun t => ?_
    split
    · next rest _ after =>
      obtain ⟨first, eq, -⟩ := afterElse?_eq_some after
      rw [otherwise_eq_parse]
      have behind : Expr.Valued rest := fun x mem => h x (eq ▸ .tail _ mem)
      exact (Header.parseElse_supplied _ behind).bind fun _ => resume_supplied ..
    · refine (leaveMany_supplied t _).bind fun u => ?_
      cases words : l.lexemes with
      | nil => exact .ok u
      | cons first rest =>
        rw [read_cons]
        exact (Header.parse_supplied _ _ (words ▸ h)).bind fun _ => perform_supplied ..

end State

end Module

end Offside
