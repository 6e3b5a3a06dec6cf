import Offside.Proofs.Module.Header

/-!
Reading a line in two parts: what it says, which depends on the lexemes and on whether a
class is around, and what that does to the lines read before.
-/

namespace Offside

/-- The block that a statement opens by itself, without going on with an if statement. -/
def Header.opener? : Header → Option Module.Opener
  | if_ c => some (.if_ c [])
  | while_ c => some (.while_ c)
  | for_ init c step => some (.for_ init c step)
  | foreach item c => some (.foreach item c)
  | _ => none

def Header.leaf? (line : Nat) : Header → Option Stmt
  | return_ e => some (.return_ e line)
  | expression e => some (.expr e line)
  | _ => none

/-- A line opens a block by itself, is a statement without a body, declares a name, or goes on with
an if statement. -/
theorem Header.byEffect {motive : Header → Prop} (h : Header)
    (opens : ∀ h o, h.opener? = some o → motive h)
    (leaf : ∀ h, (∀ line, ∃ stmt, h.leaf? line = some stmt) → motive h)
    (class_ : ∀ name, motive (.class_ name))
    (function : ∀ name arguments, motive (.function name arguments))
    (elseIf : ∀ c, motive (.elseIf c)) (else_ : motive .else_) : motive h := by
  cases h with
  | class_ name => exact class_ name
  | function name arguments => exact function name arguments
  | elseIf c => exact elseIf c
  | else_ => exact else_
  | if_ | while_ | for_ | foreach => exact opens _ _ rfl
  | return_ | expression => exact leaf _ fun _ => ⟨_, rfl⟩

namespace Module

namespace State

/-- Does what a line says, unless it goes on with an if statement. -/
def perform (config : Config) (line : Nat) (s : State) : Header → Except Fault State
  | .class_ name => do
    let (symbols, id) ← s.symbols.declare s.scope name .class_
    { s with symbols }.enter config.maxDepth (.class_ id) line
  | .function name arguments => do
    let (symbols, id) ← s.symbols.declare s.scope name .function
    let symbols ← declareArguments id arguments symbols
    { s with symbols }.enter config.maxDepth (.function id arguments) line
  | .elseIf _ | .else_ => .error .elseWithoutIf
  | h =>
    if s.directlyInClass then .error .outsideFunction
    else
      match h.opener?, h.leaf? line with
      | some opener, _ => s.enter config.maxDepth opener line
      | none, some stmt => .ok (s.add stmt)
      | none, none => .ok s

def resume (config : Config) (line : Nat) (arm : Arm) (chain : List Arm) (s : State) :
    Header → Except Fault State
  | .elseIf c => s.enter config.maxDepth (.if_ c (arm :: chain)) line
  | .else_ => s.enter config.maxDepth (.else_ arm chain) line
  | _ => .error .malformedElse

variable {config : Config} {line : Nat} {s s' : State} {ws : List Lexeme} {h : Header}

theorem unless_eq_ok {α : Type} {c : Bool} {f : Fault} {x : Except Fault α} {a : α} :
    (if c then .error f else x) = .ok a ↔ c = false ∧ x = .ok a := by
  cases c <;> simp

theorem perform_opener {opener : Opener} (h' : h.opener? = some opener) :
    s.perform config line h = .ok s' ↔
      s.directlyInClass = false ∧ s.enter config.maxDepth opener line = .ok s' := by
  cases h <;> cases h' <;> exact unless_eq_ok

theorem perform_leaf {stmt : Stmt} (h' : h.leaf? line = some stmt) :
    s.perform config line h = .ok s' ↔ s.directlyInClass = false ∧ s' = s.add stmt := by
  have other : Except.ok (ε := Fault) (s.add stmt) = .ok s' ↔ s' = s.add stmt := by
    rw [Except.ok.injEq]
    exact eq_comm
  cases h <;> cases h' <;> exact unless_eq_ok.trans (and_congr_right fun _ => other)

theorem perform_class {x : String} : s.perform config line (.class_ x) = .ok s' ↔
    ∃ u id v, s.symbols.declare s.scope x .class_ = .ok (u, id) ∧
      declareArguments id [] u = .ok v ∧
      { s with symbols := v }.enter config.maxDepth (.class_ id) line = .ok s' := by
  have none (id : Nat) (u v : SymbolTree) : declareArguments id [] u = .ok v ↔ u = v := by
    rw [declareArguments, List.foldlM_nil]
    exact iff_of_eq (Except.ok.injEq _ _)
  simp [perform, bind_eq_ok, none]

theorem perform_function {x : String} {arguments : List String} :
    s.perform config line (.function x arguments) = .ok s' ↔
      ∃ u id v, s.symbols.declare s.scope x .function = .ok (u, id) ∧
        declareArguments id arguments u = .ok v ∧
        { s with symbols := v }.enter config.maxDepth (.function id arguments) line = .ok s' := by
  simp [perform, bind_eq_ok]

theorem ofElse_ne_expression (ws : List Lexeme) : Role.ofElse ws ≠ .expression := by
  unfold Role.ofElse
  split
  · split <;> simp
  · simp

theorem read_expression (role : Role.of ws = .expression) (ne : ws ≠ []) :
    s.read config line ws =
      if s.directlyInClass then .error .outsideFunction
      else s.statement config ws >>= fun e => .ok (s.add (.expr e line)) := by
  match ws, ne with
  | first :: rest, _ =>
    simp only [Role.of] at role
    cases kind : first.kind with
    | keyword k =>
      cases k <;> simp only [kind, reduceCtorEq] at role
      · exact absurd role (ofElse_ne_expression rest)
      · simp only [read, kind]
        rfl
    | _ =>
      simp only [read, kind]
      rfl

theorem read_eq_perform (reads : h.Reads (s.setting config) ws) :
    s.read config line ws = s.perform config line h := by
  cases reads with
  | class_ kind name => simp [read, kind, declareClass, name, perform]
  | function kind names => simp [read, kind, declareFunction, names, perform]
  | if_ kind parses =>
    simp only [read, kind, openIf, statement, parses]
    rfl
  | elseIf kind | else_ kind => simp [read, kind, perform]
  | while_ kind parses =>
    simp only [read, kind, openWhile, statement, parses]
    rfl
  | for_ kind parses =>
    simp only [read, kind, openFor, parses]
    rfl
  | foreach kind name next parses =>
    simp only [read, kind, openForeach, name, next, statement, parses]
    rfl
  | nothing kind =>
    simp only [read, kind, addReturn]
    rfl
  | return_ kind ne parses =>
    simp only [read, kind, addReturn, List.isEmpty_eq_false_iff.2 ne, statement, parses]
    rfl
  | expression ne role parses =>
    rw [read_expression role ne, statement, parses]
    rfl

section Else

variable {first : Lexeme} {rest : List Lexeme} {arm : Arm} {chain : List Arm}

theorem otherwise_eq_resume (kind : first.kind = .keyword .else_)
    (reads : h.Reads (s.setting config) (first :: rest)) :
    s.otherwise config line rest arm chain = s.resume config line arm chain h := by
  cases reads with
  | elseIf _ next parses =>
    simp only [otherwise, next, if_true, openIf, statement, parses]
    rfl
  | else_ => rfl
  | expression _ role =>
    simp only [Role.of, kind] at role
    exact absurd role (ofElse_ne_expression rest)
  | class_ other | function other | if_ other | while_ other | for_ other | foreach other
  | nothing other | return_ other => simp [kind] at other

theorem read_else (kind : first.kind = .keyword .else_) :
    s.read config line (first :: rest) = .error .elseWithoutIf := by
  simp [read, kind]

end Else

section Step

variable {l : Line}

theorem leaveMany_add (m n : Nat) (s : State) :
    s.leaveMany (m + n) = s.leaveMany m >>= fun s => s.leaveMany n := by
  induction m generalizing s with
  | zero => rw [Nat.zero_add]; rfl
  | succ m ih =>
    rw [Nat.succ_add_eq_add_succ, Nat.add_succ, leaveMany, leaveMany, bind_assoc]
    exact congrArg _ (funext ih)

theorem leaveTo_of_le {height : Nat} (le : s.blocks.length ≤ height) : s.leaveTo height = .ok s := by
  rw [leaveTo, Nat.sub_eq_zero_of_le le]
  rfl

theorem leaveTo_succ (d : Nat) (s : State) :
    (s.leaveTo (d + 1) >>= fun s => s.leaveTo d) = s.leaveTo d := by
  by_cases le : s.blocks.length ≤ d
  · rw [leaveTo_of_le (Nat.le_succ_of_le le)]
    rfl
  · have more : s.blocks.length - d = s.blocks.length - (d + 1) + 1 := by omega
    conv => rhs; rw [leaveTo, more, leaveMany_add]
    rw [leaveTo]
    cases hs : s.leaveMany (s.blocks.length - (d + 1)) with
    | error f => rfl
    | ok t =>
      have length := length_leaveMany hs
      have one : t.blocks.length - d = 1 := by omega
      exact congrArg (t.leaveMany ·) one

theorem step_of_not_else (le : l.indentation ≤ s.blocks.length)
    (other : afterElse? l.lexemes = none) : s.step config l =
      s.leaveTo l.indentation >>= fun s => s.read config l.number l.lexemes := by
  rw [step, if_neg (Nat.not_lt.2 le), other, ← leaveTo_succ l.indentation s, bind_assoc]
  refine congrArg _ (funext fun t => ?_)
  cases t.openArm? l.indentation <;> rfl

theorem step_else {first : Lexeme} {rest : List Lexeme} {t outer : State} {arm : Arm}
    {chain : List Arm} (le : l.indentation ≤ s.blocks.length) (lexemes : l.lexemes = first :: rest)
    (kind : first.kind = .keyword .else_) (left : s.leaveTo (l.indentation + 1) = .ok t)
    (ends : t.openArm? l.indentation = some (arm, chain, outer)) :
    s.step config l = outer.otherwise config l.number rest arm chain := by
  have after : afterElse? l.lexemes = some rest := by simp [lexemes, afterElse?, kind]
  rw [step, if_neg (Nat.not_lt.2 le), left, after]
  simp only [bind, Except.bind, ends]

theorem openArm?_of_step {first : Lexeme} {rest : List Lexeme} {t : State}
    (lexemes : l.lexemes = first :: rest) (kind : first.kind = .keyword .else_)
    (left : s.leaveTo (l.indentation + 1) = .ok t) (ok : s.step config l = .ok s') :
    ∃ arm chain outer, t.openArm? l.indentation = some (arm, chain, outer) := by
  have after : afterElse? l.lexemes = some rest := by simp [lexemes, afterElse?, kind]
  rw [step, left, after] at ok
  split at ok
  · cases ok
  · cases ends : t.openArm? l.indentation with
    | some found => exact ⟨_, _, _, rfl⟩
    | none =>
      simp only [bind, Except.bind, ends] at ok
      split at ok
      · cases ok
      · rw [lexemes, read_else kind] at ok
        cases ok

theorem le_of_step (ok : s.step config l = .ok s') : l.indentation ≤ s.blocks.length := by
  unfold step at ok
  split at ok
  · cases ok
  · next le => exact Nat.not_lt.1 le

end Step

end State

end Module

end Offside
