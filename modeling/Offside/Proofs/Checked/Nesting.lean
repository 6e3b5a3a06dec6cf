import Mathlib
import Offside.Proofs.Checked.Resolve
import Offside.Expr.Parse

/-!
Resolution with a limit on the calls that are open at a time. What a call leaves to resolve may be no
shorter than its own run, as what is built takes the place of what it is built from; but it has lost
the operator at which the run was cut, so that a run needs one call more than it has operators.
Statements with more operators than may nest are refused before they are resolved. Main statement:
with as many calls as that leaves, every run is resolved as it is without a limit, and every line is
read as it is without one.
-/

namespace Offside.Expr

open Checked

abbrev Resolver := List Element → ExceptT Fault Option Measured

/-- One call of resolution, which leaves the parts of the run to `again`. -/
def resolving (again : Resolver) : Resolver := fun es => do
  match es with
  | [.operand m] => return m
  | [.operator _] => throw .noRoot
  | _ =>
    match loosest 0 es with
    | none => throw .noRoot
    | some (i, _) =>
      let (front, right) ← cut es (i + 1)
      let left := front.dropLast
      match front.getLast? with
      | some (.operator (.unary op)) =>
        if right.isEmpty then throw .unaryWithoutArgument
        else
          let argument ← again right
          if left.isEmpty then return .unary op argument
          else again (left ++ [Element.operand (.unary op argument)])
      | some (.operator (.binary op)) =>
        if left.isEmpty || right.isEmpty then throw .binaryWithoutArguments
        else
          let a ← again left
          let b ← again right
          return .binary op a b
      | some (.operator (.call arguments depth)) =>
        if left.isEmpty then throw .callWithoutCallee
        else
          let callee ← again left
          if right.isEmpty then return callee.call arguments depth
          else again (Element.operand (callee.call arguments depth) :: right)
      | _ => throw .noRoot

/-- The tree of a run, if it takes no more than `n` calls that are open at a time. -/
def resolutionWithin : Nat → Resolver
  | 0 => fun _ => (none : Option (Except Fault Measured))
  | n + 1 => resolving (resolutionWithin n)

section Resolving

variable {es left right : List Element} {c : Connective}

theorem resolution_eq_resolving (es : List Element) :
    es.resolution = resolving List.resolution es := by
  rw [List.resolution.eq_def]
  rfl

theorem countP_split (h : split es = some ⟨left, c, right⟩) :
    es.countP (·.isOperator) =
      left.countP (·.isOperator) + right.countP (·.isOperator) + 1 := by
  rw [split_eq h, List.countP_append, List.countP_cons_of_pos rfl, Nat.add_assoc]

theorem resolving_congr {a b : Resolver} (agree : ∀ part : List Element,
    part.countP (·.isOperator) < es.countP (·.isOperator) → a part = b part) :
    resolving a es = resolving b es := by
  unfold resolving
  split
  · rfl
  · rfl
  · rw [loosest_eq_split]
    cases found : split es with
    | none => rfl
    | some s =>
      obtain ⟨left, c, right⟩ := s
      have count := countP_split found
      simp only [Option.map_some, Nat.zero_add, cut_split found, liftOption_bind,
        List.getLast?_concat, List.dropLast_concat]
      cases c with
      | unary op =>
        have built (m : Measured) : a (left ++ [.operand m]) = b (left ++ [.operand m]) := by
          refine agree _ ?_
          rw [List.countP_append, List.countP_cons_of_neg Bool.false_ne_true, List.countP_nil]
          omega
        simp only [agree right (by omega), built]
      | binary op => simp only [agree left (by omega), agree right (by omega)]
      | call arguments depth =>
        have built (m : Measured) : a (.operand m :: right) = b (.operand m :: right) := by
          refine agree _ ?_
          rw [List.countP_cons_of_neg Bool.false_ne_true]
          omega
        simp only [agree left (by omega), built]

theorem resolutionWithin_eq {n : Nat} (enough : es.countP (·.isOperator) < n) :
    resolutionWithin n es = es.resolution := by
  induction n generalizing es with
  | zero => exact absurd enough (Nat.not_lt_zero _)
  | succ n ih =>
    rw [resolutionWithin, resolution_eq_resolving]
    exact resolving_congr fun part fewer => ih (by omega)

end Resolving

section Parser

/-! Reading with a resolver of its own. Statements are closed by it; all else is read as ever. -/

variable (resolver : Resolver) (maxDepth : Nat)

def closeBy (run : List Element) : ExceptT Fault Option Measured :=
  match lastGroup? run with
  | none => throw .emptyStatement
  | some .argument =>
    if maxDepth < run.countP (·.isOperator) then throw (.tooDeep .operators maxDepth)
    else do
      let m ← resolver run.reverse
      if maxDepth < m.depth then throw (.tooDeep .tree maxDepth) else return m
  | some _ => throw .missingArgument

def Frame.closeStatementBy (f : Frame) : ExceptT Fault Option Frame := do
  return { f with closed := (← closeBy resolver maxDepth f.run) :: f.closed, run := [] }

def Frame.separateBy (f : Frame) : ExceptT Fault Option Frame :=
  if f.lastGroup? = some .argument then
    if f.context.isList then f.closeStatementBy resolver maxDepth else throw .adjacentArguments
  else return f

def Frame.statementsBy (f : Frame) : ExceptT Fault Option (List Measured) :=
  if f.run.isEmpty && f.closed.isEmpty then return []
  else do return ((← closeBy resolver maxDepth f.run) :: f.closed).reverse

def Frame.elementBy (f : Frame) : ExceptT Fault Option Element :=
  match f.context with
  | .call => do
    let ms ← f.statementsBy resolver maxDepth
    return .operator (.call (ms.map (·.expr)) (Measured.deepest ms))
  | .array => return .operand (.array (← f.statementsBy resolver maxDepth))
  | _ => return .operand (← closeBy resolver maxDepth f.run)

def State.leaveBy (closes : Context → Bool) (fault : Fault) (s : State) :
    ExceptT Fault Option State :=
  match s.outer with
  | f :: outer =>
    if closes s.frame.context then do
      return ⟨f.push (← s.frame.elementBy resolver maxDepth), outer⟩
    else throw fault
  | [] => throw fault

def stepBy (setting : Setting) (s : State) (l : Lexeme) : ExceptT Fault Option State :=
  match l.kind with
  | .closeBracket =>
    s.leaveBy resolver setting.maxDepth (fun c => c = .group ∨ c = .call) .unopenedBracket
  | .openBrace => do
    let frame ← s.frame.separateBy resolver setting.maxDepth
    { s with frame }.enter setting.maxDepth .array
  | .closeBrace => s.leaveBy resolver setting.maxDepth (· = .array) .unopenedBrace
  | .comma =>
    if s.frame.context.isList then do
      return { s with frame := ← s.frame.closeStatementBy resolver setting.maxDepth }
    else throw .strayComma
  | .name | .literal => do
    let frame ← s.frame.separateBy resolver setting.maxDepth
    let leaf ← operand setting.inClass l
    return { s with frame := frame.push (.operand (.leaf leaf)) }
  | _ => step setting s l

def runBy (setting : Setting) (s : State) (lexemes : List Lexeme) : ExceptT Fault Option State :=
  lexemes.foldlM (stepBy resolver setting) s

def parseStatementBy (setting : Setting) (lexemes : List Lexeme) : ExceptT Fault Option Expr := do
  let s ← runBy resolver setting (.start .statement) lexemes
  let frame ← s.finish
  return (← closeBy resolver setting.maxDepth frame.run).expr

def parseStatementsBy (setting : Setting) (lexemes : List Lexeme) :
    ExceptT Fault Option (List Expr) := do
  let s ← runBy resolver setting (.start .statements) lexemes
  let frame ← s.finish
  return (← frame.statementsBy resolver setting.maxDepth).map (·.expr)

end Parser

def Resolver.Serves (resolver : Resolver) (maxDepth : Nat) : Prop :=
  ∀ es : List Element, es.countP (·.isOperator) ≤ maxDepth → resolver es = some (resolve es)

theorem serves_resolution (maxDepth : Nat) : Resolver.Serves List.resolution maxDepth :=
  fun es _ => resolution_eq es

theorem serves_resolutionWithin (maxDepth : Nat) :
    (resolutionWithin (maxDepth + 1)).Serves maxDepth :=
  fun es few => (resolutionWithin_eq (Nat.lt_succ_of_le few)).trans (resolution_eq es)

section Served

variable {resolver : Resolver} {s : Setting} (serves : resolver.Serves s.maxDepth)

include serves

theorem closeBy_eq (run : List Element) :
    closeBy resolver s.maxDepth run = some (close s.maxDepth run) := by
  rw [closeBy, close]
  cases last : lastGroup? run with
  | none => rfl
  | some g =>
    cases g with
    | unaryOperator | binaryOperator | bracket | terminator => rfl
    | argument =>
      dsimp only
      split
      · rfl
      · next few =>
        refine defined_bind (serves _ ?_) fun m _ => ?_
        · rw [List.countP_reverse]
          exact Nat.le_of_not_lt few
        · split <;> rfl

theorem closeStatementBy_eq (f : Frame) :
    f.closeStatementBy resolver s.maxDepth = some (f.closeStatement s.maxDepth) :=
  defined_bind (closeBy_eq serves f.run) fun _ _ => rfl

theorem separateBy_eq (f : Frame) :
    f.separateBy resolver s.maxDepth = some (f.separate s.maxDepth) := by
  unfold Frame.separateBy Frame.separate
  split
  · split
    · exact closeStatementBy_eq serves f
    · rfl
  · rfl

theorem statementsBy_eq (f : Frame) :
    f.statementsBy resolver s.maxDepth = some (f.statements s.maxDepth) := by
  unfold Frame.statementsBy Frame.statements
  split
  · rfl
  · exact defined_bind (closeBy_eq serves f.run) fun _ _ => rfl

theorem elementBy_eq (f : Frame) :
    f.elementBy resolver s.maxDepth = some (f.element s.maxDepth) := by
  rw [Frame.elementBy, Frame.element]
  cases f.context with
  | call | array => exact defined_bind (statementsBy_eq serves f) fun _ _ => rfl
  | statement | statements | group => exact defined_bind (closeBy_eq serves f.run) fun _ _ => rfl

theorem leaveBy_eq (st : State) (closes : Context → Bool) (fault : Fault) :
    st.leaveBy resolver s.maxDepth closes fault = some (st.leave s.maxDepth closes fault) := by
  rw [State.leaveBy, State.leave]
  cases st.outer with
  | nil => rfl
  | cons f outer =>
    dsimp only
    split
    · exact defined_bind (elementBy_eq serves st.frame) fun _ _ => rfl
    · rfl

theorem stepBy_eq (st : State) (l : Lexeme) : stepBy resolver s st l = some (step s st l) := by
  rw [stepBy]
  cases kind : l.kind with
  | closeBracket | closeBrace =>
    rw [step, kind]
    exact leaveBy_eq serves st _ _
  | openBrace =>
    rw [step, kind]
    exact defined_bind (separateBy_eq serves st.frame) fun _ _ => rfl
  | comma =>
    rw [step, kind]
    dsimp only
    split
    · exact defined_bind (closeStatementBy_eq serves st.frame) fun _ _ => rfl
    · rfl
  | name | literal =>
    rw [step, kind]
    exact defined_bind (separateBy_eq serves st.frame) fun _ _ => defined_bind rfl fun _ _ => rfl
  | openBracket | not | bitNot | operator | keyword => rfl

theorem runBy_eq (st : State) (ws : List Lexeme) : runBy resolver s st ws = some (run s st ws) := by
  induction ws generalizing st with
  | nil => rfl
  | cons l ws ih =>
    rw [runBy, run, List.foldlM_cons, List.foldlM_cons]
    exact defined_bind (stepBy_eq serves st l) fun next _ => ih next

theorem parseStatementBy_eq (ws : List Lexeme) :
    parseStatementBy resolver s ws = some (parseStatement s ws) := by
  refine defined_bind (runBy_eq serves _ ws) fun st _ => ?_
  refine defined_bind rfl fun f _ => ?_
  exact defined_bind (closeBy_eq serves f.run) fun _ _ => rfl

theorem parseStatementsBy_eq (ws : List Lexeme) :
    parseStatementsBy resolver s ws = some (parseStatements s ws) := by
  refine defined_bind (runBy_eq serves _ ws) fun st _ => ?_
  refine defined_bind rfl fun f _ => ?_
  exact defined_bind (statementsBy_eq serves f) fun _ _ => rfl

end Served

/-- A run with `k` operators resolves as well when no more than `k + 1` calls may be open at a time.
No line that is read has more calls open than operators may nest, and one. -/
theorem resolution_nesting :
    (∀ es : List Element,
      resolutionWithin (es.countP (·.isOperator) + 1) es = es.resolution ∧
        es.resolution = some (resolve es)) ∧
    ∀ (s : Setting) (ws : List Lexeme),
      (parseStatementBy List.resolution s ws = some (parseStatement s ws) ∧
        parseStatementBy (resolutionWithin (s.maxDepth + 1)) s ws = some (parseStatement s ws)) ∧
      parseStatementsBy List.resolution s ws = some (parseStatements s ws) ∧
        parseStatementsBy (resolutionWithin (s.maxDepth + 1)) s ws = some (parseStatements s ws) := by
  refine ⟨fun es => ⟨resolutionWithin_eq (Nat.lt_succ_self _), resolution_eq es⟩, fun s ws => ?_⟩
  have free := serves_resolution s.maxDepth
  have limited := serves_resolutionWithin s.maxDepth
  exact ⟨⟨parseStatementBy_eq free ws, parseStatementBy_eq limited ws⟩,
    parseStatementsBy_eq free ws, parseStatementsBy_eq limited ws⟩

/-- The inner sign is resolved first and takes its place in what is left of the run. That is a call
inside a call inside a call, so that one fewer does not do. -/
theorem resolution_nesting_signs :
    let a : Measured := .leaf (.literal .nil)
    let signs : List Element := [.operator (.unary .not), .operator (.unary .bitNot), .operand a]
    IsRun signs ∧
      resolutionWithin 3 signs = some (.ok (.unary .not (.unary .bitNot a))) ∧
      resolutionWithin 2 signs = none := by
  intro a signs
  have isRun : IsRun signs := trivial
  have tree : resolve signs = .ok (.unary .not (.unary .bitNot a)) := by cbv
  obtain ⟨limited, whole⟩ := resolution_nesting.1 signs
  exact ⟨isRun, limited.trans (whole.trans (congrArg some tree)), rfl⟩

end Offside.Expr
