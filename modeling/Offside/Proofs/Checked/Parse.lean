import Mathlib
import Offside.Proofs.Checked.Resolve
import Offside.Proofs.Expr.Parsed

/-!
Expressions read by a cursor that is passed on into brackets and back. Each bracket is read by a call
of its own, which counts the brackets around it up and, however it ends, down again. What is done to
the open statement on the way is done to a frame.
-/

namespace Offside.Expr

open Checked

/-- A place among the lexemes of a line, and the number of open brackets there. -/
structure Cursor where
  place : Nat := 0
  depth : Nat := 0

def Cursor.next (c : Cursor) : Cursor :=
  { c with place := c.place + 1 }

abbrev Reading (α : Type) := Run Fault Cursor α

def Context.terminator? : Context → Option Kind
  | .statement | .statements => none
  | .group | .call => some .closeBracket
  | .array => some .closeBrace

section Read

variable (s : Setting)

def closed (elements : List Element) (last : Option Group) : Reading Measured := do
  if elements.isEmpty then throw .emptyStatement
  else if last ≠ some .argument then throw .missingArgument
  else if s.maxDepth < elements.countP (·.isOperator) then throw (.tooDeep .operators s.maxDepth)
  else
    let m : Except Fault Measured ← elements.resolution.run
    let m ← m
    if s.maxDepth < m.depth then throw (.tooDeep .tree s.maxDepth) else return m

def closeStatement (output : List Measured) (elements : List Element) (last : Option Group) :
    Reading (List Measured) := do
  return output ++ [← closed s elements last]

/-- What has been read when an operand comes next: behind another one, a new statement begins. -/
def withRoom (c : Context) (output : List Measured) (elements : List Element)
    (last : Option Group) : Reading (List Measured × List Element) := do
  if last = some .argument then
    if c.isList then return (← closeStatement s output elements last, [])
    else throw .adjacentArguments
  else return (output, elements)

def ended (c : Context) (output : List Measured) (elements : List Element) (last : Option Group)
    (afterComma : Bool) : Reading (List Measured) :=
  if elements.isEmpty && c.isList && !afterComma then return output
  else closeStatement s output elements last

variable (ws : List Lexeme)

mutual

/-- Reads the rest of a stretch, given its closed statements, the elements of the open one, the
group of the latest of them, and whether a comma came last. -/
def Context.stretch (c : Context) (output : List Measured) (elements : List Element) (last : Option Group)
    (afterComma : Bool) : Reading (List Measured) := do
  let cursor ← get
  match ws[cursor.place]? with
  | none =>
    match c.unclosed? with
    | some fault => throw fault
    | none => ended s c output elements last afterComma
  | some l =>
    set cursor.next
    if c.terminator? = some l.kind then ended s c output elements last afterComma
    else c |>.onLexeme output elements last l
partial_fixpoint

def Context.onLexeme (c : Context) (output : List Measured) (elements : List Element) (last : Option Group)
    (l : Lexeme) : Reading (List Measured) :=
  match l.kind with
  | .openBracket =>
    if last = some .argument then do
      let ms ← Context.call |>.inBracket
      let call := Element.operator (.call (ms.map (·.expr)) (Measured.deepest ms))
      c |>.stretch output (elements ++ [call]) (some .argument) false
    else do
      match (← Context.group |>.inBracket).getLast? with
      | some m => c |>.stretch output (elements ++ [.operand m]) (some .argument) false
      | none => throw .emptyStatement
  | .closeBracket => throw .unopenedBracket
  | .openBrace => do
    let (output, elements) ← withRoom s c output elements last
    let ms ← Context.array |>.inBracket
    c |>.stretch output (elements ++ [.operand (.array ms)]) (some .argument) false
  | .closeBrace => throw .unopenedBrace
  | .comma =>
    if c.isList then do
      let output ← closeStatement s output elements last
      c |>.stretch output [] none true
    else throw .strayComma
  | .name | .literal => do
    let (output, elements) ← withRoom s c output elements last
    let leaf ← operand s.inClass l
    c |>.stretch output (elements ++ [.operand (.leaf leaf)]) (some .argument) false
  | .not => do
    let e ← unaryElement .not last
    c |>.stretch output (elements ++ [e]) (lastGroup? [e]) false
  | .bitNot => do
    let e ← unaryElement .bitNot last
    c |>.stretch output (elements ++ [e]) (lastGroup? [e]) false
  | .operator op => do
    let e ← binaryElement op last
    c |>.stretch output (elements ++ [e]) (lastGroup? [e]) false
  | .keyword _ => throw (.invalidLexeme l)
partial_fixpoint

def Context.inBracket (c : Context) : Reading (List Measured) := fun cursor =>
  if s.maxDepth ≤ cursor.depth then
    some (.error (.tooDeep .brackets s.maxDepth), cursor)
  else do
    let (read, cursor) ←
      (ExceptT.run (c |>.stretch [] [] none false)).run { cursor with depth := cursor.depth + 1 }
    return (read, { cursor with depth := ← sub cursor.depth 1 })
partial_fixpoint

end

def readStatement : Option (Except Fault Expr) := do
  let (read, _) ← (ExceptT.run (Context.stretch s ws .statement [] [] none false)).run {}
  return read >>= fun ms => (ms.getLast?.map (·.expr)).elim (.error .emptyStatement) .ok

def readStatements : Option (Except Fault (List Expr)) := do
  let (read, _) ← (ExceptT.run (Context.stretch s ws .statements [] [] none false)).run {}
  return read.map fun ms => ms.map (·.expr)

end Read

namespace Frame

/-- A frame other than that of a list has one statement at most. -/
def Fits (f : Frame) : Prop :=
  f.context.isList = false → f.closed = []

def results (maxDepth : Nat) (f : Frame) : Except Fault (List Measured) :=
  if f.context.isList then f.statements maxDepth else (close maxDepth f.run).map fun m => [m]

end Frame

/-- What the statements in a bracket are to the statement around it. -/
def wrapped : Context → List Measured → Option Element
  | .call, ms => some (.operator (.call (ms.map (·.expr)) (Measured.deepest ms)))
  | .array, ms => some (.operand (.array ms))
  | _, [m] => some (.operand m)
  | _, _ => none

section Parts

variable {s : Setting} {f : Frame} {cursor : Cursor}

theorem closed_eq (run : List Element) (cursor : Cursor) :
    closed s run.reverse (lastGroup? run) cursor = some (close s.maxDepth run, cursor) := by
  cases run with
  | nil => rfl
  | cons e run =>
    have some_ : (e :: run).reverse.isEmpty = false := by simp
    rw [closed, some_, if_neg (by simp), close]
    by_cases last : lastGroup? (e :: run) = some .argument
    · have tree : (e :: run).reverse.resolution.run = some (resolve (e :: run).reverse) :=
        resolution_eq _
      rw [last, if_neg (not_not.2 rfl), List.countP_reverse, tree]
      simp only
      split
      · rfl
      · rw [bind_of_ok (lift_apply _ cursor)]
        cases resolve (e :: run).reverse with
        | error f => rfl
        | ok m =>
          rw [bind_of_ok (liftExcept_apply _ cursor)]
          change (if _ then _ else _ : Reading Measured) cursor = some (if _ then _ else _, cursor)
          split <;> rfl
    · rw [if_pos last]
      cases group : lastGroup? (e :: run) with
      | none => cases e with
        | operand => cases group
        | operator c => cases c <;> cases group
      | some g => cases g with
        | argument => exact absurd group last
        | _ => rfl

theorem closeStatement_eq (run : List Element) (before : List Measured) (cursor : Cursor) :
    closeStatement s before.reverse run.reverse (lastGroup? run) cursor =
      some ((close s.maxDepth run).map fun m => (m :: before).reverse, cursor) := by
  rw [closeStatement]
  have closes := closed_eq (s := s) run cursor
  cases tree : close s.maxDepth run with
  | error f =>
    rw [tree] at closes
    exact bind_of_error closes
  | ok m =>
    rw [tree] at closes
    rw [bind_of_ok closes]
    simp only [Except.map, List.reverse_cons]
    rfl

theorem withRoom_eq (f : Frame) (cursor : Cursor) :
    withRoom s f.context f.closed.reverse f.run.reverse f.lastGroup? cursor =
      some ((f.separate s.maxDepth).map fun g => (g.closed.reverse, g.run.reverse), cursor) := by
  rw [withRoom, Frame.separate]
  split
  · split
    · have closes := closeStatement_eq (s := s) f.run f.closed cursor
      rw [Frame.closeStatement]
      cases tree : close s.maxDepth f.run with
      | error e =>
        rw [tree] at closes
        exact bind_of_error closes
      | ok m =>
        rw [tree] at closes
        exact bind_of_ok closes
    · rfl
  · rfl

theorem Frame.Fits.separate (fits : f.Fits) {g : Frame} (ok : f.separate s.maxDepth = .ok g) :
    g.Fits ∧ g.context = f.context := by
  unfold Frame.separate at ok
  split at ok
  · split at ok
    · next list =>
      obtain ⟨m, -, eq⟩ := bind_eq_ok.1 ok
      cases eq
      exact ⟨fun single => absurd list (by simp [single]), rfl⟩
    · cases ok
  · cases ok
    exact ⟨fits, rfl⟩

theorem ended_eq (fits : f.Fits) (cursor : Cursor) :
    ended s f.context f.closed.reverse f.run.reverse f.lastGroup?
      (f.run.isEmpty && !f.closed.isEmpty) cursor = some (f.results s.maxDepth, cursor) := by
  have closes := closeStatement_eq (s := s) f.run f.closed cursor
  obtain ⟨c, before, run⟩ := f
  rw [ended, Frame.results]
  cases list : c.isList with
  | false =>
    obtain rfl : before = [] := fits list
    simp only [Bool.and_false, Bool.false_and]
    exact closes
  | true =>
    cases run with
    | nil =>
      cases before with
      | nil => rfl
      | cons m before => exact closes
    | cons e run =>
      have some_ : (e :: run).reverse.isEmpty = false := by simp
      simp only [some_, Bool.false_and]
      refine closes.trans ?_
      rw [if_pos trivial, Frame.statements]
      cases close s.maxDepth (e :: run) <;> rfl

theorem element_eq (bracket : f.context.unclosed? ≠ none) (maxDepth : Nat) :
    (∀ e, f.results maxDepth = .error e → f.element maxDepth = .error e) ∧
      ∀ ms, f.results maxDepth = .ok ms →
        ∃ e, wrapped f.context ms = some e ∧ f.element maxDepth = .ok e := by
  obtain ⟨c, before, run⟩ := f
  cases c with
  | statement | statements => exact absurd rfl bracket
  | group =>
    rw [Frame.results, Frame.element]
    cases close maxDepth run with
    | error e =>
      refine ⟨fun e' eq => ?_, fun ms eq => ?_⟩ <;> cases eq
      rfl
    | ok m =>
      refine ⟨fun e eq => ?_, fun ms eq => ?_⟩ <;> cases eq
      exact ⟨_, rfl, rfl⟩
  | call | array =>
    rw [Frame.results, Frame.element]
    cases Frame.statements maxDepth ⟨_, before, run⟩ with
    | error e =>
      refine ⟨fun e' eq => ?_, fun ms eq => ?_⟩ <;> cases eq
      rfl
    | ok m =>
      refine ⟨fun e eq => ?_, fun ms eq => ?_⟩ <;> cases eq
      exact ⟨_, rfl, rfl⟩

end Parts

end Offside.Expr
