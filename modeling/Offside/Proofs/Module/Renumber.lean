import Offside.Proofs.Module.Prefix
import Offside.Proofs.Module.Reading

/-!
Lines under other numbers. The number of a line is handed to its statement, or to the error that
is found there, and decides nothing.
-/

namespace Offside

variable (f : Nat → Nat)

def Line.renumber (l : Line) : Line :=
  { l with number := f l.number }

def Error.renumber (e : Error) : Error :=
  { e with line := f e.line }

mutual

def Stmt.renumber : Stmt → Stmt
  | .expr e line => .expr e (f line)
  | .return_ e line => .return_ e (f line)
  | .if_ c body line => .if_ c (renumberAll body) (f line)
  | .ifElse c body otherwise line =>
    .ifElse c (renumberAll body) (renumberAll otherwise) (f line)
  | .foreach item c body line => .foreach item c (renumberAll body) (f line)
  | .for_ init c step body line => .for_ init c step (renumberAll body) (f line)
  | .while_ c body line => .while_ c (renumberAll body) (f line)

def Stmt.renumberAll : List Stmt → List Stmt
  | [] => []
  | s :: body => s.renumber :: renumberAll body

end

theorem Stmt.renumberAll_eq_map (body : List Stmt) :
    renumberAll f body = body.map (renumber f) := by
  induction body with
  | nil => rfl
  | cons s body ih => exact congrArg (s.renumber f :: ·) ih

theorem Stmt.renumberAll_reverse (body : List Stmt) :
    renumberAll f body.reverse = (renumberAll f body).reverse := by
  rw [renumberAll_eq_map, renumberAll_eq_map, List.map_reverse]

def Function.renumber (x : Function) : Function :=
  { x with body := Stmt.renumberAll f x.body }

def Symbol.renumber (s : Symbol) : Symbol :=
  { s with function := s.function.map (Function.renumber f) }

section Symbol

variable (s : Symbol)

@[simp] theorem Symbol.children_renumber : (s.renumber f).children = s.children := rfl

@[simp] theorem Symbol.isSome_function_renumber :
    (s.renumber f).function.isSome = s.function.isSome :=
  Option.isSome_map

@[simp] theorem Symbol.renumber_insert (children : List (String × Nat)) :
    Symbol.renumber f { s with children } = { s.renumber f with children } := rfl

@[simp] theorem Symbol.renumber_does (x : Function) :
    Symbol.renumber f { s with function := some x } =
      { s.renumber f with function := some (x.renumber f) } := rfl

@[simp] theorem Symbol.renumber_fresh (name : String) (kind : SymbolKind) (parent : Option Nat) :
    (fresh name kind parent).renumber f = fresh name kind parent := by
  unfold fresh
  split <;> rfl

end Symbol

namespace SymbolTree

def renumber (t : SymbolTree) : SymbolTree :=
  ⟨t.symbols.map (Symbol.renumber f)⟩

variable (t : SymbolTree) (id scope : Nat) (name : String)

@[simp] theorem get?_renumber :
    (t.renumber f).get? id = (t.get? id).map (Symbol.renumber f) :=
  Array.getElem?_map

@[simp] theorem size_renumber : (t.renumber f).size = t.size :=
  Array.size_map

theorem new_renumber : (new name).renumber f = new name := by
  simp [new, renumber]

theorem declare_renumber (kind : SymbolKind) : (t.renumber f).declare scope name kind =
    (t.declare scope name kind).map fun d => (d.1.renumber f, d.2) := by
  rw [declare, declare, get?_renumber, size_renumber]
  cases t.get? scope with
  | none => rfl
  | some s => cases used : (s.children.lookup name).isSome <;> simp [used, Except.map, renumber]

theorem setFunction_renumber (x : Function) : (t.renumber f).setFunction id (x.renumber f) =
    (t.setFunction id x).map (renumber f) := by
  rw [setFunction, setFunction, get?_renumber]
  cases t.get? id with
  | none => rfl
  | some s => cases isFunction : s.function.isSome <;> simp [isFunction, Except.map, renumber]

end SymbolTree

namespace Module

def Arm.renumber (arm : Arm) : Arm :=
  ⟨arm.condition, Stmt.renumberAll f arm.body, f arm.line⟩

def Opener.renumber : Opener → Opener
  | if_ c chain => if_ c (chain.map (Arm.renumber f))
  | else_ arm chain => else_ (arm.renumber f) (chain.map (Arm.renumber f))
  | o => o

def Block.renumber (b : Block) : Block :=
  ⟨b.opener.renumber f, f b.line, Stmt.renumberAll f b.body⟩

section Opener

variable (o : Opener)

@[simp] theorem Opener.scope?_renumber : (o.renumber f).scope? = o.scope? := by
  cases o <;> rfl

@[simp] theorem Opener.isClass_renumber : (o.renumber f).isClass = o.isClass := by
  cases o <;> rfl

@[simp] theorem Opener.links_renumber : (o.renumber f).links = o.links := by
  cases o <;> simp [renumber, links]

end Opener

theorem chained_renumber (chain : List Arm) (s : Stmt) :
    (chained chain s).renumber f = chained (chain.map (Arm.renumber f)) (s.renumber f) := by
  induction chain generalizing s with
  | nil => rfl
  | cons arm chain ih => exact ih _

namespace State

def renumber (s : State) : State :=
  ⟨s.symbols.renumber f, Stmt.renumberAll f s.entry, s.blocks.map (Block.renumber f)⟩

variable (s : State)

@[simp] theorem length_renumber : (s.renumber f).blocks.length = s.blocks.length :=
  List.length_map _

theorem scope_renumber : (s.renumber f).scope = s.scope := by
  simp [scope, renumber, Block.renumber, List.findSome?_map, Function.comp_def]

theorem directlyInClass_renumber : (s.renumber f).directlyInClass = s.directlyInClass := by
  simp [directlyInClass, renumber, Block.renumber, List.find?_map, Function.comp_def]

theorem setting_renumber (config : Config) : (s.renumber f).setting config = s.setting config := by
  simp [setting, inClass, renumber, Block.renumber, List.any_map, Function.comp_def]

theorem links_renumber : (s.renumber f).links = s.links := by
  simp [links, renumber, Block.renumber, List.foldr_map]

theorem add_renumber (stmt : Stmt) :
    (s.add stmt).renumber f = (s.renumber f).add (stmt.renumber f) := by
  obtain ⟨symbols, entry, blocks⟩ := s
  cases blocks <;> rfl

theorem enter_renumber (maxDepth line : Nat) (o : Opener) :
    (s.renumber f).enter maxDepth (o.renumber f) (f line) =
      (s.enter maxDepth o line).map (renumber f) := by
  rw [enter, enter, length_renumber, links_renumber, Opener.links_renumber]
  split <;> rfl

section Ends

theorem finish_renumber (b : Block) :
    (s.renumber f).finish (b.renumber f) = (s.finish b).map (renumber f) := by
  obtain ⟨opener, line, body⟩ := b
  have reversed := Stmt.renumberAll_reverse f body
  cases opener with
  | class_ id => rfl
  | function id arguments =>
    have set := SymbolTree.setFunction_renumber f s.symbols id ⟨arguments, body.reverse⟩
    rw [Function.renumber, reversed] at set
    simp only [finish, Block.renumber, Opener.renumber]
    exact (congrArg (· >>= _) set).trans (map_bind_comm fun _ => rfl)
  | while_ | for_ | foreach =>
    simp only [finish, Block.renumber, Opener.renumber, ← reversed, Except.map, add_renumber]
    rfl
  | if_ | else_ =>
    simp only [finish, Block.renumber, Opener.renumber, ← reversed, Except.map, add_renumber,
      chained_renumber]
    rfl

theorem leave_renumber : (s.renumber f).leave = s.leave.map (renumber f) := by
  obtain ⟨symbols, entry, blocks⟩ := s
  cases blocks with
  | nil => rfl
  | cons b outer => exact finish_renumber f ⟨symbols, entry, outer⟩ b

theorem leaveMany_renumber (n : Nat) :
    (s.renumber f).leaveMany n = (s.leaveMany n).map (renumber f) := by
  induction n generalizing s with
  | zero => rfl
  | succ n ih =>
    rw [leaveMany, leave_renumber, leaveMany]
    exact map_bind_comm ih

theorem leaveTo_renumber (height : Nat) :
    (s.renumber f).leaveTo height = (s.leaveTo height).map (renumber f) := by
  rw [leaveTo, length_renumber, leaveMany_renumber, leaveTo]

end Ends

section Lines

variable (config : Config) (line : Nat)

theorem declareArguments_renumber (id : Nat) (arguments : List String) (t : SymbolTree) :
    declareArguments id arguments (t.renumber f) =
      (declareArguments id arguments t).map (SymbolTree.renumber f) := by
  induction arguments generalizing t with
  | nil => rfl
  | cons x arguments ih =>
    rw [declareArguments_cons, declareArguments_cons, SymbolTree.declare_renumber]
    exact map_bind_comm fun d => ih d.1

theorem enter_symbols_renumber (t : SymbolTree) (o : Opener) (fixed : o.renumber f = o) :
    { s.renumber f with symbols := t.renumber f }.enter config.maxDepth o (f line) =
      ({ s with symbols := t }.enter config.maxDepth o line).map (renumber f) := by
  have entered := enter_renumber f { s with symbols := t } config.maxDepth line o
  rwa [fixed] at entered

theorem perform_renumber (h : Header) : (s.renumber f).perform config (f line) h =
    (s.perform config line h).map (renumber f) := by
  cases h using Header.byEffect with
  | opens h o opens =>
    have fixed : o.renumber f = o := by cases h <;> cases opens <;> rfl
    rw [perform_of_opener opens, perform_of_opener opens, directlyInClass_renumber]
    split
    · rfl
    · exact enter_symbols_renumber f s config line s.symbols o fixed
  | leaf h leaf =>
    obtain ⟨stmt, leaf⟩ := leaf line
    have leaf' : h.leaf? (f line) = some (stmt.renumber f) := by cases h <;> cases leaf <;> rfl
    rw [perform_of_leaf leaf, perform_of_leaf leaf', directlyInClass_renumber]
    split
    · rfl
    · exact congrArg Except.ok (add_renumber f s stmt).symm
  | class_ name =>
    have declared := SymbolTree.declare_renumber f s.symbols s.scope name .class_
    simp only [perform, scope_renumber]
    exact (congrArg (· >>= _) declared).trans
      (map_bind_comm fun d => enter_symbols_renumber f s config line d.1 _ rfl)
  | function name arguments =>
    have declared := SymbolTree.declare_renumber f s.symbols s.scope name .function
    simp only [perform, scope_renumber]
    refine (congrArg (· >>= _) declared).trans (map_bind_comm fun d => ?_)
    exact (congrArg (· >>= _) (declareArguments_renumber f d.2 arguments d.1)).trans
      (map_bind_comm fun t => enter_symbols_renumber f s config line t _ rfl)
  | elseIf | else_ => rfl

theorem resume_renumber (arm : Arm) (chain : List Arm) (h : Header) :
    (s.renumber f).resume config (f line) (arm.renumber f) (chain.map (Arm.renumber f)) h =
      (s.resume config line arm chain h).map (renumber f) := by
  have entered := enter_renumber f s config.maxDepth line
  cases h with
  | elseIf c => exact entered (.if_ c (arm :: chain))
  | else_ => exact entered (.else_ arm chain)
  | _ => rfl

theorem read_renumber (ws : List Lexeme) : (s.renumber f).read config (f line) ws =
    (s.read config line ws).map (renumber f) := by
  cases ws with
  | nil => rfl
  | cons first rest =>
    rw [read_cons, read_cons, setting_renumber, directlyInClass_renumber]
    cases Header.parse (s.setting config) s.directlyInClass first rest with
    | error e => rfl
    | ok h => exact perform_renumber f s config line h

theorem otherwise_renumber (rest : List Lexeme) (arm : Arm) (chain : List Arm) :
    (s.renumber f).otherwise config (f line) rest (arm.renumber f) (chain.map (Arm.renumber f)) =
      (s.otherwise config line rest arm chain).map (renumber f) := by
  rw [otherwise_eq_parse, otherwise_eq_parse, setting_renumber]
  cases Header.parseElse (s.setting config) rest with
  | error e => rfl
  | ok h => exact resume_renumber f s config line arm chain h

theorem openArm?_renumber (height : Nat) : (s.renumber f).openArm? height =
    (s.openArm? height).map fun found =>
      (found.1.renumber f, found.2.1.map (Arm.renumber f), found.2.2.renumber f) := by
  obtain ⟨symbols, entry, blocks⟩ := s
  rcases blocks with _ | ⟨⟨opener, line, body⟩, outer⟩
  · rfl
  · cases opener with
    | if_ c chain =>
      simp only [openArm?, renumber, List.map_cons, Block.renumber, Opener.renumber,
        List.length_map, ← Stmt.renumberAll_reverse]
      split <;> rfl
    | _ => rfl

theorem step_renumber (l : Line) : (s.renumber f).step config (l.renumber f) =
    (s.step config l).map (renumber f) := by
  simp only [step, Line.renumber, length_renumber, leaveTo_renumber]
  split
  · rfl
  · refine map_bind_comm fun t => ?_
    have plain : ((t.renumber f).leaveTo l.indentation >>= fun u =>
        u.read config (f l.number) l.lexemes) =
          (t.leaveTo l.indentation >>= fun u => u.read config l.number l.lexemes).map
            (renumber f) := by
      rw [leaveTo_renumber]
      exact map_bind_comm fun u => read_renumber f u config l.number l.lexemes
    rw [openArm?_renumber]
    cases t.openArm? l.indentation with
    | none => exact plain
    | some found =>
      cases afterElse? l.lexemes with
      | none => exact plain
      | some rest =>
        exact otherwise_renumber f found.2.2 config l.number rest found.1 found.2.1

theorem readAll_renumber (ls : List Line) :
    (s.renumber f).readAll config (ls.map (Line.renumber f)) =
      ((s.readAll config ls).map (renumber f)).mapError (Error.renumber f) := by
  induction ls generalizing s with
  | nil => rfl
  | cons l ls ih =>
    rw [List.map_cons, readAll_cons, readAll_cons, step_renumber]
    cases s.step config l with
    | error e => rfl
    | ok t => exact ih t

theorem done_renumber : (s.renumber f).done = s.done.map (SymbolTree.renumber f) := by
  rw [done, done, leaveTo_renumber]
  refine map_bind_comm fun t => ?_
  have set := SymbolTree.setFunction_renumber f t.symbols SymbolTree.root ⟨[], t.entry.reverse⟩
  rwa [Function.renumber, Stmt.renumberAll_reverse] at set

end Lines

end State

/-- Other numbers at the lines are other numbers at their statements, or at the error. -/
theorem symbolsOf_renumber (config : Config) (name : String) (ls : List Line) :
    symbolsOf config name (ls.map (Line.renumber f)) =
      ((symbolsOf config name ls).map (SymbolTree.renumber f)).mapError (Error.renumber f) := by
  have start : (State.start name).renumber f = .start name := by
    rw [State.renumber, State.start, SymbolTree.new_renumber]
    rfl
  have read := State.readAll_renumber f (.start name) config ls
  rw [start] at read
  cases h : (State.start name).readAll config ls with
  | error e =>
    rw [h] at read
    rw [symbolsOf_eq_error.2 h]
    exact symbolsOf_eq_error.2 read
  | ok s =>
    rw [h] at read
    obtain ⟨t, done⟩ := (((State.Sound.start name).readAll config ls).1 s h).done_isOk
    rw [symbolsOf, symbolsOf, h, read]
    simp only [Except.map, Except.mapError, bind, Except.bind, State.done_renumber, done]
    rfl

end Module

end Offside
