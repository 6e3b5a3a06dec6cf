import Offside.Expr.Parse
import Offside.Symbol.Tree

/-!
Blocks that a module has open while its lines are read. Indentation alone ends a block,
so the open blocks are exactly as many as the level of the line being read. The scope,
whether class members may be named, and the length of the else-if chains around a line
are all read off the open blocks.
-/

namespace Offside.Module

/-- An if statement whose else arm is still to come, with the line of the if. -/
structure Arm where
  condition : Expr
  body : List Stmt
  line : Nat
  deriving Repr

/-- What the body of a block will be part of. The arms of an else-if chain that come
before are kept with it, the nearest first. -/
inductive Opener
  | class_ (id : Nat)
  | function (id : Nat) (arguments : List String)
  | while_ (condition : Expr)
  | for_ (init condition step : Expr)
  | foreach (item : Ident) (container : Expr)
  | if_ (condition : Expr) (chain : List Arm)
  | else_ (arm : Arm) (chain : List Arm)
  deriving Repr

structure Block where
  opener : Opener
  line : Nat
  body : List Stmt := []
  deriving Repr

namespace Opener

def scope? : Opener → Option Nat
  | class_ id | function id _ => some id
  | _ => none

def isClass : Opener → Bool
  | class_ _ => true
  | _ => false

/-- The else-if links above the body. Each nests the rest of its chain in an else arm. -/
def links : Opener → Nat
  | if_ _ chain | else_ _ chain => chain.length
  | _ => 0

end Opener

/-- Puts a statement behind the arms before it, each the whole else arm of the next. -/
def chained (chain : List Arm) (s : Stmt) : Stmt :=
  chain.foldl (fun s arm => .ifElse arm.condition arm.body [s] arm.line) s

/-- Lines read so far: the symbols, the entry function's statements, the latest first,
and the open blocks, the innermost first. -/
structure State where
  symbols : SymbolTree
  entry : List Stmt := []
  blocks : List Block := []
  deriving Repr

namespace State

def start (name : String) : State :=
  ⟨.new name, [], []⟩

def scope (s : State) : Nat :=
  (s.blocks.findSome? (·.opener.scope?)).getD SymbolTree.root

def inClass (s : State) : Bool :=
  s.blocks.any (·.opener.isClass)

/-- Is the nearest class or function a class? Statements have no place there. -/
def directlyInClass (s : State) : Bool :=
  ((s.blocks.find? (·.opener.scope?.isSome)).map (·.opener.isClass)).getD false

def links (s : State) : Nat :=
  s.blocks.foldr (fun b n => b.opener.links + n) 0

def add (stmt : Stmt) (s : State) : State :=
  match s.blocks with
  | [] => { s with entry := stmt :: s.entry }
  | b :: outer => { s with blocks := { b with body := stmt :: b.body } :: outer }

theorem length_add (stmt : Stmt) (s : State) : (s.add stmt).blocks.length = s.blocks.length := by
  unfold add
  split <;> simp_all

def enter (maxDepth : Nat) (opener : Opener) (line : Nat) (s : State) : Except Fault State :=
  if maxDepth ≤ s.blocks.length + s.links + opener.links then .error (.tooDeep .blocks maxDepth)
  else .ok { s with blocks := ⟨opener, line, []⟩ :: s.blocks }

def finish (b : Block) (s : State) : Except Fault State :=
  let body := b.body.reverse
  match b.opener with
  | .class_ _ => .ok s
  | .function id arguments => do
    return { s with symbols := ← s.symbols.setFunction id ⟨arguments, body⟩ }
  | .while_ condition => .ok (s.add (.while_ condition body b.line))
  | .for_ init condition step => .ok (s.add (.for_ init condition step body b.line))
  | .foreach item container => .ok (s.add (.foreach item container body b.line))
  | .if_ condition chain => .ok (s.add (chained chain (.if_ condition body b.line)))
  | .else_ arm chain =>
    .ok (s.add (chained chain (.ifElse arm.condition arm.body body arm.line)))

def leave (s : State) : Except Fault State :=
  match s.blocks with
  | [] => .ok s
  | b :: outer => { s with blocks := outer }.finish b

def leaveMany : Nat → State → Except Fault State
  | 0, s => .ok s
  | n + 1, s => s.leave >>= leaveMany n

def leaveTo (height : Nat) (s : State) : Except Fault State :=
  s.leaveMany (s.blocks.length - height)

theorem length_finish {b : Block} {s t : State} (h : s.finish b = .ok t) :
    t.blocks.length = s.blocks.length := by
  obtain ⟨opener, line, body⟩ := b
  cases opener with
  | function id arguments =>
    obtain ⟨symbols, _, he⟩ := bind_eq_ok.1 h
    exact Except.ok.inj he ▸ rfl
  | _ =>
    simp only [finish, Except.ok.injEq] at h
    simp [← h, length_add]

theorem length_leave {s t : State} (h : s.leave = .ok t) :
    t.blocks.length = s.blocks.length - 1 := by
  unfold leave at h
  split at h
  next hb =>
    simp only [Except.ok.injEq] at h
    simp [← h, hb]
  next b outer hb =>
    have := length_finish h
    simp_all

theorem length_leaveMany {n : Nat} {s t : State} (h : s.leaveMany n = .ok t) :
    t.blocks.length = s.blocks.length - n := by
  induction n generalizing s with
  | zero =>
    simp only [leaveMany, Except.ok.injEq] at h
    simp [h]
  | succ n ih =>
    obtain ⟨u, hu, h⟩ := bind_eq_ok.1 h
    have := ih h
    have := length_leave hu
    omega

theorem length_leaveTo {height : Nat} {s t : State} (h : s.leaveTo height = .ok t) :
    t.blocks.length = min s.blocks.length height := by
  have := length_leaveMany h
  omega

end State

end Offside.Module
