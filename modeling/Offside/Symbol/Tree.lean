import Offside.Fault
import Offside.Symbol

/-!
The symbols of a module as one array, numbered in the order of declaration from 0, the
module's entry function. Every operation that is given a number says what it does if no
symbol has it.
-/

namespace Offside

structure SymbolTree where
  symbols : Array Symbol
  deriving Repr

namespace SymbolTree

def new (name : String) : SymbolTree :=
  ⟨#[.fresh name .function none]⟩

def root : Nat := 0

def size (t : SymbolTree) : Nat :=
  t.symbols.size

def get? (t : SymbolTree) (id : Nat) : Option Symbol :=
  t.symbols[id]?

theorem get?_lt {t : SymbolTree} {id : Nat} {s : Symbol} (h : t.get? id = some s) :
    id < t.size :=
  (Array.getElem?_eq_some_iff.1 h).1

def lookup (t : SymbolTree) (scope : Nat) (name : String) : Option Nat := do
  (← t.get? scope).children.lookup name

def isUsed (t : SymbolTree) (scope : Nat) (name : String) : Bool :=
  (t.lookup scope name).isSome

def declare (t : SymbolTree) (scope : Nat) (name : String) (kind : SymbolKind) :
    Except Fault (SymbolTree × Nat) :=
  match t.get? scope with
  | none => .error (.unknownSymbol scope)
  | some s =>
    if (s.children.lookup name).isSome then .error (.nameTaken name)
    else
      let id := t.size
      let s := { s with children := Symbol.insertChild name id s.children }
      .ok (⟨(t.symbols.setIfInBounds scope s).push (.fresh name kind (some scope))⟩, id)

def setFunction (t : SymbolTree) (id : Nat) (f : Function) : Except Fault SymbolTree :=
  match t.get? id with
  | some s =>
    if s.function.isSome then
      .ok ⟨t.symbols.setIfInBounds id { s with function := some f }⟩
    else .error (.unknownSymbol id)
  | none => .error (.unknownSymbol id)

theorem size_setFunction {t u : SymbolTree} {id : Nat} {f : Function}
    (h : t.setFunction id f = .ok u) : u.size = t.size := by
  unfold setFunction at h
  split at h
  · split at h
    · simp only [Except.ok.injEq] at h
      simp [← h, size]
    · simp at h
  · simp at h

theorem size_declare {t u : SymbolTree} {scope id : Nat} {name : String}
    {kind : SymbolKind} (h : t.declare scope name kind = .ok (u, id)) :
    id = t.size ∧ u.size = t.size + 1 := by
  unfold declare at h
  split at h
  · simp at h
  · split at h
    · simp at h
    · simp only [Except.ok.injEq, Prod.mk.injEq] at h
      obtain ⟨rfl, rfl⟩ := h
      simp [size]

/-- A symbol and those around it, from the inside out. Scopes have smaller numbers than
what is declared in them; a larger one is not followed. -/
def scopes (t : SymbolTree) (id : Nat) : List Nat :=
  match t.get? id with
  | none => []
  | some s =>
    match s.parent with
    | none => [id]
    | some parent => if parent < id then id :: t.scopes parent else [id]
termination_by id

def segments (name : String) : List String :=
  (name.toList.splitOn '.').map String.ofList

/-- A dotted name as seen from `scope`: the first part is looked for from the inside out,
the others in what the part before them stands for. -/
def resolve (t : SymbolTree) (scope : Nat) (name : String) : Option Nat :=
  match segments name with
  | [] => none
  | first :: rest => do
    let found ← (t.scopes scope).findSome? (t.lookup · first)
    rest.foldlM t.lookup found

def path (t : SymbolTree) (id : Nat) : List String :=
  ((t.scopes id).filterMap fun i => (t.get? i).map (·.name)).reverse

def qualifiedName (t : SymbolTree) (id : Nat) : String :=
  ".".intercalate (t.path id)

def function? (t : SymbolTree) (id : Nat) : Option Function := do
  (← t.get? id).function

end SymbolTree

end Offside
