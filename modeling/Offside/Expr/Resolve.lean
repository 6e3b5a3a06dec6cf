import Offside.Expr
import Offside.Fault

/-!
From a flat run of operands and operators to a tree. The operator that binds loosest
becomes the root: of equally loose ones the last, or the first where they group to the
right. What a prefix operator or a call builds takes its place as an operand, and the
run is resolved again. Each operand comes with the depth of its tree.
-/

namespace Offside.Expr

structure Measured where
  expr : Expr
  depth : Nat
  deriving Repr

/-- The operators of a run. A call holds its arguments and the depth of the deepest. -/
inductive Connective
  | unary (op : UnaryOp)
  | binary (op : BinaryOp)
  | call (arguments : List Expr) (depth : Nat)
  deriving Repr

inductive Element
  | operand (m : Measured)
  | operator (c : Connective)
  deriving Repr

namespace Measured

def leaf (e : Expr) : Measured :=
  ⟨e, 1⟩

def deepest (ms : List Measured) : Nat :=
  (ms.map (·.depth)).foldr max 0

def array (elements : List Measured) : Measured :=
  ⟨.array (elements.map (·.expr)), deepest elements + 1⟩

def unary (op : UnaryOp) (argument : Measured) : Measured :=
  ⟨.unary op argument.expr, argument.depth + 1⟩

def binary (op : BinaryOp) (left right : Measured) : Measured :=
  ⟨.binary op left.expr right.expr, max left.depth right.depth + 1⟩

def call (callee : Measured) (arguments : List Expr) (depth : Nat) : Measured :=
  ⟨.call callee.expr arguments, max callee.depth depth + 1⟩

end Measured

namespace Connective

def level : Connective → Nat
  | unary op => op.level
  | binary op => op.level
  | call .. => callLevel

def rightToLeft : Connective → Bool
  | binary op => op.rightToLeft
  | _ => false

/-- Is `c` to be the root rather than `other`, which stands to its right? -/
def displaces (c other : Connective) : Bool :=
  other.level < c.level || (c.level == other.level && c.rightToLeft)

end Connective

namespace Element

def isOperator : Element → Bool
  | operator _ => true
  | operand _ => false

end Element

structure Split where
  left : List Element
  root : Connective
  right : List Element

def split : List Element → Option Split
  | [] => none
  | .operand m :: rest =>
    (split rest).map fun s => { s with left := .operand m :: s.left }
  | .operator c :: rest =>
    match split rest with
    | none => some ⟨[], c, rest⟩
    | some s =>
      if c.displaces s.root then some ⟨[], c, rest⟩
      else some { s with left := .operator c :: s.left }

theorem split_eq {es : List Element} {s : Split} (h : split es = some s) :
    es = s.left ++ .operator s.root :: s.right := by
  induction es generalizing s with
  | nil => simp [split] at h
  | cons e es ih =>
    cases e with
    | operand m =>
      obtain ⟨t, ht, rfl⟩ := Option.map_eq_some_iff.1 h
      simp [← ih ht]
    | operator c =>
      rw [split] at h
      cases hs : split es with
      | none => simp only [hs, Option.some.injEq] at h; simp [← h]
      | some t =>
        simp only [hs] at h
        split at h <;> simp only [Option.some.injEq] at h
        · simp [← h]
        · simp [← h, ← ih hs]

theorem length_split {es : List Element} {s : Split} (h : split es = some s) :
    es.length = s.left.length + 1 + s.right.length := by
  rw [split_eq h]
  simp
  omega

theorem split_eq_none {es : List Element} (h : split es = none) :
    ∀ e ∈ es, e.isOperator = false := by
  induction es with
  | nil => simp
  | cons e es ih =>
    cases e with
    | operand m =>
      rw [split, Option.map_eq_none_iff] at h
      simpa [Element.isOperator] using ih h
    | operator c =>
      rw [split] at h
      split at h
      · simp at h
      · split at h <;> simp at h

/-- The tree of a run. The faults are those of runs that no statement gives rise to, among them
that of an operator by itself. -/
def resolve (run : List Element) : Except Fault Measured :=
  match h : split run with
  | none =>
    match run with
    | [.operand m] => .ok m
    | _ => .error .noRoot
  | some ⟨left, .unary op, r :: right⟩ => do
    let argument ← resolve (r :: right)
    resolve (left ++ [.operand (.unary op argument)])
  | some ⟨l :: left, .binary op, r :: right⟩ => do
    return .binary op (← resolve (l :: left)) (← resolve (r :: right))
  | some ⟨l :: left, .call arguments depth, right⟩ => do
    let callee ← resolve (l :: left)
    resolve (.operand (callee.call arguments depth) :: right)
  | some ⟨[], _, []⟩ => .error .noRoot
  | some ⟨_ :: _, .unary _, []⟩ => .error .unaryWithoutArgument
  | some ⟨_ :: _, .binary _, []⟩ | some ⟨[], .binary _, _ :: _⟩ => .error .binaryWithoutArguments
  | some ⟨[], .call .., _ :: _⟩ => .error .callWithoutCallee
termination_by run.length
decreasing_by
  all_goals
    have := length_split h
    simp only [List.length_append, List.length_cons, List.length_nil] at *
    omega

theorem resolve_operand (m : Measured) : resolve [.operand m] = .ok m := by
  rw [resolve]
  rfl

end Offside.Expr
