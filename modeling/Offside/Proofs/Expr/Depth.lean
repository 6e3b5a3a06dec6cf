import Offside.Proofs.Expr.Run

/-!
The depth of an expression, and that resolution reports it: if the operands and the calls
of a run come with the depths of what they hold, so does the tree that it resolves to.
-/

namespace Offside.Expr

mutual

/-- One for a leaf or an empty array, one more than the deepest child for the rest. -/
def depth : Expr → Nat
  | literal _ | ident _ => 1
  | unary _ argument => argument.depth + 1
  | binary _ left right => max left.depth right.depth + 1
  | call callee arguments => max callee.depth (depths arguments) + 1
  | array elements => depths elements + 1

def depths : List Expr → Nat
  | [] => 0
  | e :: es => max e.depth (depths es)

end

namespace Measured

def of (e : Expr) : Measured :=
  ⟨e, e.depth⟩

def Exact (m : Measured) : Prop :=
  m.depth = m.expr.depth

theorem of_exact (e : Expr) : (of e).Exact := rfl

theorem eq_of {m : Measured} (h : m.Exact) : m = of m.expr := by
  cases m
  exact congrArg (Measured.mk _) h

theorem deepest_exact {ms : List Measured} (h : ∀ m ∈ ms, m.Exact) :
    deepest ms = depths (ms.map (·.expr)) := by
  induction ms with
  | nil => rfl
  | cons m ms ih =>
    rw [List.forall_mem_cons] at h
    have head : m.depth = m.expr.depth := h.1
    have tail : ((ms.map (·.depth)).foldr max 0) = depths (ms.map (·.expr)) := ih h.2
    simp only [deepest, List.map_cons, List.foldr_cons, depths, head, tail]

theorem unary_exact {op : UnaryOp} {a : Measured} (h : a.Exact) : (unary op a).Exact :=
  congrArg (· + 1) h

theorem binary_exact {op : BinaryOp} {l r : Measured} (hl : l.Exact) (hr : r.Exact) :
    (binary op l r).Exact := by
  have left : l.depth = l.expr.depth := hl
  have right : r.depth = r.expr.depth := hr
  simp only [Exact, binary, Expr.depth, left, right]

theorem call_exact {c : Measured} {arguments : List Expr} (h : c.Exact) :
    (c.call arguments (depths arguments)).Exact := by
  have callee : c.depth = c.expr.depth := h
  simp only [Exact, call, Expr.depth, callee]

theorem array_exact {ms : List Measured} (h : ∀ m ∈ ms, m.Exact) : (array ms).Exact := by
  simp only [Exact, array, Expr.depth, deepest_exact h]

end Measured

def Element.Exact : Element → Prop :=
  Element.Holds Measured.Exact fun arguments depth => depth = depths arguments

theorem resolve_exact {run : List Element} {m : Measured} (h : IsRun run)
    (exact : ∀ e ∈ run, e.Exact) (hm : resolve run = .ok m) : m.Exact := by
  obtain ⟨n, hn, exact⟩ := resolve_holds (fun _ _ => Measured.unary_exact)
    (fun _ _ _ => Measured.binary_exact) (fun _ _ _ h e => e ▸ Measured.call_exact h) h exact
  rw [hm, Except.ok.injEq] at hn
  exact hn ▸ exact

end Offside.Expr
