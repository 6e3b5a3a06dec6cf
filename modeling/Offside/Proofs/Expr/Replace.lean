import Offside.Proofs.Expr.Leaves
import Offside.Proofs.Expr.Reading

/-!
A tree in the place of a leaf. The leaves of a tree are numbered from the left, and so are those of
a run of elements. Resolution looks at operators only, so that it makes no difference whether a leaf
is replaced in the operands of a run or in the tree that the run resolves to.
-/

namespace Offside.Expr

section Leaves

mutual

theorem filter_spelling_operand (e : Expr) :
    e.spelling.filter (fun l => l.kind.isOperand) = e.leaves := by
  cases e with
  | literal | ident => rfl
  | unary op argument =>
    rw [spelling, leaves, List.filter_cons_of_neg (by simp [op.kind_isOperator]),
      filter_spelling_operand argument]
  | binary op left right =>
    rw [spelling, leaves, List.filter_append, List.filter_cons_of_neg (by simp [Kind.isOperand]),
      filter_spelling_operand left, filter_spelling_operand right]
  | call callee arguments =>
    rw [spelling, leaves, List.filter_append, List.filter_cons_of_neg (by simp [Kind.isOperand]),
      filter_spelling_operand callee, filter_spellings_operand arguments]
  | array elements =>
    rw [spelling, leaves, List.filter_cons_of_neg (by simp [Kind.isOperand]),
      filter_spellings_operand elements]

theorem filter_spellings_operand (es : List Expr) :
    (spellings es).filter (fun l => l.kind.isOperand) = leavesOf es := by
  match es with
  | [] => rfl
  | e :: es =>
    rw [spellings, leavesOf, List.filter_append, filter_spelling_operand e,
      filter_spellings_operand es]

end

def Element.leaves : Element → List Lexeme
  | .operand m => m.expr.leaves
  | .operator (.call arguments _) => leavesOf arguments
  | .operator _ => []

theorem Element.filter_spelling (e : Element) :
    e.spelling.filter (fun l => l.kind.isOperand) = e.leaves := by
  match e with
  | .operand m => exact filter_spelling_operand m.expr
  | .operator (.unary op) => simp [spelling, leaves, op.kind_isOperator]
  | .operator (.binary op) => rfl
  | .operator (.call arguments _) =>
    rw [spelling, leaves, List.filter_cons_of_neg (by simp [Kind.isOperand]),
      filter_spellings_operand arguments]

theorem resolve_leaves {run : List Element} {m : Measured} (h : resolve run = .ok m) :
    m.expr.leaves = run.flatMap Element.leaves := by
  rw [← filter_spelling_operand, resolve_spelling h, List.filter_flatMap]
  simp only [Element.filter_spelling]

end Leaves

mutual

/-- The tree `t` in the place of the leaf number `k`; the first leaf has the number `i`. -/
def replaceLeaf (k : Nat) (t : Expr) (i : Nat) : Expr → Expr
  | literal l => if i = k then t else literal l
  | ident x => if i = k then t else ident x
  | unary op argument => unary op (replaceLeaf k t i argument)
  | binary op left right =>
    binary op (replaceLeaf k t i left) (replaceLeaf k t (i + left.leaves.length) right)
  | call callee arguments =>
    call (replaceLeaf k t i callee) (replaceLeaves k t (i + callee.leaves.length) arguments)
  | array elements => array (replaceLeaves k t i elements)

def replaceLeaves (k : Nat) (t : Expr) (i : Nat) : List Expr → List Expr
  | [] => []
  | e :: es => replaceLeaf k t i e :: replaceLeaves k t (i + e.leaves.length) es

end

variable (k : Nat) (t : Expr)

mutual

theorem depth_replaceLeaf_le (i : Nat) (e : Expr) :
    (replaceLeaf k t i e).depth ≤ e.depth + t.depth := by
  cases e with
  | literal | ident =>
    rw [replaceLeaf]
    split
    · exact Nat.le_add_left ..
    · exact Nat.le_add_right ..
  | unary op argument =>
    have inner := depth_replaceLeaf_le i argument
    rw [replaceLeaf, depth, depth]
    omega
  | binary op left right =>
    have innerl := depth_replaceLeaf_le i left
    have innerr := depth_replaceLeaf_le (i + left.leaves.length) right
    rw [replaceLeaf, depth, depth]
    omega
  | call callee arguments =>
    have innerc := depth_replaceLeaf_le i callee
    have inner := depths_replaceLeaves_le (i + callee.leaves.length) arguments
    rw [replaceLeaf, depth, depth]
    omega
  | array elements =>
    have inner := depths_replaceLeaves_le i elements
    rw [replaceLeaf, depth, depth]
    omega

theorem depths_replaceLeaves_le (i : Nat) (es : List Expr) :
    depths (replaceLeaves k t i es) ≤ depths es + t.depth := by
  match es with
  | [] => exact Nat.zero_le _
  | e :: es =>
    have first := depth_replaceLeaf_le i e
    have others := depths_replaceLeaves_le (i + e.leaves.length) es
    rw [replaceLeaves, depths, depths]
    omega

end

theorem replaceLeaves_append (i : Nat) (a b : List Expr) : replaceLeaves k t i (a ++ b) =
    replaceLeaves k t i a ++ replaceLeaves k t (i + (leavesOf a).length) b := by
  induction a generalizing i with
  | nil => rfl
  | cons e es ih =>
    rw [List.cons_append, replaceLeaves, replaceLeaves, ih, leavesOf, List.length_append,
      Nat.add_assoc, List.cons_append]

def Measured.replaceLeaf (i : Nat) (m : Measured) : Measured :=
  .of (Expr.replaceLeaf k t i m.expr)

/-- The deepest argument of a call may be another one then. -/
def Connective.replaceLeaf (i : Nat) : Connective → Connective
  | .call arguments _ =>
    .call (replaceLeaves k t i arguments) (depths (replaceLeaves k t i arguments))
  | c => c

def Element.replaceLeaf (i : Nat) : Element → Element
  | .operand m => .operand (m.replaceLeaf k t i)
  | .operator c => .operator (c.replaceLeaf k t i)

def replaceInRun (i : Nat) : List Element → List Element
  | [] => []
  | e :: es => e.replaceLeaf k t i :: replaceInRun (i + e.leaves.length) es

section Runs

variable {run : List Element}

theorem replaceInRun_append (i : Nat) (a b : List Element) : replaceInRun k t i (a ++ b) =
    replaceInRun k t i a ++ replaceInRun k t (i + (a.flatMap Element.leaves).length) b := by
  induction a generalizing i with
  | nil => rfl
  | cons e es ih =>
    rw [List.cons_append, replaceInRun, replaceInRun, ih, List.flatMap_cons, List.length_append,
      Nat.add_assoc, List.cons_append]

theorem replaceInRun_ne_nil (i : Nat) (ne : run ≠ []) : replaceInRun k t i run ≠ [] := by
  obtain ⟨e, es, rfl⟩ := List.exists_cons_of_ne_nil ne
  exact List.cons_ne_nil _ _

theorem countP_replaceInRun (i : Nat) (run : List Element) :
    (replaceInRun k t i run).countP (·.isOperator) = run.countP (·.isOperator) := by
  induction run generalizing i with
  | nil => rfl
  | cons e es ih =>
    have same : (e.replaceLeaf k t i).isOperator = e.isOperator := by cases e <;> rfl
    rw [replaceInRun, List.countP_cons, List.countP_cons, ih, same]

theorem Connective.displaces_replaceLeaf (i j : Nat) (c d : Connective) :
    (c.replaceLeaf k t i).displaces (d.replaceLeaf k t j) = c.displaces d := by
  have levels (i : Nat) (c : Connective) : (c.replaceLeaf k t i).level = c.level := by
    cases c <;> rfl
  have side : (c.replaceLeaf k t i).rightToLeft = c.rightToLeft := by cases c <;> rfl
  rw [displaces, displaces, levels, levels, side]

def Split.replaceLeaf (i : Nat) (s : Split) : Split :=
  let j := i + (s.left.flatMap Element.leaves).length
  ⟨replaceInRun k t i s.left, s.root.replaceLeaf k t j,
    replaceInRun k t (j + (Element.operator s.root).leaves.length) s.right⟩

theorem split_replaceInRun (i : Nat) (run : List Element) :
    split (replaceInRun k t i run) = (split run).map (·.replaceLeaf k t i) := by
  induction run generalizing i with
  | nil => rfl
  | cons e es ih =>
    rw [replaceInRun]
    cases e with
    | operand m =>
      rw [Element.replaceLeaf, split, split, ih]
      cases split es with
      | none => rfl
      | some s => simp [Split.replaceLeaf, replaceInRun, Element.replaceLeaf, Nat.add_assoc]
    | operator c =>
      rw [Element.replaceLeaf, split, split, ih]
      cases split es with
      | none => rfl
      | some s =>
        have same := Connective.displaces_replaceLeaf k t i
          (i + (Element.operator c).leaves.length + (s.left.flatMap Element.leaves).length) c s.root
        simp only [Option.map_some, Split.replaceLeaf, same]
        split
        · rfl
        · simp [replaceInRun, Element.replaceLeaf, Nat.add_assoc]

theorem resolve_replaceInRun (i : Nat) {m : Measured} (h : resolve run = .ok m) :
    resolve (replaceInRun k t i run) = .ok (m.replaceLeaf k t i) := by
  refine resolved_induct
    (P := fun run m => ∀ i, resolve (replaceInRun k t i run) = .ok (m.replaceLeaf k t i))
    (fun m i => ?_) (fun run left op right a m cut some_ _ argument whole i => ?_)
    (fun run left op right a b cut somel somer ha first second i => ?_)
    (fun run left arguments depth right c m cut some_ hc callee whole i => ?_) h i
  · exact resolve_operand _
  · have cut' := split_replaceInRun k t i run
    rw [cut] at cut'
    rw [resolve_split_unary cut' (replaceInRun_ne_nil k t _ some_), argument]
    have rest := whole i
    rw [replaceInRun_append] at rest
    exact rest
  · have cut' := split_replaceInRun k t i run
    rw [cut] at cut'
    rw [resolve_split_binary cut' (replaceInRun_ne_nil k t _ somel)
      (replaceInRun_ne_nil k t _ somer), first, second, ← resolve_leaves ha]
    rfl
  · have cut' := split_replaceInRun k t i run
    rw [cut] at cut'
    have count : (Element.operand (c.call arguments depth)).leaves.length =
        c.expr.leaves.length + (leavesOf arguments).length := List.length_append
    have rest := whole i
    rw [replaceInRun, count, ← Nat.add_assoc] at rest
    rw [resolve_split_call cut' (replaceInRun_ne_nil k t _ some_), callee, ← resolve_leaves hc]
    exact rest

end Runs

end Offside.Expr
