import Mathlib
import Offside.Proofs.Expr.Depth
import Offside.Proofs.Expr.Precedence

/-!
Precedence climbing: runs read from the left to the right, each operand being extended by
the operators that follow it for as long as they bind tightly enough. The bindings are a table
of their own, apart from the levels that resolution goes by. Main statement: the tree that a
run resolves to is the one that is climbed to.
-/

namespace Offside.Expr

/-- The level of an operator, and that of the loosest operators in its right operand. -/
structure Binding where
  level : Nat
  right : Nat

namespace Binding

def leftward (level : Nat) : Binding := ⟨level, level - 1⟩

def rightward (level : Nat) : Binding := ⟨level, level⟩

/-- Calls bind like selections, at level 1, and prefix operators at level 3. -/
def of : BinaryOp → Binding
  | .select => leftward 1
  | .power => rightward 2
  | .multiply | .divide | .remainder => leftward 4
  | .add | .subtract => leftward 5
  | .shiftLeft | .shiftRight => leftward 6
  | .less | .lessEqual | .greater | .greaterEqual => leftward 7
  | .equal | .notEqual => leftward 8
  | .bitAnd => leftward 9
  | .bitXor => leftward 10
  | .bitOr => leftward 11
  | .and => leftward 12
  | .or => leftward 13
  | .assign | .addAssign | .subtractAssign | .multiplyAssign | .divideAssign | .remainderAssign
  | .powerAssign => rightward 14

theorem level_of (op : BinaryOp) : (of op).level = op.level := by
  cases op <;> rfl

theorem right_of (op : BinaryOp) : (of op).right = (Connective.binary op).reach := by
  cases op <;> rfl

end Binding

/-- What is left of a run of `length` elements once a tree has been read off its front. -/
structure Climbed (length : Nat) where
  tree : Measured
  rest : List Element
  shorter : rest.length ≤ length

def Climbed.within {n m : Nat} (c : Climbed n) (h : n ≤ m) : Climbed m :=
  ⟨c.tree, c.rest, Nat.le_trans c.shorter h⟩

mutual

/-- An operand with its prefix operators, and the operators of level up to `limit` that
follow. A prefix operator may stand before any operand, whatever the limit, and takes in what
is tighter than level 3. -/
def climb (limit : Nat) : (es : List Element) → Option (Climbed es.length)
  | .operand m :: es => do
    let whole ← extend limit m es
    return whole.within (by simp)
  | .operator (.unary op) :: es => do
    let argument ← climb 2 es
    let whole ← extend limit (.unary op argument.tree) argument.rest
    return whole.within (Nat.le_succ_of_le argument.shorter)
  | _ => none
termination_by es => es.length
decreasing_by
  · simp
  · simp
  · exact Nat.lt_succ_of_le argument.shorter

def extend (limit : Nat) (left : Measured) :
    (es : List Element) → Option (Climbed es.length)
  | .operator (.call arguments depth) :: es =>
    if 1 ≤ limit then do
      let whole ← extend limit (left.call arguments depth) es
      return whole.within (by simp)
    else some ⟨left, .operator (.call arguments depth) :: es, Nat.le_refl _⟩
  | .operator (.binary op) :: es =>
    if (Binding.of op).level ≤ limit then do
      let right ← climb (Binding.of op).right es
      let whole ← extend limit (.binary op left right.tree) right.rest
      return whole.within (Nat.le_succ_of_le right.shorter)
    else some ⟨left, .operator (.binary op) :: es, Nat.le_refl _⟩
  | es => some ⟨left, es, Nat.le_refl _⟩
termination_by es => es.length
decreasing_by
  · simp
  · simp
  · exact Nat.lt_succ_of_le right.shorter

end

/-- The tree of a whole run; no operator is looser than level 14. -/
def climbAll (run : List Element) : Option Measured := do
  let whole ← climb 14 run
  if whole.rest.isEmpty then some whole.tree else none

section Rules

variable {limit : Nat} {m t : Measured} {es rest : List Element}

def Climbs (limit : Nat) (es : List Element) (m : Measured) (rest : List Element) : Prop :=
  ∃ c, climb limit es = some c ∧ c.tree = m ∧ c.rest = rest

def Extends (limit : Nat) (left : Measured) (es : List Element) (m : Measured)
    (rest : List Element) : Prop :=
  ∃ c, extend limit left es = some c ∧ c.tree = m ∧ c.rest = rest

theorem Climbs.operand (h : Extends limit m es t rest) :
    Climbs limit (.operand m :: es) t rest := by
  obtain ⟨c, hc, rfl, rfl⟩ := h
  exact ⟨_, by rw [climb, hc]; rfl, rfl, rfl⟩

theorem Climbs.unary {op : UnaryOp} {a : Measured} {es' : List Element}
    (ha : Climbs 2 es a es') (h : Extends limit (.unary op a) es' t rest) :
    Climbs limit (.operator (.unary op) :: es) t rest := by
  obtain ⟨d, hd, rfl, rfl⟩ := ha
  obtain ⟨c, hc, rfl, rfl⟩ := h
  exact ⟨_, by rw [climb, hd, Option.bind_eq_bind, Option.bind_some, hc]; rfl, rfl, rfl⟩

theorem Extends.stop (h : ∀ c, es.head? = some (.operator c) → limit < c.level) :
    Extends limit m es m es := by
  match es with
  | [] | .operand _ :: _ | .operator (.unary _) :: _ => exact ⟨_, by rw [extend] <;> simp, rfl, rfl⟩
  | .operator (.call arguments depth) :: es =>
    have loose : ¬ 1 ≤ limit := Nat.not_le.2 (h _ rfl)
    exact ⟨_, by rw [extend, if_neg loose], rfl, rfl⟩
  | .operator (.binary op) :: es =>
    have loose : ¬ (Binding.of op).level ≤ limit := by
      rw [Binding.level_of]
      exact Nat.not_le.2 (h _ rfl)
    exact ⟨_, by rw [extend, if_neg loose], rfl, rfl⟩

theorem Extends.call {arguments : List Expr} {depth : Nat} (le : 1 ≤ limit)
    (h : Extends limit (m.call arguments depth) es t rest) :
    Extends limit m (.operator (.call arguments depth) :: es) t rest := by
  obtain ⟨c, hc, rfl, rfl⟩ := h
  exact ⟨_, by rw [extend, if_pos le, hc]; rfl, rfl, rfl⟩

theorem Extends.binary {op : BinaryOp} {b : Measured} {es' : List Element}
    (le : op.level ≤ limit) (hb : Climbs (Connective.binary op).reach es b es')
    (h : Extends limit (.binary op m b) es' t rest) :
    Extends limit m (.operator (.binary op) :: es) t rest := by
  rw [← Binding.level_of] at le
  rw [← Binding.right_of] at hb
  obtain ⟨d, hd, rfl, rfl⟩ := hb
  obtain ⟨c, hc, rfl, rfl⟩ := h
  exact ⟨_, by rw [extend, if_pos le, hd, Option.bind_eq_bind, Option.bind_some, hc]; rfl,
    rfl, rfl⟩

end Rules

/-- Up to its first prefix operator a stretch holds operators of level up to `limit`, and if
that is tighter than a prefix operator, none is looser than one behind it. -/
def Within (limit : Nat) (es : List Element) : Prop :=
  Below limit es ∨ limit < 3 ∧ ∃ l op r, es = l ++ .operator (.unary op) :: r ∧
    Below limit l ∧ Below 3 r

theorem Within.below {limit : Nat} {es : List Element} (h : Within limit es) :
    Below (max limit 3) es := by
  rcases h with h | ⟨lt, l, op, r, rfl, hl, hr⟩
  · exact h.mono (Nat.le_max_left ..)
  · refine Below.append_iff.2 ⟨hl.mono (Nat.le_max_left ..), Below.operator_iff.2 ⟨?_, ?_⟩⟩
    · exact Nat.le_max_right ..
    · exact hr.mono (Nat.le_max_right ..)

theorem Within.append {limit : Nat} {l r : List Element} (hl : Within limit l)
    (hr : Within limit r) : Within limit (l ++ r) := by
  rcases hl with hl | ⟨lt, front, op, argument, rfl, hfront, hargument⟩
  · rcases hr with hr | ⟨lt, front, op, argument, rfl, hfront, hargument⟩
    · exact .inl (Below.append_iff.2 ⟨hl, hr⟩)
    · refine .inr ⟨lt, l ++ front, op, argument, by simp, ?_, hargument⟩
      exact Below.append_iff.2 ⟨hl, hfront⟩
  · refine .inr ⟨lt, front, op, argument ++ r, by simp, hfront, ?_⟩
    exact Below.append_iff.2 ⟨hargument, hr.below.mono (by omega)⟩

theorem Within.mono {n m : Nat} {es : List Element} (h : Within n es) (le : n ≤ m) :
    Within m es := by
  by_cases lt : m < 3
  · rcases h with h | ⟨_, l, op, r, rfl, hl, hr⟩
    · exact .inl (h.mono le)
    · exact .inr ⟨lt, l, op, r, rfl, hl.mono le, hr⟩
  · exact .inl (h.below.mono (by omega))

theorem Within.operator {limit : Nat} {c : Connective} (le : c.level ≤ limit) :
    Within limit [.operator c] :=
  .inl (Below.operator_iff.2 ⟨le, by simp [Below]⟩)

/-- A prefix operator in the right operand may be looser than the binary operator at the
root, as it reaches to the end of that operand. -/
theorem resolve_within {op : BinaryOp} {a b : Measured} {l r : List Element} (hl : IsRun l)
    (hr : IsRun r) (left : Released op.level l)
    (right : Within (Connective.binary op).reach r) (ha : resolve l = .ok a)
    (hb : resolve r = .ok b) :
    resolve (l ++ .operator (.binary op) :: r) = .ok (.binary op a b) := by
  rcases right with tight | ⟨lt, p, sign, argument, rfl, hp, hargument⟩
  · exact resolve_binary hl hr left tight ha hb
  · obtain ⟨c, hc⟩ := resolve_total hr.cut_unary.1
    have level := (Connective.binary op).level_le_reach
    have below : Below 3 l := fun d hd => by
      have := left d hd
      have := d.level_le_reach
      simp only [Connective.level] at level
      omega
    have hp' : Below 3 p := hp.mono (by omega)
    have before : Below 3 (l ++ .operator (.binary op) :: p) :=
      Below.append_iff.2 ⟨below, Below.operator_iff.2 ⟨by omega, hp'⟩⟩
    have whole : IsRun
        ((l ++ .operator (.binary op) :: p) ++ .operator (.unary sign) :: argument) := by
      rw [List.append_assoc]
      exact hl.append hr
    have inner := resolve_unary hr hp' hargument hc
    have outer := resolve_unary whole before hargument hc
    rw [List.append_assoc, List.cons_append, List.append_assoc, List.cons_append] at outer
    rw [outer]
    refine resolve_binary hl (hr.cut_unary.2 _) left ?_ ha (inner ▸ hb)
    exact Below.append_iff.2 ⟨hp, Below.operand_iff.2 (by simp [Below])⟩

/-- A stretch `front` has been read up to `rest`: it resolves to `tree`, and none of its
operators takes in the operator that comes next. -/
structure Front (limit : Nat) (front : List Element) (tree : Measured)
    (rest : List Element) : Prop where
  isRun : IsRun front
  resolves : resolve front = .ok tree
  within : Within limit front
  isTail : IsTail rest
  released : ∀ c, rest.head? = some (.operator c) → Released c.level front

namespace Front

variable {limit : Nat} {m a b : Measured} {front mid rest : List Element}

theorem operand (h : IsTail rest) : Front limit [.operand m] m rest where
  isRun := trivial
  resolves := resolve_operand m
  within := .inl (by simp [Below])
  isTail := h
  released := by simp [Released]

theorem unary {op : UnaryOp} (h : Front (Connective.unary op).reach front a rest)
    (stop : ∀ c, rest.head? = some (.operator c) → (Connective.unary op).reach < c.level) :
    Front limit (.operator (.unary op) :: front) (.unary op a) rest where
  isRun := h.isRun
  resolves := by
    have below : Below 3 front := h.within.below
    exact (resolve_unary (l := []) h.isRun (by simp [Below]) below h.resolves).trans
      (resolve_operand _)
  within := by
    have below : Below 3 front := h.within.below
    by_cases lt : limit < 3
    · exact .inr ⟨lt, [], op, front, rfl, by simp [Below], below⟩
    · exact .inl (Below.operator_iff.2 ⟨Nat.not_lt.1 lt, below.mono (by omega)⟩)
  isTail := h.isTail
  released c hc d hd := by
    rcases List.mem_cons.1 hd with eq | hd
    · cases eq
      exact stop c hc
    · exact h.released c hc d hd

theorem call {arguments : List Expr} {depth : Nat}
    (h : Front limit front m (.operator (.call arguments depth) :: rest))
    (le : callLevel ≤ limit) :
    Front limit (front ++ [.operator (.call arguments depth)]) (m.call arguments depth) rest
    where
  isRun := h.isRun.append trivial
  resolves := resolve_call h.isRun (h.released _ rfl) h.resolves
  within := h.within.append (.operator le)
  isTail := h.isTail
  released c hc d hd := by
    have positive := c.level_pos
    rcases List.mem_append.1 hd with hd | hd
    · have : d.reach < callLevel := h.released _ rfl d hd
      simp only [callLevel] at this
      omega
    · cases List.mem_singleton.1 hd
      exact positive

theorem binary {op : BinaryOp} (hl : Front limit front a (.operator (.binary op) :: mid ++ rest))
    (le : op.level ≤ limit) (hr : Front (Connective.binary op).reach mid b rest)
    (stop : ∀ c, rest.head? = some (.operator c) → (Connective.binary op).reach < c.level) :
    Front limit (front ++ .operator (.binary op) :: mid) (.binary op a b) rest where
  isRun := hl.isRun.append hr.isRun
  resolves := resolve_within hl.isRun hr.isRun (hl.released _ rfl) hr.within hl.resolves
    hr.resolves
  within := by
    have reach := (Connective.binary op).reach_le
    have tail := hr.within.mono (Nat.le_trans reach le)
    exact hl.within.append (Within.append (l := [_]) (.operator le) tail)
  isTail := hr.isTail
  released c hc d hd := by
    have level := (Connective.binary op).level_le_reach
    have stop := stop c hc
    rcases List.mem_append.1 hd with hd | hd
    · have : d.reach < (Connective.binary op).level := hl.released _ rfl d hd
      omega
    · rcases List.mem_cons.1 hd with eq | hd
      · cases eq
        exact stop
      · exact hr.released c hc d hd

end Front

mutual

theorem climbs_front (limit : Nat) {es : List Element} (h : IsRun es) :
    ∃ m front rest, Climbs limit es m rest ∧ es = front ++ rest ∧ Front limit front m rest ∧
      ∀ c, rest.head? = some (.operator c) → limit < c.level := by
  match es, h with
  | .operand m :: es, h =>
    obtain ⟨t, mid, rest, ht, rfl, front, stop⟩ := extends_front limit (Front.operand h)
    exact ⟨t, .operand m :: mid, rest, .operand ht, rfl, front, stop⟩
  | .operator (.unary op) :: es, h =>
    obtain ⟨a, argument, es', ha, eq, front, stop⟩ :=
      climbs_front (Connective.unary op).reach (show IsRun es from h)
    obtain ⟨t, mid, rest, ht, rfl, front, stop⟩ :=
      extends_front limit (front.unary stop)
    refine ⟨t, .operator (.unary op) :: argument ++ mid, rest, .unary ha ht, ?_, front, stop⟩
    simp [eq]
termination_by es.length
decreasing_by
  · simp
  · simp
  · have length := congrArg List.length eq
    simp only [List.length_cons, List.length_append] at length ⊢
    omega

theorem extends_front (limit : Nat) {front es : List Element} {left : Measured}
    (h : Front limit front left es) :
    ∃ m mid rest, Extends limit left es m rest ∧ es = mid ++ rest ∧
      Front limit (front ++ mid) m rest ∧
      ∀ c, rest.head? = some (.operator c) → limit < c.level := by
  match es, h with
  | [], h => exact ⟨left, [], [], .stop (by simp), rfl, by simpa using h, by simp⟩
  | .operator c :: es, h =>
    by_cases le : c.level ≤ limit
    · cases c with
      | unary op => exact h.isTail.elim
      | call arguments depth =>
        obtain ⟨t, mid, rest, ht, rfl, front, stop⟩ := extends_front limit (h.call le)
        exact ⟨t, .operator (.call arguments depth) :: mid, rest, .call le ht, rfl,
          by simpa using front, stop⟩
      | binary op =>
        obtain ⟨b, right, es', hb, eq, inner, stop⟩ :=
          climbs_front (Connective.binary op).reach (show IsRun es from h.isTail)
        obtain ⟨t, mid, rest, ht, rest_eq, front, stop⟩ :=
          extends_front limit ((eq ▸ h).binary le inner stop)
        refine ⟨t, .operator (.binary op) :: right ++ mid, rest, .binary le hb ht, ?_, ?_, stop⟩
        · simp [eq, rest_eq]
        · simpa using front
    · have loose : ∀ d, (Element.operator c :: es).head? = some (.operator d) →
          limit < d.level := by
        rintro d ⟨⟩
        exact Nat.not_le.1 le
      exact ⟨left, [], .operator c :: es, .stop loose, rfl, by simpa using h, loose⟩
termination_by es.length
decreasing_by
  · simp
  · have length := congrArg List.length eq
    simp only [List.length_cons, List.length_append] at length ⊢
    omega
  · simp

end

/-- A run of this shape is climbed to the end, and resolves to the tree that climbing gives. -/
theorem climbAll_eq_resolve {run : List Element} (h : IsRun run) :
    ∃ m, climbAll run = some m ∧ resolve run = .ok m := by
  obtain ⟨m, front, rest, ⟨c, hc, rfl, rfl⟩, eq, hfront, stop⟩ := climbs_front 14 h
  have all : c.rest = [] := by
    match hr : c.rest, hfront.isTail with
    | [], _ => rfl
    | .operator d :: _, _ =>
      rw [hr] at stop
      have := stop d rfl
      have := d.level_le
      omega
  rw [all, List.append_nil] at eq
  exact ⟨c.tree, by simp [climbAll, hc, all], eq ▸ hfront.resolves⟩

theorem climbAll_eq_some_iff {run : List Element} (h : IsRun run) {m : Measured} :
    climbAll run = some m ↔ resolve run = .ok m := by
  obtain ⟨t, climbs, resolves⟩ := climbAll_eq_resolve h
  rw [climbs, resolves, Option.some.injEq, Except.ok.injEq]

/-- Whatever the operators, a chain of factors resolves to the tree that climbing gives. If
its parts come with their depths, so does the tree. -/
theorem resolve_chain (first : Factor) (rest : List (BinaryOp × Factor)) :
    ∃ m, climbAll (chain first rest) = some m ∧ resolve (chain first rest) = .ok m ∧
      ((∀ e ∈ chain first rest, e.Exact) → m.depth = m.expr.depth) := by
  have run := isRun_chain first rest
  obtain ⟨m, climbs, resolves⟩ := climbAll_eq_resolve run
  exact ⟨m, climbs, resolves, fun exact => resolve_exact run exact resolves⟩

/-- The argument of the sign in `a ^ -b ^ c * d` is `b ^ c`. Of two equal operators, the second is
the right operand of the first for powers and assignments, and not for differences. -/
theorem resolve_chain_sides :
    let leaf (name : String) : Expr := .ident ⟨name, .none⟩
    let factor (prefixes : List UnaryOp) (name : String) : Factor := ⟨prefixes, .of (leaf name), []⟩
    let signed := chain (factor [] "a")
      [(.power, factor [.negate] "b"), (.power, factor [] "c"), (.multiply, factor [] "d")]
    let pair (op : BinaryOp) := chain (factor [] "a") [(op, factor [] "b"), (op, factor [] "c")]
    let right (op : BinaryOp) := Expr.binary op (leaf "a") (.binary op (leaf "b") (leaf "c"))
    ((∀ e ∈ signed, e.Exact) ∧ ∀ op, ∀ e ∈ pair op, e.Exact) ∧
      resolve signed = .ok (.of (.binary .multiply (.binary .power (leaf "a")
        (.unary .negate (.binary .power (leaf "b") (leaf "c")))) (leaf "d"))) ∧
      resolve (pair .power) = .ok (.of (right .power)) ∧
      resolve (pair .assign) = .ok (.of (right .assign)) ∧
      resolve (pair .subtract) =
        .ok (.of (.binary .subtract (.binary .subtract (leaf "a") (leaf "b")) (leaf "c"))) := by
  intro leaf factor signed pair right
  have exact : ∀ e ∈ signed, e.Exact := by
    simp [signed, factor, chain, Factor.elements, Element.Exact, Element.Holds, Measured.of_exact]
  have exact' (op : BinaryOp) : ∀ e ∈ pair op, e.Exact := by
    simp [pair, factor, chain, Factor.elements, Element.Exact, Element.Holds, Measured.of_exact]
  have grouped (first : Factor) (rest : List (BinaryOp × Factor)) (e : Expr)
      (exact : ∀ e ∈ chain first rest, e.Exact)
      (tree : (climbAll (chain first rest)).map (·.expr) = some e) :
      resolve (chain first rest) = .ok (.of e) := by
    obtain ⟨m, climbs, resolves, depth⟩ := resolve_chain first rest
    rw [climbs, Option.map_some, Option.some.injEq] at tree
    rw [resolves, Measured.eq_of (depth exact), tree]
  refine ⟨⟨exact, exact'⟩, grouped _ _ _ exact ?_, grouped _ _ _ (exact' _) ?_,
    grouped _ _ _ (exact' _) ?_, grouped _ _ _ (exact' _) ?_⟩
  all_goals cbv

end Offside.Expr
