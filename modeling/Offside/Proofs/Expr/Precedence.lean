import Offside.Proofs.Expr.Run

/-!
How far operators reach. An operator takes into its right operand whatever follows and binds
tightly enough, a prefix operator all that is tighter than itself. What resolution makes of
two neighbouring stretches of a run follows from how far the operators of the first one reach
and how loose those of the second one are.
-/

namespace Offside.Expr

namespace Connective

/-- The loosest operators that an operator takes into its right operand. -/
def reach (c : Connective) : Nat :=
  if c.rightToLeft then c.level else c.level - 1

theorem level_pos (c : Connective) : 0 < c.level := by
  cases c with
  | unary op => simp [level, UnaryOp.level]
  | binary op => cases op <;> simp [level, BinaryOp.level]
  | call => simp [level, callLevel]

theorem level_le (c : Connective) : c.level ≤ 14 := by
  cases c with
  | unary op => simp [level, UnaryOp.level]
  | binary op => cases op <;> simp [level, BinaryOp.level]
  | call => simp [level, callLevel]

theorem level_of_rightToLeft {c : Connective} (h : c.rightToLeft = true) :
    c.level = 2 ∨ c.level = 14 := by
  cases c with
  | unary op => simp [rightToLeft] at h
  | binary op => exact BinaryOp.level_of_rightToLeft h
  | call => simp [rightToLeft] at h

theorem eq_unary_of_level {c : Connective} (h : c.level = 3) : ∃ op, c = unary op := by
  cases c with
  | unary op => exact ⟨op, rfl⟩
  | binary op => cases op <;> simp [level, BinaryOp.level] at h
  | call => simp [level, callLevel] at h

theorem reach_le (c : Connective) : c.reach ≤ c.level := by
  unfold reach
  split <;> omega

theorem level_le_reach (c : Connective) : c.level ≤ c.reach + 1 := by
  unfold reach
  split <;> omega

theorem reach_lt_three {c : Connective} (h : c.level ≤ 3) : c.reach < 3 := by
  unfold reach
  split
  · next right =>
    have := level_of_rightToLeft right
    omega
  · omega

theorem displaces_iff {c d : Connective} : c.displaces d = true ↔
    d.level < c.level ∨ c.level = d.level ∧ c.rightToLeft = true := by
  simp [displaces]

theorem displaces_of_reach_lt {c d : Connective} (h : d.reach < c.level) :
    d.displaces c = false := by
  rw [Bool.eq_false_iff, Ne, displaces_iff]
  unfold reach at h
  split at h
  · omega
  · next left => exact fun wins => wins.elim (by omega) fun tie => left tie.2

theorem displaces_of_le_reach {c d : Connective} (h : d.level ≤ c.reach) :
    c.displaces d = true := by
  have positive := d.level_pos
  rw [displaces_iff]
  unfold reach at h
  split at h
  · next right => exact (Nat.lt_or_eq_of_le h).imp_right fun tie => ⟨tie.symm, right⟩
  · exact .inl (by omega)

end Connective

def Below (n : Nat) (es : List Element) : Prop :=
  ∀ c, .operator c ∈ es → c.level ≤ n

namespace Below

variable {n m : Nat} {l r : List Element}

theorem mono (h : Below n l) (le : n ≤ m) : Below m l :=
  fun c hc => Nat.le_trans (h c hc) le

theorem append_iff : Below n (l ++ r) ↔ Below n l ∧ Below n r := by
  simp only [Below, List.mem_append, or_imp, forall_and]

theorem operator_iff {c : Connective} :
    Below n (.operator c :: l) ↔ c.level ≤ n ∧ Below n l := by
  simp [Below, or_imp, forall_and]

theorem operand_iff {t : Measured} : Below n (.operand t :: l) ↔ Below n l := by
  simp [Below]

end Below

/-- Does no operator reach over one of level `n`? -/
def Released (n : Nat) (es : List Element) : Prop :=
  ∀ c, .operator c ∈ es → c.reach < n

theorem Below.released {l : List Element} (h : Below 3 l) : Released 3 l := by
  exact fun c hc => Connective.reach_lt_three (h c hc)

theorem split_of_reach {l r : List Element} {c : Connective} (left : Released c.level l)
    (right : Below c.reach r) : split (l ++ .operator c :: r) = some ⟨l, c, r⟩ := by
  induction l with
  | nil =>
    rw [List.nil_append, split]
    split
    · rfl
    · next s hs =>
      have root : .operator s.root ∈ r := by rw [split_eq hs]; simp
      rw [if_pos (Connective.displaces_of_le_reach (right _ root))]
  | cons e l ih =>
    have cut := ih fun d hd => left d (List.mem_cons_of_mem e hd)
    cases e with
    | operand m => rw [List.cons_append, split, cut]; rfl
    | operator d =>
      have stays := Connective.displaces_of_reach_lt (left d List.mem_cons_self)
      rw [List.cons_append, split, cut]
      simp only [stays, Bool.false_eq_true, if_false]

section Resolution

variable {l r : List Element}

theorem resolve_call {arguments : List Expr} {depth : Nat} {c : Measured} (hl : IsRun l)
    (left : Released callLevel l) (hc : resolve l = .ok c) :
    resolve (l ++ [.operator (.call arguments depth)]) = .ok (c.call arguments depth) := by
  have cut : split (l ++ [.operator (.call arguments depth)]) =
      some ⟨l, .call arguments depth, []⟩ := split_of_reach left (by simp [Below])
  rw [resolve_split_call cut hl.ne_nil, hc]
  exact resolve_operand _

theorem resolve_binary {op : BinaryOp} {a b : Measured} (hl : IsRun l) (hr : IsRun r)
    (left : Released op.level l) (right : Below (Connective.binary op).reach r)
    (ha : resolve l = .ok a) (hb : resolve r = .ok b) :
    resolve (l ++ .operator (.binary op) :: r) = .ok (.binary op a b) := by
  have cut : split (l ++ .operator (.binary op) :: r) = some ⟨l, .binary op, r⟩ :=
    split_of_reach left right
  rw [resolve_split_binary cut hl.ne_nil hr.ne_nil, ha, hb]
  rfl

theorem resolve_last_unary (op : UnaryOp) {a : Measured} (hr : IsRun r) (left : Below 3 l)
    (right : Below 2 r) (ha : resolve r = .ok a) :
    resolve (l ++ .operator (.unary op) :: r) = resolve (l ++ [.operand (.unary op a)]) := by
  have cut : split (l ++ .operator (.unary op) :: r) = some ⟨l, .unary op, r⟩ :=
    split_of_reach left.released right
  rw [resolve_split_unary cut hr.ne_nil, ha]
  rfl

theorem last_unary_cases {es : List Element} (h : Below 3 es) : Below 2 es ∨
    ∃ l op r, es = l ++ .operator (.unary op) :: r ∧ Below 2 r := by
  induction es with
  | nil => exact .inl (by simp [Below])
  | cons e es ih =>
    rcases ih fun c hc => h c (List.mem_cons_of_mem e hc) with tight | ⟨l, op, r, rfl, tight⟩
    · cases e with
      | operand m => exact .inl (Below.operand_iff.2 tight)
      | operator c =>
        have level := (Below.operator_iff.1 h).1
        rcases Nat.lt_or_eq_of_le level with lt | eq
        · exact .inl (Below.operator_iff.2 ⟨by omega, tight⟩)
        · obtain ⟨op, rfl⟩ := Connective.eq_unary_of_level eq
          exact .inr ⟨[], op, es, rfl, tight⟩
    · exact .inr ⟨e :: l, op, r, rfl, tight⟩

/-- A prefix operator with an argument in which nothing is looser than it is resolved on its
own, even if other prefix operators in the argument come first. -/
theorem resolve_unary {op : UnaryOp} {a : Measured}
    (h : IsRun (l ++ .operator (.unary op) :: r)) (left : Below 3 l) (right : Below 3 r)
    (ha : resolve r = .ok a) :
    resolve (l ++ .operator (.unary op) :: r) = resolve (l ++ [.operand (.unary op a)]) := by
  induction hn : r.length using Nat.strongRecOn generalizing r with
  | ind n ih =>
    have hr := h.cut_unary.1
    rcases last_unary_cases right with tight | ⟨front, last, argument, rfl, tight⟩
    · exact resolve_last_unary op hr left tight ha
    · obtain ⟨hfront, hargument⟩ := Below.append_iff.1 right
      have hb := hr.cut_unary.1
      obtain ⟨b, hb'⟩ := resolve_total hb
      have inner := resolve_last_unary last hb hfront tight hb'
      have before : Below 3 (l ++ .operator (.unary op) :: front) :=
        Below.append_iff.2 ⟨left, Below.operator_iff.2 ⟨Nat.le_refl _, hfront⟩⟩
      have outer := resolve_last_unary last hb before tight hb'
      rw [List.append_assoc, List.cons_append] at outer
      rw [outer, List.append_assoc, List.cons_append]
      rw [List.append_cons, ← List.append_assoc] at h
      have shorter : (front ++ [Element.operand (.unary last b)]).length < n := by
        have := List.length_pos_iff.2 hb.ne_nil
        rw [← hn]
        simp only [List.length_append, List.length_cons, List.length_nil]
        omega
      refine ih _ shorter ?_ ?_ (inner ▸ ha) rfl
      · simpa using h.cut_unary.2 (.unary last b)
      · exact Below.append_iff.2 ⟨hfront, Below.operand_iff.2 (by simp [Below])⟩

end Resolution

end Offside.Expr
