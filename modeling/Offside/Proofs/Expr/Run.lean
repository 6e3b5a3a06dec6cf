import Offside.Expr.Resolve
import Offside.Result

/-!
Runs as statements make them: prefix operators, an operand and calls, again and again with
a binary operator between. Resolution cuts such a run into such runs, so it finds a tree
for every one of them.
-/

namespace Offside.Expr

mutual

/-- A run from a place where an operand is awaited. -/
def IsRun : List Element → Prop
  | .operand _ :: es => IsTail es
  | .operator (.unary _) :: es => IsRun es
  | _ => False

def IsTail : List Element → Prop
  | [] => True
  | .operator (.call ..) :: es => IsTail es
  | .operator (.binary _) :: es => IsRun es
  | _ => False

end

@[simp] theorem isRun_nil : ¬ IsRun [] := id

theorem IsRun.ne_nil {es : List Element} (h : IsRun es) : es ≠ [] := by
  rintro rfl
  exact h

/-- Where a run is cut, an operand is awaited or has been read, and what comes next may be
replaced by anything that may stand in its place. -/
theorem place_of_cut (l r : List Element) :
    (IsRun (l ++ r) → (IsRun r ∧ ∀ es, IsRun es → IsRun (l ++ es)) ∨
      (IsTail r ∧ ∀ es, IsTail es → IsRun (l ++ es))) ∧
    (IsTail (l ++ r) → (IsRun r ∧ ∀ es, IsRun es → IsTail (l ++ es)) ∨
      (IsTail r ∧ ∀ es, IsTail es → IsTail (l ++ es))) := by
  induction l with
  | nil => exact ⟨fun h => .inl ⟨h, fun _ => id⟩, fun h => .inr ⟨h, fun _ => id⟩⟩
  | cons e l ih =>
    cases e with
    | operand m => exact ⟨ih.2, fun h => h.elim⟩
    | operator c =>
      cases c with
      | unary op => exact ⟨ih.1, fun h => h.elim⟩
      | binary op => exact ⟨fun h => h.elim, ih.1⟩
      | call arguments depth => exact ⟨fun h => h.elim, ih.2⟩

namespace IsRun

variable {l r : List Element}

theorem append (h : IsRun l) {tail : List Element} (ht : IsTail tail) : IsRun (l ++ tail) := by
  have cut := (place_of_cut l []).1 (by simpa using h)
  simp only [isRun_nil, false_and, false_or] at cut
  exact cut.2 tail ht

theorem cut_unary {op : UnaryOp} (h : IsRun (l ++ .operator (.unary op) :: r)) :
    IsRun r ∧ ∀ m, IsRun (l ++ [.operand m]) := by
  rcases (place_of_cut l _).1 h with ⟨hr, hl⟩ | ⟨hr, _⟩
  · exact ⟨hr, fun m => hl [.operand m] trivial⟩
  · exact hr.elim

theorem cut_binary {op : BinaryOp} (h : IsRun (l ++ .operator (.binary op) :: r)) :
    IsRun l ∧ IsRun r := by
  rcases (place_of_cut l _).1 h with ⟨hr, _⟩ | ⟨hr, hl⟩
  · exact hr.elim
  · exact ⟨by simpa using hl [] trivial, hr⟩

theorem cut_call {arguments : List Expr} {depth : Nat}
    (h : IsRun (l ++ .operator (.call arguments depth) :: r)) : IsRun l ∧ IsTail r := by
  rcases (place_of_cut l _).1 h with ⟨hr, _⟩ | ⟨hr, hl⟩
  · exact hr.elim
  · exact ⟨by simpa using hl [] trivial, hr⟩

theorem eq_operand (h : IsRun l) (none : ∀ e ∈ l, e.isOperator = false) :
    ∃ m, l = [.operand m] := by
  match l, h with
  | [.operand m], _ => exact ⟨m, rfl⟩
  | .operand _ :: .operator c :: _, _ => simp [Element.isOperator] at none
  | .operator (.unary _) :: _, _ => simp [Element.isOperator] at none

end IsRun

/-- An operand with the prefix operators before it and the calls behind it. -/
structure Factor where
  prefixes : List UnaryOp := []
  operand : Measured
  calls : List (List Expr × Nat) := []

def Factor.elements (f : Factor) : List Element :=
  f.prefixes.map (fun op => .operator (.unary op)) ++
    .operand f.operand :: f.calls.map fun call => .operator (.call call.1 call.2)

/-- Factors with a binary operator before each but the first. -/
def chain (first : Factor) (rest : List (BinaryOp × Factor)) : List Element :=
  first.elements ++ rest.flatMap fun next => .operator (.binary next.1) :: next.2.elements

theorem isTail_calls {calls : List (List Expr × Nat)} {tail : List Element}
    (h : IsTail tail) :
    IsTail (calls.map (fun call => Element.operator (.call call.1 call.2)) ++ tail) := by
  induction calls with
  | nil => exact h
  | cons call calls ih => exact ih

theorem Factor.isRun (f : Factor) {tail : List Element} (h : IsTail tail) :
    IsRun (f.elements ++ tail) := by
  rw [elements, List.append_assoc, List.cons_append]
  induction f.prefixes with
  | nil => exact isTail_calls h
  | cons op prefixes ih => exact ih

theorem isRun_chain (first : Factor) (rest : List (BinaryOp × Factor)) :
    IsRun (chain first rest) := by
  refine first.isRun ?_
  induction rest with
  | nil => trivial
  | cons next rest ih => exact next.2.isRun ih

section Equations

variable {es l r : List Element}

theorem resolve_split_unary {op : UnaryOp} (h : split es = some ⟨l, .unary op, r⟩)
    (hr : r ≠ []) : resolve es = resolve r >>= fun a =>
      resolve (l ++ [.operand (.unary op a)]) := by
  obtain ⟨e, r, rfl⟩ := List.exists_cons_of_ne_nil hr
  rw [resolve]
  split <;> simp_all

theorem resolve_split_binary {op : BinaryOp} (h : split es = some ⟨l, .binary op, r⟩)
    (hl : l ≠ []) (hr : r ≠ []) : resolve es = resolve l >>= fun a =>
      resolve r >>= fun b => .ok (.binary op a b) := by
  obtain ⟨d, l, rfl⟩ := List.exists_cons_of_ne_nil hl
  obtain ⟨e, r, rfl⟩ := List.exists_cons_of_ne_nil hr
  rw [resolve]
  split <;> simp_all
  rfl

theorem resolve_split_call {arguments : List Expr} {depth : Nat}
    (h : split es = some ⟨l, .call arguments depth, r⟩) (hl : l ≠ []) :
    resolve es = resolve l >>= fun c =>
      resolve (.operand (c.call arguments depth) :: r) := by
  obtain ⟨e, l, rfl⟩ := List.exists_cons_of_ne_nil hl
  rw [resolve]
  split <;> simp_all

theorem resolve_uncut (h : split es = none) (other : ∀ m, es ≠ [.operand m]) :
    resolve es = .error .noRoot := by
  rw [resolve]
  split <;> simp_all

theorem resolve_alone {c : Connective} (h : split es = some ⟨[], c, []⟩) :
    resolve es = .error .noRoot := by
  rw [resolve]
  split <;> simp_all

theorem resolve_split_unary_nil {op : UnaryOp} (h : split es = some ⟨l, .unary op, []⟩)
    (hl : l ≠ []) : resolve es = .error .unaryWithoutArgument := by
  obtain ⟨e, l, rfl⟩ := List.exists_cons_of_ne_nil hl
  rw [resolve]
  split <;> simp_all

theorem resolve_split_binary_right_nil {op : BinaryOp} (h : split es = some ⟨l, .binary op, []⟩)
    (hl : l ≠ []) : resolve es = .error .binaryWithoutArguments := by
  obtain ⟨e, l, rfl⟩ := List.exists_cons_of_ne_nil hl
  rw [resolve]
  split <;> simp_all

theorem resolve_split_binary_left_nil {op : BinaryOp} (h : split es = some ⟨[], .binary op, r⟩)
    (hr : r ≠ []) : resolve es = .error .binaryWithoutArguments := by
  obtain ⟨e, r, rfl⟩ := List.exists_cons_of_ne_nil hr
  rw [resolve]
  split <;> simp_all

theorem resolve_split_call_nil {arguments : List Expr} {depth : Nat}
    (h : split es = some ⟨[], .call arguments depth, r⟩) (hr : r ≠ []) :
    resolve es = .error .callWithoutCallee := by
  obtain ⟨e, r, rfl⟩ := List.exists_cons_of_ne_nil hr
  rw [resolve]
  split <;> simp_all

/-- A run that has a tree is one operand, or is cut into parts that have one: what goes from the
parts to the whole holds of all of them. -/
theorem resolved_induct {P : List Element → Measured → Prop}
    (operand : ∀ m, P [.operand m] m)
    (unary : ∀ es left op right a m, split es = some ⟨left, .unary op, right⟩ → right ≠ [] →
      resolve right = .ok a → P right a → P (left ++ [.operand (.unary op a)]) m → P es m)
    (binary : ∀ es left op right a b, split es = some ⟨left, .binary op, right⟩ → left ≠ [] →
      right ≠ [] → resolve left = .ok a → P left a → P right b → P es (.binary op a b))
    (call : ∀ es left arguments depth right c m,
      split es = some ⟨left, .call arguments depth, right⟩ → left ≠ [] → resolve left = .ok c →
      P left c → P (.operand (c.call arguments depth) :: right) m → P es m)
    {m : Measured} (h : resolve es = .ok m) : P es m := by
  induction es using resolve.induct generalizing m with
  | case1 m' =>
    rw [resolve_operand] at h
    cases h
    exact operand m'
  | case3 es left op r right cut ihr ihl =>
    rw [resolve_split_unary cut (by simp)] at h
    obtain ⟨a, ha, h⟩ := bind_eq_ok.1 h
    exact unary es left op _ a m cut (by simp) ha (ihr ha) (ihl a h)
  | case4 es l left op r right cut ihl ihr =>
    rw [resolve_split_binary cut (by simp) (by simp)] at h
    obtain ⟨a, ha, h⟩ := bind_eq_ok.1 h
    obtain ⟨b, hb, h⟩ := bind_eq_ok.1 h
    cases h
    exact binary es _ op _ a b cut (by simp) (by simp) ha (ihl ha) (ihr hb)
  | case5 es l left arguments depth right cut ihl ihr =>
    rw [resolve_split_call cut (by simp)] at h
    obtain ⟨c, hc, h⟩ := bind_eq_ok.1 h
    exact call es _ arguments depth right c m cut (by simp) hc (ihl hc) (ihr c h)
  | case2 es cut _ other =>
    have none_ : resolve es = .error .noRoot := by
      refine resolve_uncut cut fun m eq => ?_
      subst eq
      exact other m cut rfl HEq.rfl
    cases h.symm.trans none_
  | case6 es c cut => cases h.symm.trans (resolve_alone cut)
  | case7 es l left op cut => cases h.symm.trans (resolve_split_unary_nil cut (by simp))
  | case8 es l left op cut => cases h.symm.trans (resolve_split_binary_right_nil cut (by simp))
  | case9 es op r right cut => cases h.symm.trans (resolve_split_binary_left_nil cut (by simp))
  | case10 es arguments depth r right cut =>
    cases h.symm.trans (resolve_split_call_nil cut (by simp))

end Equations

def Element.Holds (P : Measured → Prop) (Q : List Expr → Nat → Prop) : Element → Prop
  | .operand m => P m
  | .operator (.call arguments depth) => Q arguments depth
  | .operator _ => True

/-- Every run resolves, and to a tree with any property that operands have and operators
pass on. -/
theorem resolve_holds {P : Measured → Prop} {Q : List Expr → Nat → Prop}
    (unary : ∀ op a, P a → P (.unary op a))
    (binary : ∀ op a b, P a → P b → P (.binary op a b))
    (call : ∀ c arguments depth, P c → Q arguments depth → P (c.call arguments depth))
    {run : List Element} (h : IsRun run) (holds : ∀ e ∈ run, e.Holds P Q) :
    ∃ m, resolve run = .ok m ∧ P m := by
  induction run using resolve.induct with
  | case1 m => exact ⟨m, resolve_operand m, holds (.operand m) (by simp)⟩
  | case2 run none _ other =>
    obtain ⟨m, rfl⟩ := h.eq_operand (split_eq_none none)
    exact (other m none rfl HEq.rfl).elim
  | case3 run left op r right cut ihr ihl =>
    rw [split_eq cut] at h holds
    simp only [List.forall_mem_append, List.forall_mem_cons] at holds
    obtain ⟨a, ha, pa⟩ := ihr h.cut_unary.1 (by simpa using holds.2.2)
    obtain ⟨t, ht, pt⟩ := ihl a (h.cut_unary.2 _) (by
      simpa [or_imp, forall_and] using ⟨holds.1, unary op a pa⟩)
    exact ⟨t, by rw [resolve_split_unary cut (by simp), ha]; exact ht, pt⟩
  | case4 run l left op r right cut ihl ihr =>
    rw [split_eq cut] at h holds
    simp only [List.forall_mem_append, List.forall_mem_cons] at holds
    obtain ⟨a, ha, pa⟩ := ihl h.cut_binary.1 (by simpa using holds.1)
    obtain ⟨b, hb, pb⟩ := ihr h.cut_binary.2 (by simpa using holds.2.2)
    refine ⟨.binary op a b, ?_, binary op a b pa pb⟩
    rw [resolve_split_binary cut (by simp) (by simp), ha, hb]
    rfl
  | case5 run l left arguments depth right cut ihl ihr =>
    rw [split_eq cut] at h holds
    simp only [List.forall_mem_append, List.forall_mem_cons] at holds
    obtain ⟨c, hc, pc⟩ := ihl h.cut_call.1 (by simpa using holds.1)
    obtain ⟨t, ht, pt⟩ := ihr c h.cut_call.2 (by
      simpa using ⟨call c _ _ pc holds.2.1, holds.2.2⟩)
    exact ⟨t, by rw [resolve_split_call cut (by simp), hc]; exact ht, pt⟩
  | case6 run c cut =>
    rw [split_eq cut] at h
    cases c <;> exact False.elim h
  | case7 run l left op cut =>
    rw [split_eq cut] at h
    exact h.cut_unary.1.elim
  | case8 run l left op cut =>
    rw [split_eq cut] at h
    exact h.cut_binary.2.elim
  | case9 run op r right cut =>
    rw [split_eq cut] at h
    exact h.cut_binary.1.elim
  | case10 run arguments depth r right cut =>
    rw [split_eq cut] at h
    exact h.cut_call.1.elim

theorem resolve_total {run : List Element} (h : IsRun run) : ∃ m, resolve run = .ok m := by
  obtain ⟨m, hm, _⟩ := resolve_holds (P := fun _ => True) (Q := fun _ _ => True)
    (fun _ _ _ => trivial) (fun _ _ _ _ _ => trivial) (fun _ _ _ _ _ => trivial) h
    (fun e _ => by unfold Element.Holds; split <;> trivial)
  exact ⟨m, hm⟩

end Offside.Expr
