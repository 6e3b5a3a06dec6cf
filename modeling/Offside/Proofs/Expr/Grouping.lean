import Offside.Proofs.Expr.Bracketed
import Offside.Proofs.Expr.Nested
import Offside.Proofs.Expr.Replace

/-!
A statement in brackets in the place of an operand. The brackets keep what is inside from
everything around, so that the tree is the one that there was, with the tree of the statement in
the place of the leaf. Behind a complete operand the brackets would be a call, and there no operand
is replaced. Only the limit can be in the way: under a higher one the line is a statement again.
-/

namespace Offside.Expr

variable {s : Setting} {level d : Nat} {ws vs us : List Lexeme} {e t : Expr} {k i : Nat}
  {l x o c : Lexeme}

def operandCount (ws : List Lexeme) : Nat :=
  ws.countP (·.kind.isOperand)

theorem operandCount_append (ws vs : List Lexeme) :
    operandCount (ws ++ vs) = operandCount ws + operandCount vs :=
  List.countP_append

theorem operandCount_operand (operand : l.kind.isOperand = true) (ws : List Lexeme) :
    operandCount (l :: ws) = operandCount ws + 1 :=
  List.countP_cons_of_pos operand

theorem operandCount_other (other : l.kind.isOperand = false) (ws : List Lexeme) :
    operandCount (l :: ws) = operandCount ws :=
  List.countP_cons_of_neg (by simp [other])

/-- The lexemes with `us` in the place of the operand number `k`; the first operand has the number
`i`. -/
def replaceOperand (k : Nat) (us : List Lexeme) (i : Nat) : List Lexeme → List Lexeme
  | [] => []
  | l :: ws =>
    if l.kind.isOperand then (if i = k then us else [l]) ++ replaceOperand k us (i + 1) ws
    else l :: replaceOperand k us i ws

section Lexemes

theorem replaceOperand_operand (operand : l.kind.isOperand = true) (ws : List Lexeme) :
    replaceOperand k us i (l :: ws) =
      (if i = k then us else [l]) ++ replaceOperand k us (i + 1) ws :=
  if_pos operand

theorem replaceOperand_other (other : l.kind.isOperand = false) (ws : List Lexeme) :
    replaceOperand k us i (l :: ws) = l :: replaceOperand k us i ws := by
  rw [replaceOperand, other]
  rfl

theorem replaceOperand_append (i : Nat) (ws vs : List Lexeme) :
    replaceOperand k us i (ws ++ vs) =
      replaceOperand k us i ws ++ replaceOperand k us (i + operandCount ws) vs := by
  induction ws generalizing i with
  | nil => rfl
  | cons l ws ih =>
    rw [List.cons_append]
    cases operand : l.kind.isOperand with
    | true =>
      rw [replaceOperand_operand operand, replaceOperand_operand operand, ih,
        operandCount_operand operand, List.append_assoc, Nat.add_right_comm, Nat.add_assoc]
    | false =>
      rw [replaceOperand_other operand, replaceOperand_other operand, ih,
        operandCount_other operand, List.cons_append]

theorem replaceOperand_eq_self (out : k < i ∨ i + operandCount ws ≤ k) :
    replaceOperand k us i ws = ws := by
  induction ws generalizing i with
  | nil => rfl
  | cons l ws ih =>
    cases operand : l.kind.isOperand with
    | true =>
      rw [operandCount_operand operand] at out
      rw [replaceOperand_operand operand, if_neg (by omega), ih (by omega), List.singleton_append]
    | false =>
      rw [operandCount_other operand] at out
      rw [replaceOperand_other operand, ih out]

theorem replaceOperand_at (operand : x.kind.isOperand = true) (front back us : List Lexeme) :
    replaceOperand (operandCount front) us 0 (front ++ x :: back) = front ++ us ++ back := by
  rw [replaceOperand_append, replaceOperand_eq_self (.inr (by omega)),
    replaceOperand_operand operand, if_pos (Nat.zero_add _),
    replaceOperand_eq_self (.inl (by omega)), List.append_assoc]

theorem isOperand_of_sign {op : UnaryOp} (sign : l.kind.sign? = some op) :
    l.kind.isOperand = false := by
  cases kind : l.kind <;> rw [kind] at sign <;> first | rfl | cases sign

theorem endsOperand_of_isOperand (operand : l.kind.isOperand = true) :
    l.kind.endsOperand = true := by
  cases kind : l.kind <;> rw [kind] at operand <;> first | rfl | cases operand

end Lexemes

/-- The operand number `k` does not stand right behind a complete operand. -/
def Apart (k i : Nat) (ws : List Lexeme) : Prop :=
  ∀ front l x back, ws = front ++ l :: x :: back → l.kind.endsOperand = true →
    x.kind.isOperand = true → i + operandCount (front ++ [l]) ≠ k

namespace Apart

theorem left (h : Apart k i (ws ++ vs)) : Apart k i ws :=
  fun front l x back eq => h front l x (back ++ vs) (by rw [eq]; simp)

theorem right (h : Apart k i (ws ++ vs)) : Apart k (i + operandCount ws) vs := by
  intro front l x back eq ends operand
  have whole := h (ws ++ front) l x back (by rw [eq, List.append_assoc]) ends operand
  rwa [List.append_assoc, operandCount_append, ← Nat.add_assoc] at whole

theorem tail (h : Apart k i (l :: ws)) (other : l.kind.isOperand = false) : Apart k i ws := by
  have rest : Apart k (i + operandCount [l]) ws := right h
  rwa [operandCount_other other] at rest

theorem inside (h : Apart k i (o :: ws ++ [c])) (other : o.kind.isOperand = false) :
    Apart k i ws :=
  h.left.tail other

end Apart

theorem eq_of_operandCount {front front' back back' : List Lexeme} {x' : Lexeme}
    (eq : front ++ x :: back = front' ++ x' :: back') (operand : x.kind.isOperand = true)
    (operand' : x'.kind.isOperand = true) (same : operandCount front = operandCount front') :
    front = front' := by
  induction front generalizing front' with
  | nil =>
    cases front' with
    | nil => rfl
    | cons l front' =>
      obtain ⟨rfl, -⟩ := List.cons.inj eq
      rw [operandCount_operand operand] at same
      cases same
  | cons l front ih =>
    cases front' with
    | nil =>
      obtain ⟨rfl, -⟩ := List.cons.inj eq
      rw [operandCount_operand operand'] at same
      cases same
    | cons l' front' =>
      obtain ⟨rfl, rest⟩ := List.cons.inj eq
      have behind : operandCount front = operandCount front' := by
        rwa [← List.singleton_append, ← List.singleton_append (l := front'), operandCount_append,
          operandCount_append, Nat.add_left_cancel_iff] at same
      rw [ih rest behind]

theorem apart_of_free {front back : List Lexeme} (operand : x.kind.isOperand = true)
    (free : ∀ l ∈ front.getLast?, l.kind.endsOperand = false) :
    Apart (operandCount front) 0 (front ++ x :: back) := by
  intro front' l x' back' eq ends operand' same
  rw [Nat.zero_add] at same
  have front_eq := eq_of_operandCount (eq.trans (List.append_cons front' l _)) operand operand'
    same.symm
  have last := free l (by simp [front_eq])
  rw [ends] at last
  cases last

namespace Phrase

def leaves : Phrase → List Lexeme
  | primary e | statement e => e.leaves
  | call es | statements es | list es => leavesOf es
  | applied run | unit run | chain run => run.flatMap Element.leaves

def replaceLeaf (k : Nat) (t : Expr) (i : Nat) : Phrase → Phrase
  | primary e => primary (Expr.replaceLeaf k t i e)
  | call es => call (replaceLeaves k t i es)
  | applied run => applied (replaceInRun k t i run)
  | unit run => unit (replaceInRun k t i run)
  | chain run => chain (replaceInRun k t i run)
  | statement e => statement (Expr.replaceLeaf k t i e)
  | statements es => statements (replaceLeaves k t i es)
  | list es => list (replaceLeaves k t i es)

end Phrase

namespace Derives

variable {p : Phrase}

theorem leaves (h : Derives s level p ws) :
    p.leaves = (ws.filter (·.kind.isOperand)).map Lexeme.bare := by
  induction h with
  | name kind payload _ | literal kind payload =>
    simp [Phrase.leaves, Expr.leaves, kind, Lexeme.bare_of_operand kind payload, Payload.lexeme]
  | group ho hc _ _ ih | call ho hc _ _ ih =>
    simpa [Phrase.leaves, ho, hc, Kind.isOperand] using ih
  | array ho hc _ _ ih =>
    simpa [Phrase.leaves, Expr.leaves, ho, hc, Kind.isOperand] using ih
  | uncalled _ ih => simpa [Phrase.leaves, Element.leaves, Measured.of] using ih
  | called _ _ ihl ihr =>
    simp only [Phrase.leaves] at ihl ihr ⊢
    simp [Element.leaves, ihl, ihr]
  | unsigned _ ih | alone _ ih | nonempty _ ih => exact ih
  | signed sign _ ih =>
    simpa [Phrase.leaves, Element.leaves, isOperand_of_sign sign] using ih
  | joined _ op _ ihl ihr =>
    simp only [Phrase.leaves] at ihl ihr ⊢
    simp [Element.leaves, ihl, ihr, op, Kind.isOperand]
  | statement chain _ climbs _ ih =>
    have resolves := (climbAll_eq_some_iff (chain.run_wellFormed rfl).1).1 climbs
    exact (resolve_leaves resolves).trans ih
  | single _ ih => simpa [Phrase.leaves, leavesOf] using ih
  | comma _ comma _ ihl ihr =>
    simp only [Phrase.leaves, leavesOf_eq_flatMap] at ihl ihr ⊢
    simp [ihl, ihr, comma, Kind.isOperand]
  | adjacent _ _ _ ihl ihr =>
    simp only [Phrase.leaves, leavesOf_eq_flatMap] at ihl ihr ⊢
    simp [ihl, ihr]
  | empty => rfl

theorem length_leaves (h : Derives s level p ws) : p.leaves.length = operandCount ws := by
  rw [h.leaves, List.length_map, operandCount, List.countP_eq_length_filter]

theorem ends (h : Derives s level p ws) (some_ : p ≠ .list []) :
    ∃ front l, ws = front ++ [l] ∧ l.kind.endsOperand = true := by
  induction h with
  | @name _ l _ kind _ _ | @literal _ l _ kind _ =>
    exact ⟨[], l, rfl, endsOperand_of_isOperand kind⟩
  | group _ hc _ _ _ | array _ hc _ _ _ | call _ hc _ _ _ => exact ⟨_, _, rfl, by rw [hc]; rfl⟩
  | uncalled _ ih | unsigned _ ih | alone _ ih | statement _ _ _ _ ih | single _ ih
  | nonempty _ ih => exact ih (by simp)
  | @signed _ l _ _ _ _ _ ih =>
    obtain ⟨front, last, rfl, ends⟩ := ih (by simp)
    exact ⟨l :: front, last, rfl, ends⟩
  | @called _ _ _ ws _ _ _ _ ih | @adjacent _ _ _ ws _ _ _ _ _ ih =>
    obtain ⟨front, last, rfl, ends⟩ := ih (by simp)
    exact ⟨ws ++ front, last, (List.append_assoc ..).symm, ends⟩
  | @joined _ l _ _ ws _ _ _ _ _ _ ih | @comma _ l _ _ ws _ _ _ _ _ ih =>
    obtain ⟨front, last, rfl, ends⟩ := ih (by simp)
    exact ⟨ws ++ l :: front, last, by simp, ends⟩
  | empty => exact absurd rfl some_

end Derives

theorem opensStatement_replaceOperand (us : List Lexeme) (opens : opensStatement ws = true)
    (kept : ∀ l rest, ws = l :: rest → l.kind.isOperand = true → i ≠ k) :
    opensStatement (replaceOperand k us i ws) = true := by
  cases ws with
  | nil => cases opens
  | cons l rest =>
    cases operand : l.kind.isOperand with
    | true =>
      rw [replaceOperand_operand operand, if_neg (kept l rest rfl operand)]
      exact opens
    | false =>
      rw [replaceOperand_other operand]
      exact opens

theorem replaceOperand_enclosed (ho : o.kind.isOperand = false) (hc : c.kind.isOperand = false) :
    replaceOperand k us i (o :: ws ++ [c]) = o :: replaceOperand k us i ws ++ [c] := by
  rw [List.cons_append, replaceOperand_other ho, replaceOperand_append, replaceOperand_other hc]
  rfl

/-- On the derivation: a bracketed statement is an operand like any other, only that behind a
statement it begins no other one. -/
theorem Derives.replaceOperand {p : Phrase} (h : Derives s level p ws) (le : level ≤ s.maxDepth)
    (room : s.maxDepth + t.depth ≤ d)
    (primary : ∀ level ≤ s.maxDepth, Derives ⟨d, s.inClass⟩ level (.primary t) us)
    (apart : Apart k i ws) :
    Derives ⟨d, s.inClass⟩ level (p.replaceLeaf k t i) (Expr.replaceOperand k us i ws) := by
  have higher : s.maxDepth ≤ d := Nat.le_trans (Nat.le_add_right ..) room
  have other {l : Lexeme} {kind : Kind} (eq : l.kind = kind) (other : kind.isOperand = false) :
      l.kind.isOperand = false := by rw [eq, other]
  induction h generalizing i with
  | @name level l x kind payload member =>
    rw [replaceOperand_operand kind, Phrase.replaceLeaf, Expr.replaceLeaf]
    split
    · simpa [Expr.replaceOperand] using primary level le
    · exact .name kind payload member
  | @literal level l x kind payload =>
    rw [replaceOperand_operand kind, Phrase.replaceLeaf, Expr.replaceLeaf]
    split
    · simpa [Expr.replaceOperand] using primary level le
    · exact .literal kind payload
  | group ho hc lt _ ih =>
    rw [replaceOperand_enclosed (other ho rfl) (other hc rfl)]
    exact .group ho hc (Nat.lt_of_lt_of_le lt higher) (ih lt (apart.inside (other ho rfl)))
  | array ho hc lt _ ih =>
    rw [replaceOperand_enclosed (other ho rfl) (other hc rfl)]
    exact .array ho hc (Nat.lt_of_lt_of_le lt higher) (ih lt (apart.inside (other ho rfl)))
  | call ho hc lt _ ih =>
    rw [replaceOperand_enclosed (other ho rfl) (other hc rfl)]
    exact .call ho hc (Nat.lt_of_lt_of_le lt higher) (ih lt (apart.inside (other ho rfl)))
  | uncalled _ ih => exact .uncalled (ih le apart)
  | called hl _ ihl ihr =>
    rw [replaceOperand_append, Phrase.replaceLeaf, replaceInRun_append, ← hl.length_leaves]
    exact .called (ihl le apart.left) (ihr le (hl.length_leaves ▸ apart.right))
  | unsigned _ ih => exact .unsigned (ih le apart)
  | signed sign _ ih =>
    have operator := isOperand_of_sign sign
    rw [replaceOperand_other operator]
    exact .signed sign (ih le (apart.tail operator))
  | alone _ ih => exact .alone (ih le apart)
  | joined hl op _ ihl ihr =>
    rw [replaceOperand_append, replaceOperand_other (other op rfl), Phrase.replaceLeaf,
      replaceInRun_append, ← hl.length_leaves]
    exact .joined (ihl le apart.left) op
      (ihr le (hl.length_leaves ▸ apart.right.tail (other op rfl)))
  | @statement level run m ws chain few climbs deep ih =>
    have resolves := (climbAll_eq_some_iff (chain.run_wellFormed rfl).1).1 climbs
    have inner := depth_replaceLeaf_le k t i m.expr
    refine (ih le apart).statement_of_resolve (resolve_replaceInRun k t i resolves) ?_ ?_
    · rw [countP_replaceInRun]
      exact Nat.le_trans few higher
    · exact Nat.le_trans inner (Nat.le_trans (Nat.add_le_add_right deep _) room)
  | single _ ih => exact .single (ih le apart)
  | comma hs comma _ ihl ihr =>
    rw [replaceOperand_append, replaceOperand_other (other comma rfl), Phrase.replaceLeaf,
      replaceLeaves_append, ← hs.length_leaves]
    exact .comma (ihl le apart.left) comma
      (ihr le (hs.length_leaves ▸ apart.right.tail (other comma rfl)))
  | @adjacent level es e ws vs hs opens _ ihl ihr =>
    have opens' : opensStatement (Expr.replaceOperand k us (i + operandCount ws) vs) = true := by
      refine opensStatement_replaceOperand us opens fun x rest eq operand => ?_
      obtain ⟨front, l, last, ends⟩ := hs.ends (by simp)
      rw [last]
      exact apart front l x rest (by rw [last, eq]; simp) ends operand
    rw [replaceOperand_append, Phrase.replaceLeaf, replaceLeaves_append, ← hs.length_leaves]
    rw [← hs.length_leaves] at opens'
    exact .adjacent (ihl le apart.left) opens' (ihr le (hs.length_leaves ▸ apart.right))
  | empty => exact .empty
  | nonempty _ ih => exact .nonempty (ih le apart)

theorem parseStatement_replaced {front back : List Lexeme} (operand : x.kind.isOperand = true)
    (free : ∀ l ∈ front.getLast?, l.kind.endsOperand = false)
    (ho : o.kind = .openBracket) (hc : c.kind = .closeBracket)
    (whole : parseStatement s (front ++ x :: back) = .ok e) (inner : parseStatement s us = .ok t)
    (room : 2 * s.maxDepth < d) :
    parseStatement ⟨d, s.inClass⟩ (front ++ (o :: us ++ [c]) ++ back) =
      .ok (replaceLeaf (operandCount front) t 0 e) := by
  have derives := derives_of_parseStatement inner
  have depth : t.depth ≤ s.maxDepth := derives.depth_le t (List.mem_singleton_self t)
  have primary : ∀ level ≤ s.maxDepth,
      Derives ⟨d, s.inClass⟩ level (.primary t) (o :: us ++ [c]) := by
    intro level le
    refine .group ho hc (show level < d by omega) ?_
    have inside := derives.nested (n := level + 1) (d := d) (by omega)
    rwa [Nat.zero_add] at inside
  have replaced := (derives_of_parseStatement whole).replaceOperand (Nat.zero_le _) (by omega)
    primary (apart_of_free operand free)
  rw [replaceOperand_at operand] at replaced
  exact parseStatement_of_derives replaced

/-- A statement in brackets may stand for any operand that does not come right behind a complete
one. The tree is then the same but for the leaf of that operand, which is the tree of the statement
in brackets; unless the limit is reached, which is not so if it is more than twice as high. -/
theorem parseStatement_grouped {front back : List Lexeme} (operand : x.kind.isOperand = true)
    (free : ∀ l ∈ front.getLast?, l.kind.endsOperand = false)
    (ho : o.kind = .openBracket) (hc : c.kind = .closeBracket)
    (whole : parseStatement s (front ++ x :: back) = .ok e) (inner : parseStatement s us = .ok t)
    (line : Nat) :
    e.leaves[operandCount front]? = some x.bare ∧
    (parseStatement s (front ++ (o :: us ++ [c]) ++ back) =
        .ok (replaceLeaf (operandCount front) t 0 e) ∨
      Rejected line "Nesting too deep" (parseStatement s (front ++ (o :: us ++ [c]) ++ back))) ∧
    ∀ d, 2 * s.maxDepth < d →
      parseStatement ⟨d, s.inClass⟩ (front ++ (o :: us ++ [c]) ++ back) =
        .ok (replaceLeaf (operandCount front) t 0 e) := by
  have replaced {d : Nat} (room : 2 * s.maxDepth < d) :=
    parseStatement_replaced operand free ho hc whole inner room
  refine ⟨?_, ?_, fun d => replaced⟩
  · have leaves : e.leaves = _ := (derives_of_parseStatement whole).leaves
    rw [leaves, operandCount, List.countP_eq_length_filter]
    simp [operand]
  · have le : s.maxDepth ≤ 2 * s.maxDepth + 1 := by omega
    rcases parseStatement_of_higher le line (front ++ (o :: us ++ [c]) ++ back) with same | stopped
    · exact .inl (same.trans (replaced (Nat.lt_succ_self _)))
    · exact .inr stopped

theorem parseStatement_grouped_argument :
    let a : Lexeme := .ofIdent ⟨"a", .none⟩
    let b : Lexeme := .ofIdent ⟨"b", .none⟩
    let opens : Lexeme := ⟨.openBracket, none⟩
    let closes : Lexeme := ⟨.closeBracket, none⟩
    let front : List Lexeme := [.ofIdent ⟨"x", .none⟩, ⟨.operator .assign, none⟩,
      .ofIdent ⟨"f", .none⟩, opens, a, ⟨.comma, none⟩, ⟨.operator .subtract, none⟩, b,
      ⟨.operator .multiply, none⟩]
    let sum : List Lexeme := [b, ⟨.operator .add, none⟩, .ofLiteral (.int 1)]
    let x : Expr := .ident ⟨"x", .none⟩
    let f : Expr := .ident ⟨"f", .none⟩
    let minus : Expr := .unary .negate (.ident ⟨"b", .none⟩)
    let product (e : Expr) : Expr := .binary .assign x
      (.call f [.ident ⟨"a", .none⟩, .binary .multiply minus e])
    let e' : Expr := .binary .add (.ident ⟨"b", .none⟩) (.literal (.int 1))
    parseStatement ⟨5, false⟩ (front ++ a :: [closes]) = .ok (product (.ident ⟨"a", .none⟩)) ∧
    parseStatement ⟨5, false⟩ sum = .ok e' ∧
    parseStatement ⟨11, false⟩ (front ++ (opens :: sum ++ [closes]) ++ [closes]) =
      .ok (product e') := by
  intro a b opens closes front sum x f minus product e'
  have whole : parseStatement ⟨5, false⟩ (front ++ a :: [closes]) =
      .ok (product (.ident ⟨"a", .none⟩)) := by cbv
  have inner : parseStatement ⟨5, false⟩ sum = .ok e' := by cbv
  have free : ∀ l ∈ front.getLast?, l.kind.endsOperand = false := by
    intro l mem
    cases mem
    rfl
  have grouped := parseStatement_grouped (x := a) (o := opens) (c := closes) rfl free rfl rfl
    whole inner 1
  exact ⟨whole, inner, grouped.2.2 11 (by decide)⟩

end Offside.Expr
