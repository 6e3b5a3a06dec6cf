import Offside.Proofs.Expr.Grammar

/-!
What a tree says when it is read from left to right: its operands and operators, in the order
in which they were written. The spelling keeps besides the bracket of each call and the brace
of each array, so that it has a lexeme for every node of the tree. The marks of a line are its
lexemes without those that a spelling does not have.
-/

namespace Offside

namespace Kind

/-- Brackets, braces and commas, of which the reading of a tree keeps nothing. -/
def isSeparator : Kind → Bool
  | openBracket | closeBracket | openBrace | closeBrace | comma => true
  | _ => false

def isOperator : Kind → Bool
  | not | bitNot | operator _ => true
  | _ => false

def isInner (k : Kind) : Bool :=
  k.isOperator || k.isSeparator

def endsOperand : Kind → Bool
  | name | literal | closeBracket | closeBrace => true
  | _ => false

theorem isOperand_of_isSeparator {k : Kind} (h : k.isSeparator = true) : k.isOperand = false := by
  cases k <;> first | rfl | cases h

theorem isOperator_of_isSeparator {k : Kind} (h : k.isSeparator = true) :
    k.isOperator = false := by
  cases k <;> first | rfl | cases h

end Kind

def UnaryOp.kind : UnaryOp → Kind
  | negate => .operator .subtract
  | not => .not
  | bitNot => .bitNot

theorem UnaryOp.kind_isOperator (op : UnaryOp) : op.kind.isOperator = true ∧
    op.kind.isSeparator = false ∧ op.kind.isOperand = false := by
  cases op <;> exact ⟨rfl, rfl, rfl⟩

def Payload.lexeme : Payload → Lexeme
  | name i => .ofIdent i
  | literal l => .ofLiteral l

namespace Lexeme

/-- A lexeme as a tree knows it: an operand by its value, any other by its kind. -/
def bare (l : Lexeme) : Lexeme :=
  match l.kind, l.payload with
  | .name, some p | .literal, some p => p.lexeme
  | k, _ => ⟨k, none⟩

theorem bare_of_operand {l : Lexeme} {p : Payload} (kind : l.kind.isOperand = true)
    (payload : l.payload = some p) : l.bare = p.lexeme := by
  obtain ⟨k, q⟩ := l
  cases payload
  cases k <;> first | rfl | cases kind

theorem bare_of_not_operand {l : Lexeme} (kind : l.kind.isOperand = false) :
    l.bare = ⟨l.kind, none⟩ := by
  obtain ⟨k, q⟩ := l
  cases k <;> first | rfl | cases kind

theorem bare_kind (p : Kind → Bool) (same : p .name = p .literal) (l : Lexeme) :
    p l.bare.kind = p l.kind := by
  obtain ⟨k, q⟩ := l
  match k, q with
  | .name, some (.name _) | .literal, some (.literal _) => rfl
  | .name, some (.literal _) => exact same.symm
  | .literal, some (.name _) => exact same
  | .name, none | .literal, none => rfl
  | .not, _ | .bitNot, _ | .operator _, _ | .openBracket, _ | .closeBracket, _ => rfl
  | .openBrace, _ | .closeBrace, _ | .comma, _ | .keyword _, _ => rfl

/-- Does a separator open an array or a call? `after` says whether an operand is complete
before it. -/
def opensNode (after : Bool) (l : Lexeme) : Bool :=
  l.kind = .openBrace || after && l.kind = .openBracket

def mark (after : Bool) (l : Lexeme) : List Lexeme :=
  if l.kind.isSeparator then if l.opensNode after then [⟨l.kind, none⟩] else []
  else [l.bare]

section Mark

variable {after : Bool} {l : Lexeme}

theorem mark_of_not_separator (h : l.kind.isSeparator = false) : l.mark after = [l.bare] := by
  simp [mark, h]

theorem mark_openBracket (h : l.kind = .openBracket) :
    l.mark after = if after then [⟨.openBracket, none⟩] else [] := by
  simp [mark, opensNode, h, Kind.isSeparator]

theorem mark_openBrace (h : l.kind = .openBrace) : l.mark after = [⟨.openBrace, none⟩] := by
  simp [mark, opensNode, h, Kind.isSeparator]

theorem mark_closing (h : l.kind = .closeBracket ∨ l.kind = .closeBrace ∨ l.kind = .comma) :
    l.mark after = [] := by
  rcases h with h | h | h <;> simp [mark, opensNode, h, Kind.isSeparator]

end Mark

def marks (after : Bool) : List Lexeme → List Lexeme
  | [] => []
  | l :: ls => l.mark after ++ marks l.kind.endsOperand ls

/-- The brackets that call: those right behind a complete operand. -/
def callCount (ls : List Lexeme) : Nat :=
  (ls.zip ls.tail).countP fun p => p.1.kind.endsOperand && p.2.kind = .openBracket

section Marks

variable (after : Bool) (ls : List Lexeme)

theorem filter_marks : (marks after ls).filter (fun l => !l.kind.isSeparator) =
    (ls.filter fun l => !l.kind.isSeparator).map bare := by
  induction ls generalizing after with
  | nil => rfl
  | cons l ls ih =>
    have same := bare_kind Kind.isSeparator rfl l
    rw [marks, List.filter_append, ih, mark]
    cases separator : l.kind.isSeparator with
    | false => simp [separator, same]
    | true =>
      rw [if_pos rfl]
      split <;> simp [separator]

theorem countP_marks_operand : (marks after ls).countP (·.kind.isOperand) =
    ls.countP (·.kind.isOperand) := by
  induction ls generalizing after with
  | nil => rfl
  | cons l ls ih =>
    have same := bare_kind Kind.isOperand rfl l
    rw [marks, List.countP_append, ih, List.countP_cons, Nat.add_comm, mark]
    congr 1
    cases separator : l.kind.isSeparator with
    | false => simp [List.countP_cons, same]
    | true =>
      have other := Kind.isOperand_of_isSeparator separator
      rw [if_pos rfl]
      split <;> simp [other]

theorem countP_mark_inner (l : Lexeme) : (l.mark after).countP (·.kind.isInner) =
    [l].countP (·.kind.isOperator) + [l].countP (·.kind = .openBrace) +
      if after && l.kind = .openBracket then 1 else 0 := by
  rw [mark, opensNode]
  cases separator : l.kind.isSeparator with
  | false =>
    have same : l.bare.kind.isInner = l.kind.isOperator := by
      rw [bare_kind Kind.isInner rfl l, Kind.isInner, separator, Bool.or_false]
    have brace : l.kind ≠ .openBrace := fun eq => by rw [eq] at separator; cases separator
    have bracket : l.kind ≠ .openBracket := fun eq => by rw [eq] at separator; cases separator
    simp [same, brace, bracket, List.countP_cons]
  | true =>
    have operator := Kind.isOperator_of_isSeparator separator
    by_cases brace : l.kind = .openBrace
    · simp [brace, Kind.isInner, Kind.isOperator, Kind.isSeparator]
    · by_cases bracket : after && l.kind = .openBracket <;>
        simp [brace, bracket, Kind.isInner, operator, separator]

theorem countP_marks_inner (first : Lexeme) :
    (marks first.kind.endsOperand ls).countP (·.kind.isInner) =
      ls.countP (·.kind.isOperator) + ls.countP (·.kind = .openBrace) +
        callCount (first :: ls) := by
  induction ls generalizing first with
  | nil => rfl
  | cons l ls ih =>
    have calls : callCount (first :: l :: ls) =
        (if first.kind.endsOperand && l.kind = .openBracket then 1 else 0) +
          callCount (l :: ls) := by
      simp [callCount, List.countP_cons, Nat.add_comm]
    rw [marks, List.countP_append, ih, countP_mark_inner, calls]
    rw [← List.singleton_append (l := ls), List.countP_append, List.countP_append]
    omega

theorem countP_marks_inner_false : (marks false ls).countP (·.kind.isInner) =
    ls.countP (·.kind.isOperator) + ls.countP (·.kind = .openBrace) + callCount ls := by
  cases ls with
  | nil => rfl
  | cons l ls =>
    rw [marks, List.countP_append, countP_marks_inner, countP_mark_inner]
    rw [← List.singleton_append (l := ls), List.countP_append, List.countP_append]
    simp only [Bool.false_and, Bool.false_eq_true, if_false, List.singleton_append]
    omega

end Marks

end Lexeme

namespace Expr

mutual

/-- Operands and operators from left to right, a negation as the minus sign that it is. -/
def reading : Expr → List Lexeme
  | literal l => [.ofLiteral l]
  | ident i => [.ofIdent i]
  | unary op argument => ⟨op.kind, none⟩ :: argument.reading
  | binary op left right => left.reading ++ ⟨.operator op, none⟩ :: right.reading
  | call callee arguments => callee.reading ++ readings arguments
  | array elements => readings elements

def readings : List Expr → List Lexeme
  | [] => []
  | e :: es => e.reading ++ readings es

end

mutual

/-- The reading with a bracket for each call and a brace for each array. -/
def spelling : Expr → List Lexeme
  | literal l => [.ofLiteral l]
  | ident i => [.ofIdent i]
  | unary op argument => ⟨op.kind, none⟩ :: argument.spelling
  | binary op left right => left.spelling ++ ⟨.operator op, none⟩ :: right.spelling
  | call callee arguments => callee.spelling ++ ⟨.openBracket, none⟩ :: spellings arguments
  | array elements => ⟨.openBrace, none⟩ :: spellings elements

def spellings : List Expr → List Lexeme
  | [] => []
  | e :: es => e.spelling ++ spellings es

end

theorem spellings_eq_flatMap (es : List Expr) : spellings es = es.flatMap spelling := by
  induction es with
  | nil => rfl
  | cons e es ih => rw [spellings, ih, List.flatMap_cons]

mutual

theorem filter_spelling (e : Expr) :
    e.spelling.filter (fun l => !l.kind.isSeparator) = e.reading := by
  cases e with
  | literal l | ident i => rfl
  | unary op argument =>
    rw [spelling, reading, List.filter_cons_of_pos (by simp [op.kind_isOperator]),
      filter_spelling argument]
  | binary op left right =>
    rw [spelling, reading, List.filter_append, List.filter_cons_of_pos rfl,
      filter_spelling left, filter_spelling right]
  | call callee arguments =>
    rw [spelling, reading, List.filter_append, List.filter_cons_of_neg (by simp [Kind.isSeparator]),
      filter_spelling callee, filter_spellings arguments]
  | array elements =>
    rw [spelling, reading, List.filter_cons_of_neg (by simp [Kind.isSeparator]),
      filter_spellings elements]

theorem filter_spellings (es : List Expr) :
    (spellings es).filter (fun l => !l.kind.isSeparator) = readings es := by
  match es with
  | [] => rfl
  | e :: es => rw [spellings, readings, List.filter_append, filter_spelling e, filter_spellings es]

end

section Counts

open List (countP_append)

theorem countP_cons_inner {l : Lexeme} (inner : l.kind.isInner = true)
    (other : l.kind.isOperand = false) (ls : List Lexeme) :
    (l :: ls).countP (·.kind.isOperand) = ls.countP (·.kind.isOperand) ∧
      (l :: ls).countP (·.kind.isInner) = ls.countP (·.kind.isInner) + 1 := by
  simp [inner, other]

mutual

theorem countP_spelling (e : Expr) : e.spelling.countP (·.kind.isOperand) = e.leafCount ∧
    e.spelling.countP (·.kind.isInner) = e.innerCount := by
  cases e with
  | literal l | ident i => exact ⟨rfl, rfl⟩
  | unary op argument =>
    obtain ⟨leaves, inner⟩ := countP_spelling argument
    have sign : op.kind.isInner = true := by rw [Kind.isInner, op.kind_isOperator.1]; rfl
    have node := countP_cons_inner (l := ⟨op.kind, none⟩) sign op.kind_isOperator.2.2
    rw [spelling, (node _).1, (node _).2, leaves, inner, leafCount, innerCount]
    omega
  | binary op left right =>
    obtain ⟨leavesl, innerl⟩ := countP_spelling left
    obtain ⟨leavesr, innerr⟩ := countP_spelling right
    have node := countP_cons_inner (l := ⟨.operator op, none⟩) rfl rfl right.spelling
    rw [spelling, countP_append, countP_append, node.1, node.2, leavesl, innerl, leavesr, innerr,
      leafCount, innerCount]
    omega
  | call callee arguments =>
    obtain ⟨leavesc, innerc⟩ := countP_spelling callee
    obtain ⟨leaves, inner⟩ := countP_spellings arguments
    have node := countP_cons_inner (l := ⟨.openBracket, none⟩) rfl rfl (spellings arguments)
    rw [spelling, countP_append, countP_append, node.1, node.2, leavesc, innerc, leaves, inner,
      leafCount, innerCount]
    omega
  | array elements =>
    obtain ⟨leaves, inner⟩ := countP_spellings elements
    have node := countP_cons_inner (l := ⟨.openBrace, none⟩) rfl rfl (spellings elements)
    rw [spelling, node.1, node.2, leaves, inner, leafCount, innerCount]
    omega

theorem countP_spellings (es : List Expr) :
    (spellings es).countP (·.kind.isOperand) = leafCounts es ∧
      (spellings es).countP (·.kind.isInner) = innerCounts es := by
  match es with
  | [] => exact ⟨rfl, rfl⟩
  | e :: es =>
    obtain ⟨leaves, inner⟩ := countP_spelling e
    obtain ⟨leavess, inners⟩ := countP_spellings es
    rw [spellings, countP_append, countP_append, leaves, inner, leavess, inners]
    exact ⟨rfl, rfl⟩

end

end Counts

end Expr

end Offside
