import Offside.Proofs.Expr.Derivable
import Offside.Proofs.Expr.Member
import Offside.Proofs.Expr.Spelling

/-!
Trees written out in full: what an operator or a call applies to stands in brackets of its own,
and commas separate arguments and elements. No binding level matters then, and every pair of
brackets is a node of the tree, so that nothing but the depth of the tree can exceed a limit: a
bracket further in holds a tree that is one less deep, and the two never add up to more.
Main statement: a tree that is not too deep is parsed back from what it is written as.
-/

namespace Offside

theorem UnaryOp.sign?_kind (op : UnaryOp) : op.kind.sign? = some op := by
  cases op <;> rfl

namespace Expr

def inBrackets (ws : List Lexeme) : List Lexeme :=
  ⟨.openBracket, none⟩ :: ws ++ [⟨.closeBracket, none⟩]

mutual

/-- A leaf as its lexeme, an operator or a call around what it applies to, in brackets each. -/
def bracketed : Expr → List Lexeme
  | literal l => [.ofLiteral l]
  | ident i => [.ofIdent i]
  | unary op argument => ⟨op.kind, none⟩ :: inBrackets argument.bracketed
  | binary op left right =>
    inBrackets left.bracketed ++ ⟨.operator op, none⟩ :: inBrackets right.bracketed
  | call callee arguments => inBrackets callee.bracketed ++ inBrackets (bracketedList arguments)
  | array elements => ⟨.openBrace, none⟩ :: bracketedList elements ++ [⟨.closeBrace, none⟩]

def bracketedList : List Expr → List Lexeme
  | [] => []
  | [e] => e.bracketed
  | e :: es => e.bracketed ++ ⟨.comma, none⟩ :: bracketedList es

end

variable {s : Setting} {level : Nat} {ws : List Lexeme} {e : Expr} {es : List Expr}

section Runs

open Measured (of)

theorem resolve_sign (op : UnaryOp) (a : Measured) :
    resolve [.operator (.unary op), .operand a] = .ok (.unary op a) := by
  have alone := resolve_last_unary (l := []) op (show IsRun [.operand a] from trivial)
    (by simp [Below]) (by simp [Below]) (resolve_operand a)
  exact alone.trans (resolve_operand _)

theorem resolve_pair (op : BinaryOp) (a b : Measured) :
    resolve [.operand a, .operator (.binary op), .operand b] = .ok (.binary op a b) :=
  resolve_binary (l := [.operand a]) trivial trivial (by simp [Released]) (by simp [Below])
    (resolve_operand a) (resolve_operand b)

theorem resolve_applied (a : Measured) (arguments : List Expr) (depth : Nat) :
    resolve [.operand a, .operator (.call arguments depth)] = .ok (a.call arguments depth) :=
  resolve_call (l := [.operand a]) trivial (by simp [Released]) (resolve_operand a)

end Runs

namespace Derives

theorem statement_of_resolve {run : List Element} {m : Measured}
    (h : Derives s level (.chain run) ws) (resolves : resolve run = .ok m)
    (few : run.countP (·.isOperator) ≤ s.maxDepth) (deep : m.expr.depth ≤ s.maxDepth) :
    Derives s level (.statement m.expr) ws :=
  .statement h few ((climbAll_eq_some_iff (h.run_wellFormed rfl).1).2 resolves) deep

theorem chain_of_primary (h : Derives s level (.primary e) ws) :
    Derives s level (.chain [.operand (.of e)]) ws :=
  .alone (.unsigned (.uncalled h))

theorem statement_of_primary (h : Derives s level (.primary e) ws) (deep : e.depth ≤ s.maxDepth) :
    Derives s level (.statement e) ws :=
  h.chain_of_primary.statement_of_resolve (resolve_operand (.of e)) (Nat.zero_le _) deep

theorem inBrackets (lt : level < s.maxDepth) (h : Derives s (level + 1) (.statement e) ws) :
    Derives s level (.primary e) (inBrackets ws) :=
  .group rfl rfl lt h

theorem call_inBrackets (lt : level < s.maxDepth) (h : Derives s (level + 1) (.list es) ws) :
    Derives s level (.call es) (Expr.inBrackets ws) :=
  .call rfl rfl lt h

theorem statements_append {before : List Expr} (h : Derives s level (.statements before) ws)
    (each : ∀ e ∈ es, Derives s level (.statement e) e.bracketed) (ne : es ≠ []) :
    Derives s level (.statements (before ++ es)) (ws ++ ⟨.comma, none⟩ :: bracketedList es) := by
  induction es generalizing before ws with
  | nil => exact absurd rfl ne
  | cons e es ih =>
    rw [List.forall_mem_cons] at each
    have next := Derives.comma h (l := ⟨.comma, none⟩) rfl each.1
    cases es with
    | nil => exact next
    | cons e' es => simpa [bracketedList] using ih next each.2 (by simp)

theorem list_bracketed (each : ∀ e ∈ es, Derives s level (.statement e) e.bracketed) :
    Derives s level (.list es) (bracketedList es) := by
  match es with
  | [] => exact .empty
  | [e] => exact .nonempty (.single (each e List.mem_cons_self))
  | e :: e' :: es =>
    rw [List.forall_mem_cons] at each
    exact .nonempty (statements_append (.single each.1) each.2 (by simp))

end Derives

mutual

theorem derives_bracketed (level : Nat) (e : Expr) (deep : level + e.depth ≤ s.maxDepth)
    (member : ∀ i ∈ e.idents, i.sigil = .member → s.inClass = true) :
    Derives s level (.statement e) e.bracketed := by
  cases e with
  | literal l =>
    have leaf : Derives s level (.primary (.literal l)) [.ofLiteral l] := .literal rfl rfl
    exact leaf.statement_of_primary (by omega)
  | ident i =>
    have leaf : Derives s level (.primary (.ident i)) [.ofIdent i] :=
      .name rfl rfl (member i (by simp [idents]))
    exact leaf.statement_of_primary (by omega)
  | unary op argument =>
    rw [depth] at deep
    have inner := derives_bracketed (level + 1) argument (by omega) member
    have chain : Derives s level (.chain [.operator (.unary op), .operand (.of argument)]) _ :=
      .alone (.signed (l := ⟨op.kind, none⟩) op.sign?_kind
        (.unsigned (.uncalled (.inBrackets (by omega) inner))))
    refine chain.statement_of_resolve (resolve_sign op (.of argument)) ?_ ?_
    · exact show 1 ≤ s.maxDepth by omega
    · exact show argument.depth + 1 ≤ s.maxDepth by omega
  | binary op left right =>
    rw [depth] at deep
    rw [idents, List.forall_mem_append] at member
    have innerl := derives_bracketed (level + 1) left (by omega) member.1
    have innerr := derives_bracketed (level + 1) right (by omega) member.2
    have chain := Derives.joined (l := ⟨.operator op, none⟩)
      (Derives.inBrackets (by omega) innerl).chain_of_primary rfl
      (.unsigned (.uncalled (.inBrackets (by omega) innerr)))
    refine chain.statement_of_resolve (resolve_pair op (.of left) (.of right)) ?_ ?_
    · exact show 1 ≤ s.maxDepth by omega
    · exact show max left.depth right.depth + 1 ≤ s.maxDepth by omega
  | call callee arguments =>
    rw [depth] at deep
    rw [idents, List.forall_mem_append] at member
    have inner := derives_bracketed (level + 1) callee (by omega) member.1
    have each := derives_bracketed_of_mem (level + 1) arguments (by omega) member.2
    have chain : Derives s level (.chain [.operand (.of callee), .operator (.call ..)]) _ :=
      .alone (.unsigned (.called (.uncalled (.inBrackets (by omega) inner))
        (.call_inBrackets (by omega) (.list_bracketed each))))
    refine chain.statement_of_resolve (resolve_applied (.of callee) arguments _) ?_ ?_
    · exact show 1 ≤ s.maxDepth by omega
    · exact show max callee.depth (depths arguments) + 1 ≤ s.maxDepth by omega
  | array elements =>
    rw [depth] at deep
    have each := derives_bracketed_of_mem (level + 1) elements (by omega) member
    have braces : Derives s level (.primary (.array elements)) (bracketed (.array elements)) :=
      .array rfl rfl (by omega) (.list_bracketed each)
    exact braces.statement_of_primary (show depths elements + 1 ≤ s.maxDepth by omega)

theorem derives_bracketed_of_mem (level : Nat) (es : List Expr)
    (deep : level + depths es ≤ s.maxDepth)
    (member : ∀ i ∈ identsOf es, i.sigil = .member → s.inClass = true) :
    ∀ e ∈ es, Derives s level (.statement e) e.bracketed := by
  match es with
  | [] => simp
  | e :: es =>
    rw [depths] at deep
    rw [identsOf, List.forall_mem_append] at member
    exact List.forall_mem_cons.2 ⟨derives_bracketed level e (by omega) member.1,
      derives_bracketed_of_mem level es (by omega) member.2⟩

end

/-- Every tree can be written and read back, up to the very limit on its depth. -/
theorem parseStatement_bracketed (s : Setting) (e : Expr) (deep : e.depth ≤ s.maxDepth)
    (member : ∀ i ∈ e.idents, i.sigil = .member → s.inClass = true) :
    parseStatement s e.bracketed = .ok e :=
  parseStatement_of_derives (derives_bracketed 0 e (by omega) member)

theorem parseStatement_bracketed_call :
    let s : Setting := ⟨4, true⟩
    let e : Expr := .binary .subtract
      (.call (.ident ⟨"f", .member⟩) [.unary .negate (.ident ⟨"x", .none⟩), .array []])
      (.array [.literal (.int 1), .ident ⟨"y", .none⟩])
    e.depth ≤ s.maxDepth ∧ (∀ i ∈ e.idents, i.sigil = .member → s.inClass = true) ∧
      parseStatement s e.bracketed = .ok e := by
  intro s e
  have deep : e.depth ≤ s.maxDepth := by decide
  have member : ∀ i ∈ e.idents, i.sigil = .member → s.inClass = true := fun _ _ _ => rfl
  exact ⟨deep, member, parseStatement_bracketed s e deep member⟩

end Expr

end Offside
