import Mathlib.Data.List.Forall2
import Offside.Proofs.Expr.Parsed

/-!
One statement and several. A list of one statement is that statement, so that it makes no difference
whether a line is taken as a statement or as a list; and statements with commas between them are
parsed as if each were alone. Main statement: the two ways to parse a line agree.
-/

namespace Offside.Expr

variable {s : Setting} {level : Nat} {ws : List Lexeme} {e : Expr} {es : List Expr}

def commaTail (rest : List (Lexeme × List Lexeme)) : List Lexeme :=
  rest.flatMap fun next => next.1 :: next.2

namespace Derives

theorem statement_of_statements (h : Derives s level (.statements es) ws) (one : es = [e]) :
    Derives s level (.statement e) ws := by
  cases h with
  | single h =>
    cases one
    exact h
  | comma before | adjacent before =>
    exact absurd (List.append_eq_singleton_iff.1 one) (by simp [before.statements_ne_nil])

theorem list_singleton_iff :
    Derives s level (.list [e]) ws ↔ Derives s level (.statement e) ws := by
  constructor
  · intro h
    cases h with
    | nonempty h => exact h.statement_of_statements rfl
  · exact fun h => .nonempty (.single h)

theorem statements_joined {rest : List (Lexeme × List Lexeme)} {more : List Expr}
    (h : Derives s level (.statements es) ws)
    (each : List.Forall₂ (fun next t => next.1.kind = .comma ∧
      Derives s level (.statement t) next.2) rest more) :
    Derives s level (.statements (es ++ more)) (ws ++ commaTail rest) := by
  induction each generalizing es ws with
  | nil => simpa [commaTail] using h
  | cons next _ ih => simpa [commaTail] using ih (h.comma next.1 next.2)

end Derives

/-- A line is parsed as a statement if and only if it is parsed as a list of that statement alone,
and statements with a comma before each but the first are parsed as the list of what each is. -/
theorem parseStatements_joined (s : Setting) :
    (∀ ws e, parseStatement s ws = .ok e ↔ parseStatements s ws = .ok [e]) ∧
    ∀ ws e (rest : List (Lexeme × List Lexeme)) es, parseStatement s ws = .ok e →
      List.Forall₂ (fun next t => next.1.kind = .comma ∧ parseStatement s next.2 = .ok t) rest es →
      parseStatements s (ws ++ commaTail rest) = .ok (e :: es) := by
  refine ⟨fun ws e => ⟨fun h => ?_, fun h => ?_⟩, fun ws e rest es first each => ?_⟩
  · exact parseStatements_of_derives (Derives.list_singleton_iff.2 (derives_of_parseStatement h))
  · exact parseStatement_of_derives (Derives.list_singleton_iff.1 (derives_of_parseStatements h))
  · have derived : List.Forall₂ (fun next t => next.1.kind = .comma ∧
        Derives s 0 (.statement t) next.2) rest es :=
      each.imp fun _ _ next => ⟨next.1, derives_of_parseStatement next.2⟩
    have alone : Derives s 0 (.statements [e]) ws := .single (derives_of_parseStatement first)
    exact parseStatements_of_derives (.nonempty (alone.statements_joined derived))

theorem parseStatements_joined_calls :
    let s : Setting := ⟨8, false⟩
    let call : List Lexeme := [.ofIdent ⟨"f", .none⟩, ⟨.openBracket, none⟩, .ofLiteral (.int 1),
      ⟨.comma, none⟩, ⟨.openBrace, none⟩, ⟨.closeBrace, none⟩, ⟨.closeBracket, none⟩]
    let difference : List Lexeme := [⟨.operator .subtract, none⟩, .ofIdent ⟨"a", .none⟩,
      ⟨.operator .subtract, none⟩, .ofIdent ⟨"b", .none⟩]
    let e : Expr := .call (.ident ⟨"f", .none⟩) [.literal (.int 1), .array []]
    let e' : Expr := .binary .subtract (.unary .negate (.ident ⟨"a", .none⟩)) (.ident ⟨"b", .none⟩)
    (parseStatement s call = .ok e ∧ parseStatements s call = .ok [e]) ∧
    parseStatement s difference = .ok e' ∧
    parseStatements s (call ++ commaTail [(⟨.comma, none⟩, difference), (⟨.comma, none⟩, call)]) =
      .ok [e, e', e] := by
  intro s call difference e e'
  obtain ⟨one, several⟩ := parseStatements_joined s
  have first : parseStatement s call = .ok e := by cbv
  have second : parseStatement s difference = .ok e' := by cbv
  refine ⟨⟨first, (one call e).1 first⟩, second, several call e _ _ first ?_⟩
  exact .cons ⟨rfl, second⟩ (.cons ⟨rfl, first⟩ .nil)

end Offside.Expr
