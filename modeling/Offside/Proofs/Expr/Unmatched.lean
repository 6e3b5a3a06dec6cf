import Offside.Proofs.Expr.Nested

/-!
One bracket too many. A bracket that closes nothing is met when everything before it is read and no
bracket is open; one that is never closed is missed at the end of the line, when everything
behind it is read. Main statement: nothing else is found wrong before that.
-/

namespace Offside.Expr

variable {s : Setting} {d : Nat} {ws : List Lexeme} {b : Lexeme} {e : Expr} {f : Fault}

section Steps

variable {st : State}

theorem run_concat_of_fault (reads : run s (.start .statement) ws = .ok st)
    (fails : step s st b = .error f) : parseStatement s (ws ++ [b]) = .error f := by
  have stops : run s (.start .statement) (ws ++ [b]) = .error f := by
    rw [run_append_of_ok reads, run, List.foldlM_cons, fails]
    rfl
  rw [parseStatement, stops]
  rfl

theorem parseStatement_of_unfinished (reads : run s (.start .statement) ws = .ok st)
    (unclosed : st.frame.context.unclosed? = some f) : parseStatement s ws = .error f := by
  rw [parseStatement, reads]
  refine bind_eq_error.2 (.inr ⟨st, rfl, bind_eq_error.2 (.inl ?_)⟩)
  simp only [State.finish, unclosed]

end Steps

theorem parseStatement_unopened (h : parseStatement s ws = .ok e) :
    (b.kind = .closeBracket → parseStatement s (ws ++ [b]) = .error .unopenedBracket) ∧
      (b.kind = .closeBrace → parseStatement s (ws ++ [b]) = .error .unopenedBrace) := by
  obtain ⟨es, reads⟩ := run_of_parseStatement h [] (Nat.le_refl _) .statement
  refine ⟨fun kind => run_concat_of_fault reads ?_, fun kind => run_concat_of_fault reads ?_⟩ <;>
  · rw [step, kind]
    rfl

theorem parseStatement_of_opened {c : Context} (h : parseStatement s ws = .ok e)
    (lt : s.maxDepth < d)
    (opens : step ⟨d, s.inClass⟩ (.start .statement) b =
      .ok ⟨⟨c, [], []⟩, [⟨.statement, [], []⟩]⟩)
    (unclosed : c.unclosed? = some f) : parseStatement ⟨d, s.inClass⟩ (b :: ws) = .error f := by
  obtain ⟨es, reads⟩ := run_of_parseStatement h [⟨.statement, [], []⟩] lt c
  exact parseStatement_of_unfinished ((run_cons opens ws).trans reads) unclosed

theorem parseStatement_unclosed (h : parseStatement s ws = .ok e) (lt : s.maxDepth < d) :
    (b.kind = .openBracket → parseStatement ⟨d, s.inClass⟩ (b :: ws) = .error .unclosedBracket) ∧
      (b.kind = .openBrace →
        parseStatement ⟨d, s.inClass⟩ (b :: ws) = .error .unclosedBrace) := by
  have some_ : 0 < d := Nat.zero_lt_of_lt lt
  constructor
  · intro kind
    exact parseStatement_of_opened h lt (step_openBracket kind some_) rfl
  · intro kind
    exact parseStatement_of_opened h lt (step_openBrace kind some_ rfl) rfl

/-- A bracket behind a statement that closes none of its brackets, or in front of one that does not
close it, is reported as what it is. In front of the statement it may be one more than the
limit lets be nested; under any higher limit it is not. -/
theorem parseStatement_unmatched (h : parseStatement s ws = .ok e) (line : Nat) :
    (b.kind = .closeBracket →
      Rejected line "Unmatched closing bracket" (parseStatement s (ws ++ [b]))) ∧
    (b.kind = .closeBrace →
      Rejected line "Unmatched closing curled brace" (parseStatement s (ws ++ [b]))) ∧
    (b.kind = .openBracket →
      (Rejected line "Unmatched opening bracket" (parseStatement s (b :: ws)) ∨
        Rejected line "Nesting too deep" (parseStatement s (b :: ws))) ∧
      ∀ d, s.maxDepth < d →
        Rejected line "Unmatched opening bracket" (parseStatement ⟨d, s.inClass⟩ (b :: ws))) ∧
    (b.kind = .openBrace →
      (Rejected line "Unmatched opening curled brace" (parseStatement s (b :: ws)) ∨
        Rejected line "Nesting too deep" (parseStatement s (b :: ws))) ∧
      ∀ d, s.maxDepth < d →
        Rejected line "Unmatched opening curled brace"
          (parseStatement ⟨d, s.inClass⟩ (b :: ws))) := by
  obtain ⟨bracket, brace⟩ := parseStatement_unopened (b := b) h
  obtain ⟨group, array⟩ := parseStatement_unclosed (b := b) h (Nat.lt_succ_self s.maxDepth)
  have le := Nat.le_succ s.maxDepth
  refine ⟨fun kind => .of_error (bracket kind) rfl line,
    fun kind => .of_error (brace kind) rfl line,
    fun kind => ⟨rejected_of_higher le (group kind) rfl line, fun d lt => ?_⟩,
    fun kind => ⟨rejected_of_higher le (array kind) rfl line, fun d lt => ?_⟩⟩
  · exact .of_error ((parseStatement_unclosed h lt).1 kind) rfl line
  · exact .of_error ((parseStatement_unclosed h lt).2 kind) rfl line

theorem parseStatement_unmatched_call :
    let ws : List Lexeme := [.ofIdent ⟨"f", .none⟩, ⟨.openBracket, none⟩, ⟨.openBrace, none⟩,
      .ofIdent ⟨"a", .none⟩, ⟨.closeBrace, none⟩, ⟨.comma, none⟩, ⟨.operator .subtract, none⟩,
      .ofLiteral (.int 1), ⟨.closeBracket, none⟩]
    let e : Expr := .call (.ident ⟨"f", .none⟩)
      [.array [.ident ⟨"a", .none⟩], .unary .negate (.literal (.int 1))]
    parseStatement ⟨3, false⟩ ws = .ok e ∧
    Rejected 7 "Unmatched closing bracket"
      (parseStatement ⟨3, false⟩ (ws ++ [⟨.closeBracket, none⟩])) ∧
    Rejected 7 "Unmatched closing curled brace"
      (parseStatement ⟨3, false⟩ (ws ++ [⟨.closeBrace, none⟩])) ∧
    Rejected 7 "Unmatched opening bracket"
      (parseStatement ⟨4, false⟩ (⟨.openBracket, none⟩ :: ws)) ∧
    Rejected 7 "Unmatched opening curled brace"
      (parseStatement ⟨4, false⟩ (⟨.openBrace, none⟩ :: ws)) := by
  intro ws e
  have parses : parseStatement ⟨3, false⟩ ws = .ok e := by cbv
  have lt : 3 < 4 := by decide
  refine ⟨parses, ?_, ?_, ?_, ?_⟩
  · exact (parseStatement_unmatched parses 7).1 rfl
  · exact (parseStatement_unmatched parses 7).2.1 rfl
  · exact ((parseStatement_unmatched (b := ⟨.openBracket, none⟩) parses 7).2.2.1 rfl).2 4 lt
  · exact ((parseStatement_unmatched (b := ⟨.openBrace, none⟩) parses 7).2.2.2 rfl).2 4 lt

end Offside.Expr
