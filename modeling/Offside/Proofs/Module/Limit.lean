import Mathlib
import Offside.Proofs.Expr.Limit
import Offside.Proofs.Module.Prefix
import Offside.Proofs.Module.Reading

/-!
A module built under two limits. Blocks and else-if links are counted only to be stopped, like
brackets and operators, so that a higher limit changes nothing but what was too deep.
-/

namespace Offside

variable {config config' : Config} (le : config.maxDepth ≤ config'.maxDepth)

include le

namespace Header

theorem parseFor_kept (inClass : Bool) (ws : List Lexeme) :
    Kept (parseFor ⟨config.maxDepth, inClass⟩ ws) (parseFor ⟨config'.maxDepth, inClass⟩ ws) :=
  (Expr.parseStatements_kept le inClass ws).bind fun _ => .refl _

theorem parseForeach_kept (inClass : Bool) (ws : List Lexeme) :
    Kept (parseForeach ⟨config.maxDepth, inClass⟩ ws)
      (parseForeach ⟨config'.maxDepth, inClass⟩ ws) := by
  unfold parseForeach
  split
  · split
    · split
      · exact (Expr.parseStatement_kept le inClass _).map _
      · exact .refl _
    · exact .refl _
  · exact .refl _

theorem parseReturn_kept (inClass : Bool) (ws : List Lexeme) :
    Kept (parseReturn ⟨config.maxDepth, inClass⟩ ws)
      (parseReturn ⟨config'.maxDepth, inClass⟩ ws) := by
  unfold parseReturn
  split
  · exact .refl _
  · exact (Expr.parseStatement_kept le inClass ws).map _

theorem parse_kept (inClass directlyInClass : Bool) (first : Lexeme) (rest : List Lexeme) :
    Kept (parse ⟨config.maxDepth, inClass⟩ directlyInClass first rest)
      (parse ⟨config'.maxDepth, inClass⟩ directlyInClass first rest) := by
  have statement (ws : List Lexeme) (say : Expr → Header) :=
    (Expr.parseStatement_kept le inClass ws).map say
  unfold parse
  split
  · exact .refl _
  · exact .refl _
  · exact .refl _
  · split
    · exact .refl _
    · split
      · exact statement rest _
      · exact statement rest _
      · exact parseFor_kept le inClass rest
      · exact parseForeach_kept le inClass rest
      · exact parseReturn_kept le inClass rest
      · exact statement (first :: rest) _

theorem parseElse_kept (inClass : Bool) (ws : List Lexeme) :
    Kept (parseElse ⟨config.maxDepth, inClass⟩ ws) (parseElse ⟨config'.maxDepth, inClass⟩ ws) := by
  unfold parseElse
  split
  · exact .refl _
  · split
    · exact (Expr.parseStatement_kept le inClass _).map _
    · exact .refl _

end Header

namespace Module

namespace State

variable (line : Nat) (s : State)

theorem enter_kept (opener : Opener) :
    Kept (s.enter config.maxDepth opener line) (s.enter config'.maxDepth opener line) :=
  .check (Nat.le_trans le) .blocks _ _ (.refl _)

theorem perform_kept (h : Header) : Kept (s.perform config line h) (s.perform config' line h) := by
  cases h using Header.byEffect with
  | opens h opener opens =>
    rw [perform_of_opener opens, perform_of_opener opens]
    split
    · exact .refl _
    · exact enter_kept le line s opener
  | leaf h leaf =>
    obtain ⟨stmt, leaf⟩ := leaf line
    rw [perform_of_leaf leaf, perform_of_leaf leaf]
    exact .refl _
  | class_ name =>
    exact (Kept.refl (s.symbols.declare s.scope name .class_)).bind fun _ => enter_kept le line _ _
  | function name arguments =>
    refine (Kept.refl (s.symbols.declare s.scope name .function)).bind fun d => ?_
    exact (Kept.refl (declareArguments d.2 arguments d.1)).bind fun _ => enter_kept le line _ _
  | elseIf | else_ => exact .refl _

theorem resume_kept (arm : Arm) (chain : List Arm) (h : Header) :
    Kept (s.resume config line arm chain h) (s.resume config' line arm chain h) := by
  cases h with
  | elseIf | else_ => exact enter_kept le line s _
  | _ => exact .refl _

theorem read_kept (ws : List Lexeme) :
    Kept (s.read config line ws) (s.read config' line ws) := by
  cases ws with
  | nil => exact .refl _
  | cons first rest =>
    rw [read_cons, read_cons]
    exact (Header.parse_kept le s.inClass _ first rest).bind (s.perform_kept le line)

theorem step_kept (l : Line) : Kept (s.step config l) (s.step config' l) := by
  unfold step
  split
  · exact .refl _
  · refine (Kept.refl _).bind fun t => ?_
    split
    · next arm chain outer rest _ _ =>
      rw [otherwise_eq_parse, otherwise_eq_parse]
      exact (Header.parseElse_kept le outer.inClass rest).bind (outer.resume_kept le l.number arm chain)
    · exact (Kept.refl _).bind fun u => u.read_kept le l.number l.lexemes

/-- On the lines: the first one that is not stopped is read as it would be under the higher
limit, and so are all behind it. -/
theorem readAll_same {s : State} {ls : List Line} (passed : ∀ e, s.readAll config ls = .error e →
    e.fault.message ≠ "Nesting too deep") : s.readAll config' ls = s.readAll config ls := by
  induction ls generalizing s with
  | nil => rfl
  | cons l ls ih =>
    rw [readAll_cons] at passed
    have same : s.step config' l = s.step config l :=
      (s.step_kept le l).eq fun f hf => passed ⟨l.number, f⟩ (by rw [hf]; rfl)
    rw [readAll_cons, readAll_cons, same]
    cases read : s.step config l with
    | error f => rfl
    | ok t =>
      rw [read] at passed
      exact ih passed

end State

theorem symbolsOf_same {name : String} {ls : List Line}
    (passed : ∀ e, symbolsOf config name ls = .error e → e.fault.message ≠ "Nesting too deep") :
    symbolsOf config' name ls = symbolsOf config name ls := by
  have read (e : Error) (he : (State.start name).readAll config ls = .error e) :=
    passed e (symbolsOf_eq_error.2 he)
  rw [symbolsOf, symbolsOf, State.readAll_same le read]

theorem ofSource_same {name source : String} (style : config'.indentation = config.indentation)
    (passed : ∀ e, ofSource config name source = .error e →
      e.fault.message ≠ "Nesting too deep") :
    ofSource config' name source = ofSource config name source := by
  rw [ofSource, ofSource, style] at *
  cases scan : tokenize config.indentation source with
  | error e => rfl
  | ok ls =>
    rw [scan] at passed
    have built (e : Error) (he : symbolsOf config name ls = .error e) :=
      passed e (show ofLines config name ls = .error e from bind_eq_error.2 (.inl he))
    simp only [bind, Except.bind, ofLines, symbolsOf_same le built]

end Module

omit le

/-- A higher limit changes nothing but errors for what was too deep: any other result of a module,
a statement or a list of statements is the same under it. -/
theorem same_under_higher_limit {d d' : Nat} (le : d ≤ d') :
    (∀ (style : Indentation) (name source : String),
      (∀ e, Module.ofSource ⟨style, d⟩ name source = .error e →
        e.diagnostic.message ≠ "Nesting too deep") →
      Module.ofSource ⟨style, d'⟩ name source = Module.ofSource ⟨style, d⟩ name source) ∧
    (∀ (inClass : Bool) (line : Nat) (ws : List Lexeme),
      (∀ e, atLine line (Expr.parseStatement ⟨d, inClass⟩ ws) = .error e →
        e.diagnostic.message ≠ "Nesting too deep") →
      atLine line (Expr.parseStatement ⟨d', inClass⟩ ws) =
        atLine line (Expr.parseStatement ⟨d, inClass⟩ ws)) ∧
    ∀ (inClass : Bool) (line : Nat) (ws : List Lexeme),
      (∀ e, atLine line (Expr.parseStatements ⟨d, inClass⟩ ws) = .error e →
        e.diagnostic.message ≠ "Nesting too deep") →
      atLine line (Expr.parseStatements ⟨d', inClass⟩ ws) =
        atLine line (Expr.parseStatements ⟨d, inClass⟩ ws) := by
  refine ⟨fun style name source passed => ?_, fun inClass line ws passed => ?_,
    fun inClass line ws passed => ?_⟩
  · have le' : (Config.mk style d).maxDepth ≤ (Config.mk style d').maxDepth := le
    exact Module.ofSource_same le' rfl passed
  · refine congrArg (atLine line) ((Expr.parseStatement_kept le inClass ws).eq fun f hf => ?_)
    exact passed ⟨line, f⟩ (atLine_eq_error.2 ⟨rfl, hf⟩)
  · refine congrArg (atLine line) ((Expr.parseStatements_kept le inClass ws).eq fun f hf => ?_)
    exact passed ⟨line, f⟩ (atLine_eq_error.2 ⟨rfl, hf⟩)

theorem same_under_higher_limit_class :
    let one := Lexeme.ofLiteral (.int 1)
    let call : List Lexeme := [⟨.openBrace, none⟩, .ofWord "f", ⟨.openBracket, none⟩, one,
      ⟨.closeBracket, none⟩, ⟨.closeBrace, none⟩]
    let tree := Expr.array [.call (.ident ⟨"f", .none⟩) [.literal (.int 1)]]
    let source := "class A\n\tclass B\n\t\tclass C\n\t\t\t1"
    3 ≤ 5 ∧
    (Module.ofSource ⟨.tabs, 3⟩ "m" source = .error ⟨4, .outsideFunction⟩ ∧
      Module.ofSource ⟨.tabs, 5⟩ "m" source = .error ⟨4, .outsideFunction⟩) ∧
    (atLine 7 (Expr.parseStatement ⟨3, false⟩ call) = .ok tree ∧
      atLine 7 (Expr.parseStatement ⟨5, false⟩ call) = .ok tree) ∧
    atLine 7 (Expr.parseStatements ⟨3, false⟩ (call ++ [⟨.comma, none⟩])) =
        .error ⟨7, .emptyStatement⟩ ∧
      atLine 7 (Expr.parseStatements ⟨5, false⟩ (call ++ [⟨.comma, none⟩])) =
        .error ⟨7, .emptyStatement⟩ := by
  intro one call tree source
  obtain ⟨module, statement, statements⟩ := same_under_higher_limit (show 3 ≤ 5 by decide)
  have built : Module.ofSource ⟨.tabs, 3⟩ "m" source = .error ⟨4, .outsideFunction⟩ := by cbv
  have parsed : atLine 7 (Expr.parseStatement ⟨3, false⟩ call) = .ok tree := by cbv
  have dangling : atLine 7 (Expr.parseStatements ⟨3, false⟩ (call ++ [⟨.comma, none⟩])) =
      .error ⟨7, .emptyStatement⟩ := by cbv
  refine ⟨by decide, ⟨built, ?_⟩, ⟨parsed, ?_⟩, dangling, ?_⟩
  · rw [module .tabs "m" _ fun e he => ?_, built]
    rw [built] at he
    cases he
    decide
  · rw [statement false 7 call fun e he => ?_, parsed]
    rw [parsed] at he
    cases he
  · rw [statements false 7 _ fun e he => ?_, dangling]
    rw [dangling] at he
    cases he
    decide

end Offside
