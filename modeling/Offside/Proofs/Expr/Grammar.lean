import Offside.Expr.Parse
import Offside.Result
import Offside.Proofs.Expr.Climbing

/-!
The grammar of expressions. A derivation takes a stretch of lexemes as a phrase, within the
limits on brackets around it, on the operators of a statement and on the depth of its tree;
the tree of a statement is the one that climbing gives for the run of its elements.
-/

namespace Offside

/-- The operator that a lexeme stands for in front of an operand. -/
def Kind.sign? : Kind → Option UnaryOp
  | not => some .not
  | bitNot => some .bitNot
  | operator .subtract => some .negate
  | _ => none

def Kind.isOperand : Kind → Bool
  | name | literal => true
  | _ => false

/-- Does the first lexeme begin a statement by itself, without a comma before it? -/
def opensStatement : List Lexeme → Bool
  | l :: _ => l.kind.isOperand || l.kind = .openBrace
  | [] => false

namespace Expr

/-- What a stretch of lexemes may be: a whole statement or list, with what it means, or a
part of a statement, with the elements that it adds to the run. -/
inductive Phrase
  | primary (e : Expr)
  | call (arguments : List Expr)
  | applied (run : List Element)
  | unit (run : List Element)
  | chain (run : List Element)
  | statement (e : Expr)
  | statements (es : List Expr)
  | list (es : List Expr)

/-- `Derives s level p ws`: inside `level` brackets, `ws` is the phrase `p`. -/
inductive Derives (s : Setting) : Nat → Phrase → List Lexeme → Prop
  | name {level l i} : l.kind.isOperand = true → l.payload = some (.name i) →
      (i.sigil = .member → s.inClass = true) → Derives s level (.primary (.ident i)) [l]
  | literal {level l x} : l.kind.isOperand = true → l.payload = some (.literal x) →
      Derives s level (.primary (.literal x)) [l]
  | group {level o c e ws} : o.kind = .openBracket → c.kind = .closeBracket →
      level < s.maxDepth → Derives s (level + 1) (.statement e) ws →
      Derives s level (.primary e) (o :: ws ++ [c])
  | array {level o c es ws} : o.kind = .openBrace → c.kind = .closeBrace →
      level < s.maxDepth → Derives s (level + 1) (.list es) ws →
      Derives s level (.primary (.array es)) (o :: ws ++ [c])
  | call {level o c es ws} : o.kind = .openBracket → c.kind = .closeBracket →
      level < s.maxDepth → Derives s (level + 1) (.list es) ws →
      Derives s level (.call es) (o :: ws ++ [c])
  | uncalled {level e ws} : Derives s level (.primary e) ws →
      Derives s level (.applied [.operand (.of e)]) ws
  | called {level run es ws vs} : Derives s level (.applied run) ws →
      Derives s level (.call es) vs →
      Derives s level (.applied (run ++ [.operator (.call es (depths es))])) (ws ++ vs)
  | unsigned {level run ws} : Derives s level (.applied run) ws → Derives s level (.unit run) ws
  | signed {level l op run ws} : l.kind.sign? = some op → Derives s level (.unit run) ws →
      Derives s level (.unit (.operator (.unary op) :: run)) (l :: ws)
  | alone {level run ws} : Derives s level (.unit run) ws → Derives s level (.chain run) ws
  | joined {level l op run ws run' vs} : Derives s level (.chain run) ws →
      l.kind = .operator op → Derives s level (.unit run') vs →
      Derives s level (.chain (run ++ .operator (.binary op) :: run')) (ws ++ l :: vs)
  | statement {level run m ws} : Derives s level (.chain run) ws →
      run.countP (·.isOperator) ≤ s.maxDepth → climbAll run = some m →
      m.expr.depth ≤ s.maxDepth → Derives s level (.statement m.expr) ws
  | single {level e ws} : Derives s level (.statement e) ws →
      Derives s level (.statements [e]) ws
  | comma {level l es e ws vs} : Derives s level (.statements es) ws → l.kind = .comma →
      Derives s level (.statement e) vs →
      Derives s level (.statements (es ++ [e])) (ws ++ l :: vs)
  | adjacent {level es e ws vs} : Derives s level (.statements es) ws →
      opensStatement vs = true → Derives s level (.statement e) vs →
      Derives s level (.statements (es ++ [e])) (ws ++ vs)
  | empty {level} : Derives s level (.list []) []
  | nonempty {level es ws} : Derives s level (.statements es) ws → Derives s level (.list es) ws

def Phrase.run? : Phrase → Option (List Element)
  | applied run | unit run | chain run => some run
  | _ => none

variable {s : Setting} {level : Nat} {run : List Element} {ws vs : List Lexeme}

theorem Derives.run_wellFormed {p : Phrase} (h : Derives s level p ws)
    (hp : p.run? = some run) : IsRun run ∧ ∀ e ∈ run, e.Exact := by
  induction h generalizing run with
  | uncalled =>
    cases hp
    refine ⟨trivial, ?_⟩
    simp [Element.Exact, Element.Holds, Measured.of_exact]
  | called _ _ ih =>
    cases hp
    obtain ⟨isRun, exact⟩ := ih rfl
    refine ⟨isRun.append trivial, List.forall_mem_append.2 ⟨exact, ?_⟩⟩
    simp [Element.Exact, Element.Holds]
  | unsigned _ ih | alone _ ih => exact ih hp
  | signed _ _ ih =>
    cases hp
    obtain ⟨isRun, exact⟩ := ih rfl
    exact ⟨isRun, List.forall_mem_cons.2 ⟨trivial, exact⟩⟩
  | joined _ _ _ ihl ihr =>
    cases hp
    obtain ⟨hl, exactl⟩ := ihl rfl
    obtain ⟨hr, exactr⟩ := ihr rfl
    refine ⟨hl.append hr, List.forall_mem_append.2 ⟨exactl, ?_⟩⟩
    exact List.forall_mem_cons.2 ⟨trivial, exactr⟩
  | _ => cases hp

theorem lastGroup?_eq_argument (h : IsRun run) (before : List Element) :
    lastGroup? (run.reverse ++ before) = some .argument := by
  rcases List.eq_nil_or_concat run with rfl | ⟨front, last, rfl⟩
  · exact h.elim
  · rw [List.concat_eq_append] at h ⊢
    rw [List.reverse_append, List.reverse_singleton, List.append_assoc, List.singleton_append]
    rcases (place_of_cut front [last]).1 h with ⟨operand, _⟩ | ⟨tail, _⟩
    · match last, operand with
      | .operand m, _ => rfl
    · match last, tail with
      | .operator (.call ..), _ => rfl

theorem climbAll_exact {m : Measured} (h : IsRun run) (exact : ∀ e ∈ run, e.Exact)
    (climbs : climbAll run = some m) : m.Exact :=
  resolve_exact h exact ((climbAll_eq_some_iff h).1 climbs)

theorem close_eq_ok (h : IsRun run) (parts : ∀ e ∈ run, e.Exact) {maxDepth : Nat}
    {m : Measured} : close maxDepth run.reverse = .ok m ↔
      run.countP (·.isOperator) ≤ maxDepth ∧ m.expr.depth ≤ maxDepth ∧ climbAll run = some m := by
  obtain ⟨t, climbs, resolves⟩ := climbAll_eq_resolve h
  have exact : t.Exact := resolve_exact h parts resolves
  have argument := lastGroup?_eq_argument h []
  rw [List.append_nil] at argument
  simp only [close, argument, List.countP_reverse, List.reverse_reverse, resolves, climbs,
    Option.some.injEq]
  by_cases many : maxDepth < run.countP (·.isOperator)
  · rw [if_pos many]
    exact ⟨fun h => by simp at h, fun h => absurd h.1 (Nat.not_le.2 many)⟩
  · rw [if_neg many, bind_eq_ok]
    constructor
    · rintro ⟨_, ⟨⟩, h⟩
      split at h
      · simp at h
      · next deep =>
        cases h
        exact ⟨Nat.not_lt.1 many, exact ▸ Nat.not_lt.1 deep, rfl⟩
    · rintro ⟨_, deep, rfl⟩
      exact ⟨t, rfl, if_neg (Nat.not_lt.2 (exact.symm ▸ deep))⟩

theorem operand_eq_ok {inClass : Bool} {l : Lexeme} {e : Expr} :
    operand inClass l = .ok e ↔
      (∃ i, l.payload = some (.name i) ∧ (i.sigil = .member → inClass = true) ∧ e = .ident i) ∨
      ∃ x, l.payload = some (.literal x) ∧ e = .literal x := by
  unfold operand
  split
  · next none => simp [none]
  · next x payload => simp [payload, eq_comm]
  · next i payload =>
    split
    · next member => simp [payload, member]
    · next allowed =>
      have permitted : i.sigil = .member → inClass = true := by simpa using allowed
      constructor
      · rintro ⟨⟩
        exact .inl ⟨i, payload, permitted, rfl⟩
      · rintro (⟨j, other, _, rfl⟩ | ⟨x, other, _⟩)
        · cases payload.symm.trans other
          rfl
        · cases payload.symm.trans other

end Expr

end Offside
