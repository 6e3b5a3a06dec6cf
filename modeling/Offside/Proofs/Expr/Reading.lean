import Offside.Proofs.Expr.Parsed
import Offside.Proofs.Expr.Spelling

/-!
Nothing is lost, doubled or moved on the way from lexemes to trees. Resolution keeps the
spelling of a run, and a frame that is closed is spelled as the element that it becomes, so a
lexeme adds its mark to what the frames spell and no more. Main statement: trees are read as
the lexemes that they were made from, without brackets, braces and commas.
-/

namespace Offside

namespace Expr

def Element.spelling : Element → List Lexeme
  | .operand m => m.expr.spelling
  | .operator (.unary op) => [⟨op.kind, none⟩]
  | .operator (.binary op) => [⟨.operator op, none⟩]
  | .operator (.call arguments _) => ⟨.openBracket, none⟩ :: spellings arguments

theorem resolve_spelling {run : List Element} {m : Measured} (h : resolve run = .ok m) :
    m.expr.spelling = run.flatMap Element.spelling := by
  refine resolved_induct (P := fun run m => m.expr.spelling = run.flatMap Element.spelling)
    (fun m => ?_) (fun _ left op right a m cut _ _ argument whole => ?_)
    (fun _ left op right a b cut _ _ _ first second => ?_)
    (fun _ left arguments _ right c m cut _ _ callee whole => ?_) h
  · simp [Element.spelling]
  · rw [split_eq cut, whole]
    simp [Element.spelling, Measured.unary, spelling, argument]
  · rw [split_eq cut, Measured.binary, spelling, first, second]
    simp [Element.spelling]
  · rw [split_eq cut, whole]
    simp [Element.spelling, Measured.call, spelling, callee]

theorem close_spelling {maxDepth : Nat} {run : List Element} {m : Measured}
    (h : close maxDepth run = .ok m) : m.expr.spelling = run.reverse.flatMap Element.spelling := by
  unfold close at h
  split at h
  · cases h
  · split at h
    · cases h
    · obtain ⟨t, ht, h⟩ := bind_eq_ok.1 h
      split at h
      · cases h
      · cases h
        exact resolve_spelling ht
  · cases h

def Context.spelling : Context → List Lexeme
  | call => [⟨.openBracket, none⟩]
  | array => [⟨.openBrace, none⟩]
  | _ => []

namespace Frame

variable {f g : Frame} {maxDepth : Nat}

def spelling (f : Frame) : List Lexeme :=
  f.context.spelling ++ f.closed.reverse.flatMap (·.expr.spelling) ++
    f.run.reverse.flatMap Element.spelling

theorem spelling_fresh (c : Context) : spelling ⟨c, [], []⟩ = c.spelling := by
  simp [spelling]

theorem spelling_push (e : Element) (f : Frame) :
    (f.push e).spelling = f.spelling ++ e.spelling := by
  simp [spelling, push]

theorem spelling_closeStatement (h : f.closeStatement maxDepth = .ok g) :
    g.spelling = f.spelling ∧ g.lastGroup? = none := by
  obtain ⟨m, hm, eq⟩ := bind_eq_ok.1 h
  cases eq
  refine ⟨?_, rfl⟩
  simp [spelling, close_spelling hm]

theorem spelling_separate (h : f.separate maxDepth = .ok g) : g.spelling = f.spelling := by
  unfold separate at h
  split at h
  · split at h
    · exact (spelling_closeStatement h).1
    · cases h
  · cases h
    rfl

theorem spelling_statements {ms : List Measured} (h : f.statements maxDepth = .ok ms) :
    f.spelling = f.context.spelling ++ spellings (ms.map (·.expr)) := by
  unfold statements at h
  split at h
  · next empty =>
    cases h
    simp only [Bool.and_eq_true, List.isEmpty_iff] at empty
    simp [spelling, empty, spellings]
  · obtain ⟨m, hm, eq⟩ := bind_eq_ok.1 h
    cases eq
    simp [spelling, close_spelling hm, spellings_eq_flatMap]
    rw [← List.map_reverse, List.flatMap_map]

theorem lastGroup?_push_element {e : Element} (h : f.element maxDepth = .ok e) (g : Frame) :
    (g.push e).lastGroup? = some .argument := by
  unfold element at h
  split at h <;>
  · obtain ⟨_, _, eq⟩ := bind_eq_ok.1 h
    cases eq
    rfl

theorem spelling_element {e : Element} (h : f.element maxDepth = .ok e)
    (inner : f.context = .group ∧ f.closed = [] ∨ f.context = .call ∨ f.context = .array) :
    e.spelling = f.spelling := by
  unfold element at h
  rcases inner with ⟨context, closed⟩ | context | context
  · rw [context] at h
    obtain ⟨m, hm, eq⟩ := bind_eq_ok.1 h
    cases eq
    simp [spelling, context, closed, Context.spelling, Element.spelling, close_spelling hm]
  · rw [context] at h
    obtain ⟨ms, hms, eq⟩ := bind_eq_ok.1 h
    cases eq
    rw [spelling_statements hms, context]
    rfl
  · rw [context] at h
    obtain ⟨ms, hms, eq⟩ := bind_eq_ok.1 h
    cases eq
    rw [spelling_statements hms, context]
    rfl

theorem HasRead.closed_eq_nil {s : Setting} {level : Nat} {ws : List Lexeme}
    (h : f.HasRead s level ws) (single : f.context.isList = false) : f.closed = [] := by
  cases h with
  | first => rfl
  | comma list | adjacent list =>
    rw [list] at single
    cases single

end Frame

namespace State

variable {s : Setting} {whole : Context} {f g : Frame} {outer : List Frame} {ws : List Lexeme}

def spelling (st : State) : List Lexeme :=
  st.outer.reverse.flatMap Frame.spelling ++ st.frame.spelling

theorem spelling_push (e : Element) (st : State) :
    (st.push e).spelling = st.spelling ++ e.spelling := by
  rw [spelling, push, Frame.spelling_push, ← List.append_assoc]
  rfl

def afterOperand (st : State) : Bool :=
  st.frame.lastGroup? = some .argument

theorem HasRead.inner_context (h : HasRead s whole ⟨f, g :: outer⟩ ws) :
    f.context = .group ∧ f.closed = [] ∨ f.context = .call ∨ f.context = .array := by
  cases h with
  | inner opens lt read back =>
    rcases opens with ⟨-, context | context⟩ | ⟨-, context⟩
    · exact .inl ⟨context, read.closed_eq_nil (by rw [context]; rfl)⟩
    · exact .inr (.inl context)
    · exact .inr (.inr context)

end State

section Step

variable {s : Setting} {whole : Context} {st st' : State} {l : Lexeme} {ws vs : List Lexeme}

theorem operand_spelling {e : Expr} (kind : l.kind.isOperand = true)
    (h : operand s.inClass l = .ok e) : e.spelling = [l.bare] := by
  rcases operand_eq_ok.1 h with ⟨i, payload, -, rfl⟩ | ⟨x, payload, rfl⟩ <;>
  · rw [Lexeme.bare_of_operand kind payload]
    rfl

theorem step_operand_spelling (kind : l.kind.isOperand = true) (word : l.kind.isSeparator = false)
    (h : step s st l = .ok st') :
    st'.spelling = st.spelling ++ l.mark st.afterOperand ∧ st'.afterOperand = true := by
  rw [step_operand kind] at h
  obtain ⟨g, hg, h⟩ := bind_eq_ok.1 h
  obtain ⟨e, he, h⟩ := bind_eq_ok.1 h
  cases h
  refine ⟨?_, rfl⟩
  rw [Lexeme.mark_of_not_separator word, ← operand_spelling kind he]
  rw [State.spelling, Frame.spelling_push, Frame.spelling_separate hg, ← List.append_assoc]
  rfl

theorem step_operator_spelling {e : Element} (kind : l.kind.isOperator = true)
    (he : e.spelling = [⟨l.kind, none⟩]) :
    (st.push e).spelling = st.spelling ++ l.mark st.afterOperand := by
  have other : l.kind.isOperand = false ∧ l.kind.isSeparator = false := by
    cases hk : l.kind <;> rw [hk] at kind <;> first | exact ⟨rfl, rfl⟩ | cases kind
  rw [State.spelling_push, he, Lexeme.mark_of_not_separator other.2,
    Lexeme.bare_of_not_operand other.1]

theorem step_close_spelling {closes : Context → Bool} {fault : Fault}
    (kind : l.kind = .closeBracket ∨ l.kind = .closeBrace ∨ l.kind = .comma)
    (h : st.leave s.maxDepth closes fault = .ok st') (hst : st.HasRead s whole ws) :
    st'.spelling = st.spelling ++ l.mark st.afterOperand ∧ st'.afterOperand = true := by
  obtain ⟨f, outer⟩ := st
  obtain ⟨g, outer, e, eq, -, he, rfl⟩ := leave_eq_ok h
  cases eq
  have same := Frame.spelling_element he hst.inner_context
  have last := Frame.lastGroup?_push_element he g
  rw [Lexeme.mark_closing kind]
  refine ⟨?_, by simp [State.afterOperand, last]⟩
  simp [State.spelling, Frame.spelling_push, same]

theorem step_spelling (hst : st.HasRead s whole ws) (h : step s st l = .ok st') :
    st'.spelling = st.spelling ++ l.mark st.afterOperand ∧
      st'.afterOperand = l.kind.endsOperand := by
  cases kind : l.kind with
  | name | literal => exact step_operand_spelling (by rw [kind]; rfl) (by rw [kind]; rfl) h
  | openBracket =>
    simp only [step, kind] at h
    obtain ⟨-, rfl⟩ := enter_eq_ok h
    refine ⟨?_, rfl⟩
    rw [Lexeme.mark_openBracket kind, State.afterOperand]
    by_cases last : st.frame.lastGroup? = some .argument
    · simp [State.spelling, last, bracketContext, Frame.spelling_fresh, Context.spelling]
    · simp [State.spelling, last, bracketContext_of_ne last, Frame.spelling_fresh,
        Context.spelling]
  | openBrace =>
    simp only [step, kind] at h
    obtain ⟨g, hg, h⟩ := bind_eq_ok.1 h
    obtain ⟨-, rfl⟩ := enter_eq_ok h
    refine ⟨?_, rfl⟩
    rw [Lexeme.mark_openBrace kind]
    simp [State.spelling, Frame.spelling_separate hg, Frame.spelling_fresh, Context.spelling]
  | closeBracket =>
    simp only [step, kind] at h
    exact step_close_spelling (.inl kind) h hst
  | closeBrace =>
    simp only [step, kind] at h
    exact step_close_spelling (.inr (.inl kind)) h hst
  | comma =>
    simp only [step, kind] at h
    split at h
    · obtain ⟨g, hg, eq⟩ := bind_eq_ok.1 h
      cases eq
      obtain ⟨same, last⟩ := Frame.spelling_closeStatement hg
      rw [Lexeme.mark_closing (.inr (.inr kind))]
      simp [State.spelling, State.afterOperand, same, last, Kind.endsOperand]
    · cases h
  | not | bitNot =>
    simp only [step, kind] at h
    obtain ⟨e, he, eq⟩ := bind_eq_ok.1 h
    obtain ⟨-, rfl⟩ := unaryElement_eq_ok he
    cases eq
    exact ⟨step_operator_spelling (by rw [kind]; rfl) (by rw [kind]; rfl), rfl⟩
  | operator op =>
    simp only [step, kind] at h
    obtain ⟨e, he, eq⟩ := bind_eq_ok.1 h
    cases eq
    rcases binaryElement_eq_ok he with ⟨-, rfl⟩ | ⟨-, rfl, rfl⟩
    · exact ⟨step_operator_spelling (by rw [kind]; rfl) (by rw [kind]; rfl), rfl⟩
    · exact ⟨step_operator_spelling (by rw [kind]; rfl) (by rw [kind]; rfl), rfl⟩
  | keyword k =>
    simp only [step, kind] at h
    cases h

theorem run_spelling (hst : st.HasRead s whole ws) (h : run s st vs = .ok st') :
    st'.spelling = st.spelling ++ Lexeme.marks st.afterOperand vs := by
  induction vs generalizing st ws with
  | nil =>
    cases h
    simp [Lexeme.marks]
  | cons l vs ih =>
    rw [run, List.foldlM_cons] at h
    obtain ⟨next, hl, h⟩ := bind_eq_ok.1 h
    obtain ⟨spelled, after⟩ := step_spelling hst hl
    rw [ih (step_hasRead hl hst) h, spelled, after, Lexeme.marks, List.append_assoc]

theorem finish_spelling {f : Frame} (h : st.finish = .ok f) (hst : st.HasRead s whole ws) :
    st.spelling = f.spelling := by
  unfold State.finish at h
  cases hst with
  | outermost context read =>
    split at h
    · cases h
    · cases h
      rfl
  | @inner g _ _ _ _ _ opens =>
    rcases opens with ⟨_, context | context⟩ | ⟨_, context⟩ <;>
      simp [context, Context.unclosed?] at h

theorem line_spelling {f : Frame} (hst : run s (.start whole) ws = .ok st)
    (hf : st.finish = .ok f) : f.context = whole ∧ f.HasRead s 0 ws ∧
      f.spelling = whole.spelling ++ Lexeme.marks false ws := by
  have start := State.HasRead.start (s := s) whole
  have read := run_hasRead hst start
  obtain ⟨context, held⟩ := finish_hasRead hf read
  refine ⟨context, held, ?_⟩
  rw [← finish_spelling hf read, run_spelling start hst, State.start, State.spelling,
    Frame.spelling_fresh]
  rfl

end Step

/-- What trees have in common with the lexemes that they were made from. -/
structure Accounts (es : List Expr) (ws : List Lexeme) : Prop where
  reading : readings es = (ws.filter fun l => !l.kind.isSeparator).map Lexeme.bare
  verbatim : (∀ l ∈ ws, l.kind.isSeparator = false → l.bare = l) →
    readings es = ws.filter fun l => !l.kind.isSeparator
  leaves : leafCounts es = ws.countP (·.kind.isOperand)
  inner : innerCounts es =
    ws.countP (·.kind.isOperator) + ws.countP (·.kind = .openBrace) + Lexeme.callCount ws

theorem accounts_of_spelling {es : List Expr} {ws : List Lexeme}
    (h : spellings es = Lexeme.marks false ws) : Accounts es ws where
  reading := by rw [← filter_spellings, h, Lexeme.filter_marks]
  verbatim bare := by
    rw [← filter_spellings, h, Lexeme.filter_marks]
    refine (List.map_congr_left fun l hl => ?_).trans (List.map_id _)
    obtain ⟨mem, kept⟩ := List.mem_filter.1 hl
    exact bare l mem (by simpa using kept)
  leaves := by rw [← (countP_spellings es).1, h, Lexeme.countP_marks_operand]
  inner := by rw [← (countP_spellings es).2, h, Lexeme.countP_marks_inner_false]

/-- Parsing loses, doubles and moves nothing: a tree, or a list of them, reads as its lexemes do
without separators, and has a node for each operand, operator, array and call among them. -/
theorem parse_reading (s : Setting) (ws : List Lexeme) :
    (∀ e, parseStatement s ws = .ok e → Accounts [e] ws) ∧
    (∀ es, parseStatements s ws = .ok es → Accounts es ws) := by
  refine ⟨fun e h => ?_, fun es h => ?_⟩
  · obtain ⟨st, hst, h⟩ := bind_eq_ok.1 h
    obtain ⟨f, hf, h⟩ := bind_eq_ok.1 h
    obtain ⟨m, hm, eq⟩ := bind_eq_ok.1 h
    cases eq
    obtain ⟨context, held, spelled⟩ := line_spelling hst hf
    have closed := held.closed_eq_nil (by rw [context]; rfl)
    apply accounts_of_spelling
    rw [spellings, spellings, close_spelling hm]
    simpa [Frame.spelling, context, closed, Context.spelling] using spelled
  · obtain ⟨st, hst, h⟩ := bind_eq_ok.1 h
    obtain ⟨f, hf, h⟩ := bind_eq_ok.1 h
    obtain ⟨ms, hms, eq⟩ := bind_eq_ok.1 h
    cases eq
    obtain ⟨context, -, spelled⟩ := line_spelling hst hf
    apply accounts_of_spelling
    rw [Frame.spelling_statements hms, context] at spelled
    exact List.append_cancel_left spelled

theorem parse_reading_call :
    let ws : List Lexeme := [.ofIdent ⟨"f", .none⟩, ⟨.openBracket, none⟩,
      ⟨.operator .subtract, none⟩, .ofIdent ⟨"x", .none⟩, ⟨.closeBracket, none⟩,
      ⟨.operator .subtract, none⟩, ⟨.openBrace, none⟩, .ofLiteral (.int 1), ⟨.comma, none⟩,
      .ofIdent ⟨"y", .none⟩, ⟨.closeBrace, none⟩]
    let e : Expr := .binary .subtract
      (.call (.ident ⟨"f", .none⟩) [.unary .negate (.ident ⟨"x", .none⟩)])
      (.array [.literal (.int 1), .ident ⟨"y", .none⟩])
    parseStatement ⟨8, false⟩ ws = .ok e ∧ Accounts [e] ws := by
  intro ws e
  have parses : parseStatement ⟨8, false⟩ ws = .ok e := by
    cbv
  exact ⟨parses, (parse_reading ⟨8, false⟩ ws).1 e parses⟩

end Expr

end Offside
