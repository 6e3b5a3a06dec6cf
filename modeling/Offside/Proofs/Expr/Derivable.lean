import Offside.Proofs.Expr.Grammar

/-!
Whatever the grammar derives is parsed. Reading a phrase adds its elements to the frame in
which it stands and leaves the frames around it alone.
-/

namespace Offside.Expr

namespace Measured

theorem map_of_expr (es : List Expr) : (es.map of).map (·.expr) = es := by
  rw [List.map_map]
  exact List.map_id es

theorem deepest_of (es : List Expr) : deepest (es.map of) = depths es := by
  have exact : ∀ m ∈ es.map of, m.Exact := by simp [of_exact]
  rw [deepest_exact exact, map_of_expr]

theorem array_of (es : List Expr) : array (es.map of) = of (.array es) := by
  have exact : ∀ m ∈ es.map of, m.Exact := by simp [of_exact]
  rw [eq_of (array_exact exact), array, map_of_expr]

end Measured

variable {s : Setting} {level : Nat} {ws vs : List Lexeme}

section Steps

variable {st st' : State} {l : Lexeme} {f g : Frame} {outer : List Frame}

theorem run_cons (h : step s st l = .ok st') (ws : List Lexeme) :
    run s st (l :: ws) = run s st' ws := by
  rw [run, List.foldlM_cons, h]
  rfl

theorem run_singleton (h : step s st l = .ok st') : run s st [l] = .ok st' :=
  run_cons h []

theorem run_append_of_ok (h : run s st ws = .ok st') (vs : List Lexeme) :
    run s st (ws ++ vs) = run s st' vs := by
  rw [run_append, h]
  rfl

theorem separate_of_ne (h : f.lastGroup? ≠ some .argument) :
    f.separate s.maxDepth = .ok f := if_neg h

theorem step_operand (h : l.kind.isOperand = true) (st : State) :
    step s st l = st.frame.separate s.maxDepth >>= fun frame =>
      operand s.inClass l >>= fun leaf =>
        .ok { st with frame := frame.push (.operand (.leaf leaf)) } := by
  unfold step
  cases hk : l.kind with
  | name | literal => rfl
  | _ => rw [hk] at h; cases h

theorem step_leaf (h : l.kind.isOperand = true) (last : f.lastGroup? ≠ some .argument) {leaf : Expr}
    (given : operand s.inClass l = .ok leaf) :
    step s ⟨f, outer⟩ l = .ok ⟨f.push (.operand (.leaf leaf)), outer⟩ := by
  rw [step_operand h, separate_of_ne last, given]
  rfl

theorem bracketContext_of_ne {g : Option Group} (h : g ≠ some .argument) :
    bracketContext g = .group := by
  unfold bracketContext
  split
  · contradiction
  · rfl

theorem step_openBracket (h : l.kind = .openBracket) (lt : outer.length < s.maxDepth) :
    step s ⟨f, outer⟩ l = .ok ⟨⟨bracketContext f.lastGroup?, [], []⟩, f :: outer⟩ := by
  simp only [step, h]
  exact if_neg (Nat.not_le.2 lt)

theorem step_openBrace (h : l.kind = .openBrace) (lt : outer.length < s.maxDepth)
    (hf : f.separate s.maxDepth = .ok g) :
    step s ⟨f, outer⟩ l = .ok ⟨⟨.array, [], []⟩, g :: outer⟩ := by
  simp only [step, h, hf]
  exact if_neg (Nat.not_le.2 lt)

theorem step_closeBracket (h : l.kind = .closeBracket) {e : Element}
    (context : f.context = .group ∨ f.context = .call) (he : f.element s.maxDepth = .ok e) :
    step s ⟨f, g :: outer⟩ l = .ok ⟨g.push e, outer⟩ := by
  simp only [step, h, State.leave, he]
  exact if_pos (by simpa using context)

theorem step_closeBrace (h : l.kind = .closeBrace) {e : Element} (context : f.context = .array)
    (he : f.element s.maxDepth = .ok e) :
    step s ⟨f, g :: outer⟩ l = .ok ⟨g.push e, outer⟩ := by
  simp only [step, h, State.leave, he]
  exact if_pos (by simpa using context)

theorem run_bracket {inner inner' : Frame} {last : Lexeme} {e : Element}
    (opened : step s ⟨f, outer⟩ l = .ok ⟨inner, g :: outer⟩)
    (read : run s ⟨inner, g :: outer⟩ ws = .ok ⟨inner', g :: outer⟩)
    (closed : step s ⟨inner', g :: outer⟩ last = .ok ⟨g.push e, outer⟩) :
    run s ⟨f, outer⟩ (l :: ws ++ [last]) = .ok ⟨g.push e, outer⟩ := by
  rw [List.cons_append, run_cons opened, run_append_of_ok read]
  exact run_singleton closed

theorem step_comma (h : l.kind = .comma) (list : f.context.isList = true) {m : Measured}
    (hm : close s.maxDepth f.run = .ok m) :
    step s ⟨f, outer⟩ l = .ok ⟨⟨f.context, m :: f.closed, []⟩, outer⟩ := by
  simp only [step, h, list, if_true, Frame.closeStatement, hm]
  rfl

theorem step_sign {op : UnaryOp} (h : l.kind.sign? = some op)
    (last : lastGroup? f.run ≠ some .argument) :
    step s ⟨f, outer⟩ l = .ok ⟨f.push (.operator (.unary op)), outer⟩ := by
  have unary (op : UnaryOp) : unaryElement op f.lastGroup? = .ok (.operator (.unary op)) := by
    unfold unaryElement
    split
    · contradiction
    · rfl
  have minus : binaryElement .subtract f.lastGroup? = .ok (.operator (.unary .negate)) := by
    unfold binaryElement
    split
    · contradiction
    · rfl
  unfold Kind.sign? at h
  split at h
  · next kind => cases h; simp only [step, kind, unary]; rfl
  · next kind => cases h; simp only [step, kind, unary]; rfl
  · next kind => cases h; simp only [step, kind, minus]; rfl
  · cases h

theorem step_binary {op : BinaryOp} (h : l.kind = .operator op)
    (last : lastGroup? f.run = some .argument) :
    step s ⟨f, outer⟩ l = .ok ⟨f.push (.operator (.binary op)), outer⟩ := by
  simp only [step, h, Frame.lastGroup?, last, binaryElement]
  rfl

theorem lastGroup?_of_close {maxDepth : Nat} {es : List Element} {m : Measured}
    (h : close maxDepth es = .ok m) : lastGroup? es = some .argument := by
  unfold close at h
  split at h
  · simp at h
  · next last => exact last
  · simp at h

theorem statements_of_close {m : Measured} (h : close s.maxDepth f.run = .ok m) :
    f.statements s.maxDepth = .ok (m :: f.closed).reverse := by
  have nonempty : f.run.isEmpty = false := by
    have := lastGroup?_of_close h
    cases hr : f.run with
    | nil => simp [hr, lastGroup?] at this
    | cons e es => rfl
  simp only [Frame.statements, nonempty, h, Bool.false_and, Bool.false_eq_true, if_false]
  rfl

theorem run_opensStatement (h : opensStatement ws = true) (list : f.context.isList = true)
    {m : Measured} (hm : close s.maxDepth f.run = .ok m) :
    run s ⟨f, outer⟩ ws = run s ⟨⟨f.context, m :: f.closed, []⟩, outer⟩ ws := by
  have fresh : Frame.separate s.maxDepth ⟨f.context, m :: f.closed, []⟩ =
      .ok ⟨f.context, m :: f.closed, []⟩ := rfl
  have separated : f.separate s.maxDepth = .ok ⟨f.context, m :: f.closed, []⟩ := by
    simp only [Frame.separate, Frame.lastGroup?, lastGroup?_of_close hm, list, if_true,
      Frame.closeStatement, hm]
    rfl
  match ws, h with
  | l :: rest, h =>
    have same : step s ⟨f, outer⟩ l = step s ⟨⟨f.context, m :: f.closed, []⟩, outer⟩ l := by
      rw [opensStatement, Bool.or_eq_true, decide_eq_true_eq] at h
      rcases h with operand | brace
      · rw [step_operand operand, step_operand operand, separated, fresh]
      · simp only [step, brace, separated, fresh]
    rw [run, List.foldlM_cons, same]
    rfl

end Steps

/-- Reading a phrase, as an operand of the frame, as a call in it, as a stretch of its run,
as its only statement, or as all that it holds. -/
def Reads (s : Setting) (level : Nat) (ws : List Lexeme) : Phrase → Prop
  | .primary e => ∀ f outer, outer.length = level → Frame.lastGroup? f ≠ some .argument →
      run s ⟨f, outer⟩ ws = .ok ⟨f.push (.operand (.of e)), outer⟩
  | .call es => ∀ f outer, outer.length = level → Frame.lastGroup? f = some .argument →
      run s ⟨f, outer⟩ ws = .ok ⟨f.push (.operator (.call es (depths es))), outer⟩
  | .applied es | .unit es | .chain es => ∀ c closed before outer, outer.length = level →
      lastGroup? before ≠ some .argument →
      run s ⟨⟨c, closed, before⟩, outer⟩ ws = .ok ⟨⟨c, closed, es.reverse ++ before⟩, outer⟩
  | .statement e => ∀ c closed outer, outer.length = level → ∃ es,
      run s ⟨⟨c, closed, []⟩, outer⟩ ws = .ok ⟨⟨c, closed, es⟩, outer⟩ ∧
        close s.maxDepth es = .ok (.of e)
  | .statements es => ∀ c outer, outer.length = level → c.isList = true → ∃ closed last m,
      run s ⟨⟨c, [], []⟩, outer⟩ ws = .ok ⟨⟨c, closed, last⟩, outer⟩ ∧
        close s.maxDepth last = .ok m ∧ (m :: closed).reverse = es.map .of
  | .list es => ∀ c outer, outer.length = level → c.isList = true → ∃ closed last,
      run s ⟨⟨c, [], []⟩, outer⟩ ws = .ok ⟨⟨c, closed, last⟩, outer⟩ ∧
        Frame.statements s.maxDepth ⟨c, closed, last⟩ = .ok (es.map .of)

theorem Reads.behind {es : List Expr} {e : Expr} {next : List Lexeme}
    (hl : Reads s level ws (.statements es)) (hr : Reads s level vs (.statement e))
    (closes : ∀ (f : Frame) outer m, f.context.isList = true → close s.maxDepth f.run = .ok m →
      run s ⟨f, outer⟩ next = run s ⟨⟨f.context, m :: f.closed, []⟩, outer⟩ vs) :
    Reads s level (ws ++ next) (.statements (es ++ [e])) := by
  intro c outer length list
  obtain ⟨closed, last, m, read, complete, eq⟩ := hl c outer length list
  obtain ⟨es, read', complete'⟩ := hr c (m :: closed) outer length
  refine ⟨m :: closed, es, _, ?_, complete', ?_⟩
  · rw [run_append_of_ok read, closes ⟨c, closed, last⟩ outer m list complete]
    exact read'
  · rw [List.reverse_cons, eq, List.map_append, List.map_singleton]

theorem reads_of_derives {p : Phrase} (h : Derives s level p ws) : Reads s level ws p := by
  induction h with
  | name kind payload member =>
    intro f outer _ last
    exact run_singleton (step_leaf kind last (operand_eq_ok.2 (.inl ⟨_, payload, member, rfl⟩)))
  | literal kind payload =>
    intro f outer _ last
    exact run_singleton (step_leaf kind last (operand_eq_ok.2 (.inr ⟨_, payload, rfl⟩)))
  | group ho hc lt _ ih =>
    intro f outer length last
    obtain ⟨es, read, closes⟩ := ih .group [] (f :: outer) (by simp [length])
    have opened := step_openBracket (s := s) (f := f) ho (length.symm ▸ lt)
    rw [bracketContext_of_ne last] at opened
    refine run_bracket opened read (step_closeBracket hc (.inl rfl) ?_)
    simp only [Frame.element, closes]
    rfl
  | array ho hc lt _ ih =>
    intro f outer length last
    obtain ⟨closed, es, read, list⟩ := ih .array (f :: outer) (by simp [length]) rfl
    have opened := step_openBrace (s := s) ho (length.symm ▸ lt) (separate_of_ne last)
    refine run_bracket opened read (step_closeBrace hc rfl ?_)
    simp only [Frame.element, list]
    exact congrArg (fun m => Except.ok (Element.operand m)) (Measured.array_of _)
  | call ho hc lt _ ih =>
    intro f outer length last
    obtain ⟨closed, es, read, list⟩ := ih .call (f :: outer) (by simp [length]) rfl
    have opened := step_openBracket (s := s) (f := f) ho (length.symm ▸ lt)
    rw [last] at opened
    refine run_bracket opened read (step_closeBracket hc (.inr rfl) ?_)
    simp only [Frame.element, list, bind, Except.bind, Measured.map_of_expr,
      Measured.deepest_of]
    rfl
  | uncalled _ ih => exact fun c closed before outer length last => ih _ outer length last
  | called hl _ ihl ihr =>
    intro c closed before outer length last
    rw [run_append_of_ok (ihl c closed before outer length last)]
    have argument := lastGroup?_eq_argument (hl.run_wellFormed rfl).1 before
    rw [ihr ⟨c, closed, _⟩ outer length argument]
    simp [Frame.push]
  | unsigned _ ih | alone _ ih => exact ih
  | signed sign _ ih =>
    intro c closed before outer length last
    rw [run_cons (step_sign (f := ⟨c, closed, before⟩) sign last)]
    rw [Frame.push, ih c closed _ outer length (by simp [lastGroup?])]
    simp
  | joined hl op _ ihl ihr =>
    intro c closed before outer length last
    rw [run_append_of_ok (ihl c closed before outer length last)]
    have argument := lastGroup?_eq_argument (hl.run_wellFormed rfl).1 before
    rw [run_cons (step_binary (f := ⟨c, closed, _⟩) op argument)]
    rw [Frame.push, ihr c closed _ outer length (by simp [lastGroup?])]
    simp
  | statement hc many climbs deep ih =>
    intro c closed outer length
    obtain ⟨isRun, parts⟩ := hc.run_wellFormed rfl
    have exact := climbAll_exact isRun parts climbs
    refine ⟨_, ih c closed [] outer length (by simp [lastGroup?]), ?_⟩
    rw [List.append_nil, ← Measured.eq_of exact]
    exact (close_eq_ok isRun parts).2 ⟨many, deep, climbs⟩
  | single _ ih =>
    intro c outer length _
    obtain ⟨es, read, closes⟩ := ih c [] outer length
    exact ⟨[], es, _, read, closes, rfl⟩
  | comma _ kind _ ihl ihr =>
    exact ihl.behind ihr fun f outer m list complete => run_cons (step_comma kind list complete) _
  | adjacent _ opens _ ihl ihr =>
    exact ihl.behind ihr fun f outer m list complete => run_opensStatement opens list complete
  | empty => exact fun c outer _ _ => ⟨[], [], rfl, rfl⟩
  | nonempty _ ih =>
    intro c outer length list
    obtain ⟨closed, last, m, read, complete, eq⟩ := ih c outer length list
    exact ⟨closed, last, read,
      by rw [statements_of_close (f := ⟨c, closed, last⟩) complete, eq]⟩

theorem parseStatement_of_derives {e : Expr} (h : Derives s 0 (.statement e) ws) :
    parseStatement s ws = .ok e := by
  obtain ⟨run, hrun, closes⟩ := reads_of_derives h .statement [] [] rfl
  rw [parseStatement, State.start, hrun]
  exact bind_eq_ok.2 ⟨_, rfl, bind_eq_ok.2 ⟨_, rfl, bind_eq_ok.2 ⟨_, closes, rfl⟩⟩⟩

theorem parseStatements_of_derives {es : List Expr} (h : Derives s 0 (.list es) ws) :
    parseStatements s ws = .ok es := by
  obtain ⟨closed, run, hrun, statements⟩ := reads_of_derives h .statements [] rfl rfl
  rw [parseStatements, State.start, hrun]
  have eq := congrArg (Except.ok (ε := Fault)) (Measured.map_of_expr es)
  exact bind_eq_ok.2 ⟨_, rfl, bind_eq_ok.2 ⟨_, rfl, bind_eq_ok.2 ⟨_, statements, eq⟩⟩⟩

end Offside.Expr
