import Offside.Proofs.Expr.Derivable

/-!
Whatever is parsed is derived. The invariant says of every frame which lexemes it has read:
the statements that it has closed, and a stretch that is a chain or has yet to become one.
Main statement: the lexemes that are parsed are those that the grammar derives.
-/

namespace Offside.Expr

variable {s : Setting} {level : Nat} {ws vs us : List Lexeme}

theorem Derives.unit_call {run : List Element} {es : List Expr} :
    ∀ {ws}, Derives s level (.unit run) ws → Derives s level (.call es) vs →
      Derives s level (.unit (run ++ [.operator (.call es (depths es))])) (ws ++ vs)
  | _, .unsigned h, hc => .unsigned (.called h hc)
  | _, .signed sign h, hc => .signed sign (unit_call h hc)

theorem Derives.chain_call {run : List Element} {es : List Expr}
    (h : Derives s level (.chain run) ws) (hc : Derives s level (.call es) vs) :
    Derives s level (.chain (run ++ [.operator (.call es (depths es))])) (ws ++ vs) := by
  cases h with
  | alone h => exact .alone (h.unit_call hc)
  | joined hl op hr => simpa using Derives.joined hl op (hr.unit_call hc)

theorem Derives.statements_ne_nil {es : List Expr} (h : Derives s level (.statements es) ws) :
    es ≠ [] := by
  cases h <;> simp

/-- The beginning of a chain, up to where an operand is awaited. -/
inductive Pending (s : Setting) (level : Nat) : List Element → List Lexeme → Prop
  | nil : Pending s level [] []
  | signed {run l op ws} : Pending s level run ws → l.kind.sign? = some op →
      Pending s level (run ++ [.operator (.unary op)]) (ws ++ [l])
  | joined {run l op ws} : Derives s level (.chain run) ws → l.kind = .operator op →
      Pending s level (run ++ [.operator (.binary op)]) (ws ++ [l])

theorem Pending.unit {run run' : List Element} (h : Pending s level run ws)
    (hu : Derives s level (.unit run') vs) : Derives s level (.chain (run ++ run')) (ws ++ vs) := by
  induction h generalizing run' vs with
  | nil => exact .alone hu
  | signed _ sign ih => simpa using ih (.signed sign hu)
  | joined hl op => simpa using Derives.joined hl op hu

/-- What the open statement of a frame has read; the latest element of its run comes first. -/
def Opened (s : Setting) (level : Nat) (run : List Element) (ws : List Lexeme) : Prop :=
  Pending s level run.reverse ws ∨ Derives s level (.chain run.reverse) ws

namespace Opened

variable {run : List Element}

theorem nil : Opened s level [] [] := .inl .nil

theorem eq_nil (h : Opened s level [] ws) : ws = [] := by
  cases h with
  | inl pending =>
    generalize hr : [].reverse = r at pending
    cases pending with
    | nil => rfl
    | signed | joined => simp at hr
  | inr chain => exact (chain.run_wellFormed rfl).1.elim

theorem pending (h : Opened s level run ws) (last : lastGroup? run ≠ some .argument) :
    Pending s level run.reverse ws := by
  refine h.resolve_right fun chain => last ?_
  simpa using lastGroup?_eq_argument (chain.run_wellFormed rfl).1 []

theorem chain (h : Opened s level run ws) (last : lastGroup? run = some .argument) :
    Derives s level (.chain run.reverse) ws := by
  apply h.resolve_left
  intro pending
  generalize hr : run.reverse = r at pending
  rw [List.reverse_eq_iff] at hr
  subst hr
  cases pending <;> simp [lastGroup?] at last

theorem statement (h : Opened s level run ws) {m : Measured}
    (hm : close s.maxDepth run = .ok m) :
    m = .of m.expr ∧ Derives s level (.statement m.expr) ws := by
  have chain := h.chain (lastGroup?_of_close hm)
  obtain ⟨isRun, parts⟩ := chain.run_wellFormed rfl
  rw [← List.reverse_reverse run] at hm
  obtain ⟨many, deep, climbs⟩ := (close_eq_ok isRun parts).1 hm
  exact ⟨Measured.eq_of (climbAll_exact isRun parts climbs), .statement chain many climbs deep⟩

theorem primary {e : Expr} (h : Opened s level run ws) (last : lastGroup? run ≠ some .argument)
    (he : Derives s level (.primary e) vs) :
    Opened s level (.operand (.of e) :: run) (ws ++ vs) :=
  .inr (by simpa using (h.pending last).unit (.unsigned (.uncalled he)))

theorem call {es : List Expr} (h : Opened s level run ws) (last : lastGroup? run = some .argument)
    (hes : Derives s level (.call es) vs) :
    Opened s level (.operator (.call es (depths es)) :: run) (ws ++ vs) :=
  .inr (by simpa using (h.chain last).chain_call hes)

theorem signed {l : Lexeme} {op : UnaryOp} (h : Opened s level run ws)
    (last : lastGroup? run ≠ some .argument) (sign : l.kind.sign? = some op) :
    Opened s level (.operator (.unary op) :: run) (ws ++ [l]) :=
  .inl (by simpa using (h.pending last).signed sign)

theorem joined {l : Lexeme} {op : BinaryOp} (h : Opened s level run ws)
    (last : lastGroup? run = some .argument) (kind : l.kind = .operator op) :
    Opened s level (.operator (.binary op) :: run) (ws ++ [l]) :=
  .inl (by simpa using Pending.joined (h.chain last) kind)

end Opened

/-- What a frame has read: the statements that it has closed, the comma that follows them
unless the open statement begins by itself, and the open statement. -/
inductive Frame.HasRead (s : Setting) (level : Nat) : Frame → List Lexeme → Prop
  | first {c run ws} : Opened s level run ws → HasRead s level ⟨c, [], run⟩ ws
  | comma {c es run l ws vs} : c.isList = true → Derives s level (.statements es) ws →
      l.kind = .comma → Opened s level run vs →
      HasRead s level ⟨c, (es.map .of).reverse, run⟩ (ws ++ l :: vs)
  | adjacent {c es run ws vs} : c.isList = true → Derives s level (.statements es) ws →
      opensStatement vs = true → Opened s level run vs →
      HasRead s level ⟨c, (es.map .of).reverse, run⟩ (ws ++ vs)

namespace Frame.HasRead

variable {f g : Frame}

theorem fresh (c : Context) : HasRead s level ⟨c, [], []⟩ [] := .first .nil

theorem extend {run : List Element} (h : f.HasRead s level ws)
    (more : ∀ vs, Opened s level f.run vs → Opened s level run (vs ++ us)) :
    HasRead s level { f with run := run } (ws ++ us) := by
  cases h with
  | first opened => exact .first (more _ opened)
  | comma list hes comma opened =>
    rw [List.append_assoc, List.cons_append]
    exact .comma list hes comma (more _ opened)
  | @adjacent c es r ws vs list hes opens opened =>
    rw [List.append_assoc]
    refine .adjacent list hes ?_ (more _ opened)
    cases vs with
    | nil => cases opens
    | cons l vs => exact opens

theorem statement (h : f.HasRead s level ws) (single : f.context.isList = false) {m : Measured}
    (hm : close s.maxDepth f.run = .ok m) :
    m = .of m.expr ∧ Derives s level (.statement m.expr) ws := by
  cases h with
  | first opened => exact opened.statement hm
  | comma list => rw [list] at single; cases single
  | adjacent list => rw [list] at single; cases single

theorem statements (h : f.HasRead s level ws) {m : Measured}
    (hm : close s.maxDepth f.run = .ok m) :
    ∃ es, m :: f.closed = (es.map .of).reverse ∧ Derives s level (.statements es) ws := by
  cases h with
  | first opened =>
    obtain ⟨eq, he⟩ := opened.statement hm
    exact ⟨[m.expr], by simp [← eq], .single he⟩
  | comma list hes comma opened =>
    obtain ⟨eq, he⟩ := opened.statement hm
    exact ⟨_ ++ [m.expr], by simp [← eq], .comma hes comma he⟩
  | adjacent list hes opens opened =>
    obtain ⟨eq, he⟩ := opened.statement hm
    exact ⟨_ ++ [m.expr], by simp [← eq], .adjacent hes opens he⟩

theorem list (h : f.HasRead s level ws) {ms : List Measured}
    (hms : f.statements s.maxDepth = .ok ms) :
    ∃ es, ms = es.map .of ∧ Derives s level (.list es) ws := by
  unfold Frame.statements at hms
  split at hms
  · next empty =>
    cases hms
    simp only [Bool.and_eq_true, List.isEmpty_iff] at empty
    cases h with
    | first opened =>
      cases empty.1
      cases opened.eq_nil
      exact ⟨[], rfl, .empty⟩
    | comma _ hes | adjacent _ hes =>
      exact absurd (by simpa using empty.2) hes.statements_ne_nil
  · obtain ⟨m, hm, eq⟩ := bind_eq_ok.1 hms
    obtain ⟨es, closed, hes⟩ := h.statements hm
    cases eq
    exact ⟨es, by rw [closed, List.reverse_reverse], .nonempty hes⟩

end Frame.HasRead

def Builds (s : Setting) (level : Nat) (us : List Lexeme) (e : Element) : Context → Prop
  | .call => ∃ es, e = .operator (.call es (depths es)) ∧ Derives s level (.call es) us
  | _ => ∃ t, e = .operand (.of t) ∧ Derives s level (.primary t) us

def Opens (l : Lexeme) (c : Context) : Prop :=
  l.kind = .openBracket ∧ (c = .group ∨ c = .call) ∨ l.kind = .openBrace ∧ c = .array

def Closes (l : Lexeme) (c : Context) : Prop :=
  l.kind = .closeBracket ∧ (c = .group ∨ c = .call) ∨ l.kind = .closeBrace ∧ c = .array

theorem Frame.HasRead.builds {f : Frame} {o c : Lexeme} {e : Element} (opens : Opens o f.context)
    (closes : Closes c f.context) (lt : level < s.maxDepth) (h : f.HasRead s (level + 1) vs)
    (he : f.element s.maxDepth = .ok e) : Builds s level (o :: (vs ++ [c])) e f.context := by
  unfold Opens at opens
  unfold Closes at closes
  unfold Frame.element at he
  cases context : f.context with
  | group =>
    simp only [context, reduceCtorEq, and_false, or_false, and_true] at opens closes he
    obtain ⟨m, hm, eq⟩ := bind_eq_ok.1 he
    obtain ⟨of, hs⟩ := h.statement (by rw [context]; rfl) hm
    cases eq
    exact ⟨m.expr, by rw [← of], .group opens closes lt hs⟩
  | call =>
    simp only [context, reduceCtorEq, and_false, or_false, and_true, or_true] at opens closes he
    obtain ⟨ms, hms, eq⟩ := bind_eq_ok.1 he
    obtain ⟨es, rfl, hes⟩ := h.list hms
    cases eq
    refine ⟨es, ?_, .call opens closes lt hes⟩
    rw [Measured.map_of_expr, Measured.deepest_of]
  | array =>
    simp only [context, reduceCtorEq, and_false, false_or, and_true, or_false] at opens closes he
    obtain ⟨ms, hms, eq⟩ := bind_eq_ok.1 he
    obtain ⟨es, rfl, hes⟩ := h.list hms
    cases eq
    exact ⟨.array es, by rw [Measured.array_of], .array opens closes lt hes⟩
  | statement | statements => simp [context] at opens

/-- What all frames have read together. A frame inside another one comes with what the outer
one will have read as soon as the bracket is closed. -/
inductive State.HasRead (s : Setting) (whole : Context) : State → List Lexeme → Prop
  | outermost {f ws} : f.context = whole → f.HasRead s 0 ws → HasRead s whole ⟨f, []⟩ ws
  | inner {f g outer l ws vs} : Opens l f.context → outer.length < s.maxDepth →
      f.HasRead s (outer.length + 1) vs →
      (∀ e us, Builds s outer.length (l :: us) e f.context →
        HasRead s whole ⟨g.push e, outer⟩ (ws ++ l :: us)) →
      HasRead s whole ⟨f, g :: outer⟩ (ws ++ l :: vs)

namespace State.HasRead

variable {whole : Context} {f g : Frame} {outer : List Frame}

theorem start (whole : Context) : HasRead s whole (.start whole) [] :=
  .outermost rfl (.fresh whole)

theorem advance (h : HasRead s whole ⟨f, outer⟩ ws) (context : g.context = f.context)
    (more : ∀ vs, f.HasRead s outer.length vs → g.HasRead s outer.length (vs ++ us)) :
    HasRead s whole ⟨g, outer⟩ (ws ++ us) := by
  cases h with
  | outermost whole read => exact .outermost (context.trans whole) (more _ read)
  | inner opens lt read back =>
    rw [List.append_assoc, List.cons_append]
    exact .inner (context ▸ opens) lt (more _ read) (context ▸ back)

theorem close {c : Lexeme} {e : Element} (h : HasRead s whole ⟨f, g :: outer⟩ ws)
    (closes : Closes c f.context) (he : f.element s.maxDepth = .ok e) :
    HasRead s whole ⟨g.push e, outer⟩ (ws ++ [c]) := by
  cases h with
  | inner opens lt read back =>
    rw [List.append_assoc, List.cons_append]
    exact back e _ (read.builds opens closes lt he)

theorem enter {o : Lexeme} {c : Context} {f' : Frame} (h : HasRead s whole ⟨f, outer⟩ ws)
    (opens : Opens o c) (lt : outer.length < s.maxDepth) (context : f'.context = f.context)
    (more : ∀ e us vs, Builds s outer.length (o :: us) e c → f.HasRead s outer.length vs →
      (f'.push e).HasRead s outer.length (vs ++ o :: us)) :
    HasRead s whole ⟨⟨c, [], []⟩, f' :: outer⟩ (ws ++ [o]) :=
  .inner opens lt (.fresh c) fun e us built =>
    h.advance context fun vs read => more e us vs built read

end State.HasRead

namespace Frame.HasRead

variable {f g : Frame}

theorem push_primary {e : Expr} (h : f.HasRead s level vs)
    (last : f.lastGroup? ≠ some .argument) (he : Derives s level (.primary e) us) :
    (f.push (.operand (.of e))).HasRead s level (vs ++ us) :=
  h.extend fun _ opened => opened.primary last he

theorem push_separate {e : Expr} (h : f.HasRead s level vs) (hg : f.separate s.maxDepth = .ok g)
    (opens : opensStatement us = true) (he : Derives s level (.primary e) us) :
    (g.push (.operand (.of e))).HasRead s level (vs ++ us) := by
  unfold Frame.separate at hg
  split at hg
  · split at hg
    · next list =>
      obtain ⟨m, hm, eq⟩ := bind_eq_ok.1 hg
      cases eq
      obtain ⟨es, closed, hes⟩ := h.statements hm
      rw [Frame.push, closed]
      exact .adjacent list hes opens (Opened.nil.primary (by simp [Expr.lastGroup?]) he)
    · cases hg
  · next last =>
    cases hg
    exact h.push_primary last he

theorem push_call {es : List Expr} (h : f.HasRead s level vs)
    (last : f.lastGroup? = some .argument) (hes : Derives s level (.call es) us) :
    (f.push (.operator (.call es (depths es)))).HasRead s level (vs ++ us) :=
  h.extend fun _ opened => opened.call last hes

theorem closeStatement {l : Lexeme} (h : f.HasRead s level vs) (list : f.context.isList = true)
    (comma : l.kind = .comma) (hg : f.closeStatement s.maxDepth = .ok g) :
    g.HasRead s level (vs ++ [l]) := by
  obtain ⟨m, hm, eq⟩ := bind_eq_ok.1 hg
  cases eq
  obtain ⟨es, closed, hes⟩ := h.statements hm
  rw [closed]
  exact .comma list hes comma .nil

end Frame.HasRead

theorem closeStatement_context {f g : Frame} {maxDepth : Nat}
    (h : f.closeStatement maxDepth = .ok g) : g.context = f.context := by
  obtain ⟨m, _, eq⟩ := bind_eq_ok.1 h
  cases eq
  rfl

theorem separate_context {f g : Frame} {maxDepth : Nat} (h : f.separate maxDepth = .ok g) :
    g.context = f.context := by
  unfold Frame.separate at h
  split at h
  · split at h
    · exact closeStatement_context h
    · cases h
  · cases h
    rfl

theorem derives_operand {l : Lexeme} {e : Expr} (kind : l.kind.isOperand = true)
    (h : operand s.inClass l = .ok e) :
    Derives s level (.primary e) [l] ∧ Measured.leaf e = .of e := by
  rcases operand_eq_ok.1 h with ⟨i, payload, member, rfl⟩ | ⟨x, payload, rfl⟩
  · exact ⟨.name kind payload member, rfl⟩
  · exact ⟨.literal kind payload, rfl⟩

theorem unaryElement_eq_ok {op : UnaryOp} {g : Option Group} {e : Element}
    (h : unaryElement op g = .ok e) : g ≠ some .argument ∧ e = .operator (.unary op) := by
  unfold unaryElement at h
  split at h
  · cases h
  · next other => exact ⟨other, (Except.ok.inj h).symm⟩

theorem binaryElement_eq_ok {op : BinaryOp} {g : Option Group} {e : Element}
    (h : binaryElement op g = .ok e) :
    g = some .argument ∧ e = .operator (.binary op) ∨
      g ≠ some .argument ∧ op = .subtract ∧ e = .operator (.unary .negate) := by
  unfold binaryElement at h
  split at h
  · exact .inl ⟨rfl, (Except.ok.inj h).symm⟩
  · next other =>
    split at h
    · next minus => exact .inr ⟨other, minus, (Except.ok.inj h).symm⟩
    · split at h <;> cases h

section Step

variable {whole : Context} {st st' : State} {l : Lexeme}

theorem enter_eq_ok {maxDepth : Nat} {c : Context} (h : st.enter maxDepth c = .ok st') :
    st.outer.length < maxDepth ∧ st' = ⟨⟨c, [], []⟩, st.frame :: st.outer⟩ := by
  unfold State.enter at h
  split at h
  · cases h
  · next lt => exact ⟨Nat.not_le.1 lt, (Except.ok.inj h).symm⟩

theorem leave_eq_ok {maxDepth : Nat} {closes : Context → Bool} {fault : Fault}
    (h : st.leave maxDepth closes fault = .ok st') : ∃ g outer e, st.outer = g :: outer ∧
      closes st.frame.context = true ∧ st.frame.element maxDepth = .ok e ∧
      st' = ⟨g.push e, outer⟩ := by
  unfold State.leave at h
  split at h
  · next g outer eq =>
    split at h
    · next closes =>
      obtain ⟨e, he, eq'⟩ := bind_eq_ok.1 h
      exact ⟨g, outer, e, eq, closes, he, (Except.ok.inj eq').symm⟩
    · cases h
  · cases h

theorem step_openBracket_hasRead (kind : l.kind = .openBracket) (h : step s st l = .ok st')
    (hst : st.HasRead s whole ws) : st'.HasRead s whole (ws ++ [l]) := by
  simp only [step, kind] at h
  obtain ⟨lt, rfl⟩ := enter_eq_ok h
  by_cases last : st.frame.lastGroup? = some .argument
  · rw [last]
    refine hst.enter (.inl ⟨kind, .inr rfl⟩) lt rfl ?_
    rintro e us vs ⟨es, rfl, hes⟩ read
    exact read.push_call last hes
  · rw [bracketContext_of_ne last]
    refine hst.enter (.inl ⟨kind, .inl rfl⟩) lt rfl ?_
    rintro e us vs ⟨t, rfl, ht⟩ read
    exact read.push_primary last ht

theorem step_openBrace_hasRead (kind : l.kind = .openBrace) (h : step s st l = .ok st')
    (hst : st.HasRead s whole ws) : st'.HasRead s whole (ws ++ [l]) := by
  simp only [step, kind] at h
  obtain ⟨g, hg, h⟩ := bind_eq_ok.1 h
  obtain ⟨lt, rfl⟩ := enter_eq_ok h
  refine hst.enter (.inr ⟨kind, rfl⟩) lt (separate_context hg) ?_
  rintro e us vs ⟨t, rfl, ht⟩ read
  exact read.push_separate hg (by simp [opensStatement, kind]) ht

theorem step_close_hasRead {closes : Context → Bool} {fault : Fault}
    (kind : ∀ c, closes c = true → Closes l c)
    (h : st.leave s.maxDepth closes fault = .ok st') (hst : st.HasRead s whole ws) :
    st'.HasRead s whole (ws ++ [l]) := by
  obtain ⟨g, outer, e, eq, context, he, rfl⟩ := leave_eq_ok h
  obtain ⟨f, frames⟩ := st
  cases eq
  exact hst.close (kind _ context) he

theorem step_operand_hasRead (kind : l.kind.isOperand = true) (h : step s st l = .ok st')
    (hst : st.HasRead s whole ws) : st'.HasRead s whole (ws ++ [l]) := by
  rw [step_operand kind] at h
  obtain ⟨g, hg, h⟩ := bind_eq_ok.1 h
  obtain ⟨e, he, h⟩ := bind_eq_ok.1 h
  cases h
  obtain ⟨derives, leaf⟩ := derives_operand kind he
  have context : (g.push (.operand (.leaf e))).context = st.frame.context :=
    (separate_context hg : g.context = _)
  rw [leaf] at context ⊢
  exact hst.advance context fun vs read =>
    read.push_separate hg (by simp [opensStatement, kind]) derives

theorem step_sign_hasRead {op : UnaryOp} (sign : l.kind.sign? = some op)
    (last : st.frame.lastGroup? ≠ some .argument) (hst : st.HasRead s whole ws) :
    (st.push (.operator (.unary op))).HasRead s whole (ws ++ [l]) :=
  hst.advance rfl fun _ read => read.extend fun _ opened => opened.signed last sign

theorem step_hasRead (h : step s st l = .ok st') (hst : st.HasRead s whole ws) :
    st'.HasRead s whole (ws ++ [l]) := by
  cases kind : l.kind with
  | name | literal => exact step_operand_hasRead (by rw [kind]; rfl) h hst
  | openBracket => exact step_openBracket_hasRead kind h hst
  | openBrace => exact step_openBrace_hasRead kind h hst
  | closeBracket =>
    simp only [step, kind] at h
    exact step_close_hasRead (fun c hc => .inl ⟨kind, by simpa using hc⟩) h hst
  | closeBrace =>
    simp only [step, kind] at h
    exact step_close_hasRead (fun c hc => .inr ⟨kind, by simpa using hc⟩) h hst
  | comma =>
    simp only [step, kind] at h
    split at h
    · next list =>
      obtain ⟨g, hg, eq⟩ := bind_eq_ok.1 h
      cases eq
      exact hst.advance (closeStatement_context hg) fun _ read =>
        read.closeStatement list kind hg
    · cases h
  | not | bitNot =>
    simp only [step, kind] at h
    obtain ⟨e, he, eq⟩ := bind_eq_ok.1 h
    obtain ⟨last, rfl⟩ := unaryElement_eq_ok he
    cases eq
    exact step_sign_hasRead (by rw [kind]; rfl) last hst
  | operator op =>
    simp only [step, kind] at h
    obtain ⟨e, he, eq⟩ := bind_eq_ok.1 h
    cases eq
    rcases binaryElement_eq_ok he with ⟨last, rfl⟩ | ⟨last, rfl, rfl⟩
    · exact hst.advance rfl fun _ read => read.extend fun _ opened => opened.joined last kind
    · exact step_sign_hasRead (by rw [kind]; rfl) last hst
  | keyword k =>
    simp only [step, kind] at h
    cases h

theorem run_hasRead (h : run s st vs = .ok st') (hst : st.HasRead s whole ws) :
    st'.HasRead s whole (ws ++ vs) := by
  induction vs generalizing st ws with
  | nil =>
    cases h
    rwa [List.append_nil]
  | cons l vs ih =>
    rw [run, List.foldlM_cons] at h
    obtain ⟨next, hl, h⟩ := bind_eq_ok.1 h
    simpa using ih h (step_hasRead hl hst)

theorem finish_hasRead {f : Frame} (h : st.finish = .ok f) (hst : st.HasRead s whole ws) :
    f.context = whole ∧ f.HasRead s 0 ws := by
  unfold State.finish at h
  cases hst with
  | outermost context read =>
    split at h
    · cases h
    · cases h
      exact ⟨context, read⟩
  | @inner g _ _ _ _ _ opens =>
    rcases opens with ⟨_, context | context⟩ | ⟨_, context⟩ <;>
      simp [context, Context.unclosed?] at h

end Step

theorem derives_of_parseStatement {e : Expr} (h : parseStatement s ws = .ok e) :
    Derives s 0 (.statement e) ws := by
  obtain ⟨st, hst, h⟩ := bind_eq_ok.1 h
  obtain ⟨f, hf, h⟩ := bind_eq_ok.1 h
  obtain ⟨m, hm, eq⟩ := bind_eq_ok.1 h
  cases eq
  obtain ⟨context, read⟩ := finish_hasRead hf (run_hasRead hst (.start .statement))
  exact (read.statement (by rw [context]; rfl) hm).2

theorem derives_of_parseStatements {es : List Expr} (h : parseStatements s ws = .ok es) :
    Derives s 0 (.list es) ws := by
  obtain ⟨st, hst, h⟩ := bind_eq_ok.1 h
  obtain ⟨f, hf, h⟩ := bind_eq_ok.1 h
  obtain ⟨ms, hms, eq⟩ := bind_eq_ok.1 h
  obtain ⟨-, read⟩ := finish_hasRead hf (run_hasRead hst (.start .statements))
  obtain ⟨ts, rfl, hts⟩ := read.list hms
  cases eq
  rwa [Measured.map_of_expr]

def Phrase.trees : Phrase → List Expr
  | statement e => [e]
  | statements es | list es => es
  | _ => []

theorem Derives.depth_le {p : Phrase} (h : Derives s level p ws) :
    ∀ e ∈ p.trees, e.depth ≤ s.maxDepth := by
  induction h with
  | statement _ _ _ deep => exact List.forall_mem_singleton.2 deep
  | single _ ih | nonempty _ ih => exact ih
  | comma _ _ _ ihl ihr | adjacent _ _ _ ihl ihr => exact List.forall_mem_append.2 ⟨ihl, ihr⟩
  | _ => exact List.forall_mem_nil _

/-- Lexemes are parsed as a statement, or as a list, if and only if the grammar derives them
as one, and then to the tree or the trees of the derivation. -/
theorem parse_eq_ok_iff (s : Setting) (ws : List Lexeme) :
    (∀ e, parseStatement s ws = .ok e ↔ Derives s 0 (.statement e) ws) ∧
    (∀ es, parseStatements s ws = .ok es ↔ Derives s 0 (.list es) ws) := by
  refine ⟨fun e => ⟨fun h => ?_, fun h => ?_⟩, fun es => ⟨fun h => ?_, fun h => ?_⟩⟩
  · obtain ⟨st, hst, h⟩ := bind_eq_ok.1 h
    obtain ⟨f, hf, h⟩ := bind_eq_ok.1 h
    obtain ⟨m, hm, eq⟩ := bind_eq_ok.1 h
    cases eq
    obtain ⟨context, read⟩ := finish_hasRead hf (run_hasRead hst (.start .statement))
    exact (read.statement (by rw [context]; rfl) hm).2
  · obtain ⟨run, hrun, closes⟩ := reads_of_derives h .statement [] [] rfl
    rw [parseStatement, State.start, hrun]
    exact bind_eq_ok.2 ⟨_, rfl, bind_eq_ok.2 ⟨_, rfl, bind_eq_ok.2 ⟨_, closes, rfl⟩⟩⟩
  · obtain ⟨st, hst, h⟩ := bind_eq_ok.1 h
    obtain ⟨f, hf, h⟩ := bind_eq_ok.1 h
    obtain ⟨ms, hms, eq⟩ := bind_eq_ok.1 h
    obtain ⟨-, read⟩ := finish_hasRead hf (run_hasRead hst (.start .statements))
    obtain ⟨ts, rfl, hts⟩ := read.list hms
    cases eq
    rwa [Measured.map_of_expr]
  · obtain ⟨closed, run, hrun, statements⟩ := reads_of_derives h .statements [] rfl rfl
    rw [parseStatements, State.start, hrun]
    have eq := congrArg (Except.ok (ε := Fault)) (Measured.map_of_expr es)
    exact bind_eq_ok.2 ⟨_, rfl, bind_eq_ok.2 ⟨_, rfl, bind_eq_ok.2 ⟨_, statements, eq⟩⟩⟩

end Offside.Expr
