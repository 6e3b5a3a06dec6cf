import Offside.Proofs.Expr.Parsed
import Offside.Proofs.Fault

/-!
Parsing is blameless. The open statement of every frame is the beginning of a chain, and is
resolved only once it is a whole one; then resolution finds a tree.
-/

namespace Offside.Expr

variable {s : Setting} {level : Nat} {whole : Context} {run : List Element} {f : Frame}
  {st : State} {l : Lexeme} {ws vs : List Lexeme}

theorem close_blameless (h : Opened s level run ws) (maxDepth : Nat) :
    Blameless Any (close maxDepth run) := by
  unfold close
  split
  · exact nofun
  · next last =>
    obtain ⟨isRun, -⟩ := (h.chain last).run_wellFormed rfl
    obtain ⟨m, hm⟩ := resolve_total isRun
    split
    · exact nofun
    · refine (Blameless.of_ok (P := Any) ⟨m, hm, trivial⟩).bind fun t _ => ?_
      split
      · exact nofun
      · trivial
  · exact nofun

namespace Frame.HasRead

theorem opened (h : f.HasRead s level ws) : ∃ vs, Opened s level f.run vs := by
  cases h with
  | first opened | comma _ _ _ opened | adjacent _ _ _ opened => exact ⟨_, opened⟩

theorem close_blameless (h : f.HasRead s level ws) (maxDepth : Nat) :
    Blameless Any (close maxDepth f.run) := by
  obtain ⟨vs, opened⟩ := h.opened
  exact Expr.close_blameless opened maxDepth

theorem closeStatement_blameless (h : f.HasRead s level ws) (maxDepth : Nat) :
    Blameless Any (f.closeStatement maxDepth) :=
  (h.close_blameless maxDepth).bind fun _ _ => trivial

theorem separate_blameless (h : f.HasRead s level ws) (maxDepth : Nat) :
    Blameless Any (f.separate maxDepth) := by
  unfold Frame.separate
  split
  · split
    · exact h.closeStatement_blameless maxDepth
    · exact nofun
  · trivial

theorem statements_blameless (h : f.HasRead s level ws) (maxDepth : Nat) :
    Blameless Any (f.statements maxDepth) := by
  unfold Frame.statements
  split
  · trivial
  · exact (h.close_blameless maxDepth).bind fun _ _ => trivial

theorem element_blameless (h : f.HasRead s level ws) (maxDepth : Nat) :
    Blameless Any (f.element maxDepth) := by
  unfold Frame.element
  split
  · exact (h.statements_blameless maxDepth).bind fun _ _ => trivial
  · exact (h.statements_blameless maxDepth).bind fun _ _ => trivial
  · exact (h.close_blameless maxDepth).bind fun _ _ => trivial

end Frame.HasRead

section Step

theorem operand_blameless (inClass : Bool) (l : Lexeme) : Blameless Any (operand inClass l) := by
  unfold operand
  split
  · exact nofun
  · trivial
  · split
    · exact nofun
    · trivial

theorem unaryElement_blameless (op : UnaryOp) (g : Option Group) :
    Blameless Any (unaryElement op g) := by
  unfold unaryElement
  split
  · exact nofun
  · trivial

theorem binaryElement_blameless (op : BinaryOp) (g : Option Group) :
    Blameless Any (binaryElement op g) := by
  unfold binaryElement
  split
  · trivial
  · split
    · trivial
    · split <;> exact nofun

theorem enter_blameless (maxDepth : Nat) (c : Context) (st : State) :
    Blameless Any (st.enter maxDepth c) := by
  unfold State.enter
  split
  · exact nofun
  · trivial

theorem State.HasRead.frame (h : st.HasRead s whole ws) :
    ∃ level vs, st.frame.HasRead s level vs := by
  cases h with
  | outermost _ read | inner _ _ read => exact ⟨_, _, read⟩

theorem leave_blameless {maxDepth : Nat} {closes : Context → Bool} {fault : Fault}
    (h : st.HasRead s whole ws) (source : fault.kind ≠ .internal) :
    Blameless Any (st.leave maxDepth closes fault) := by
  obtain ⟨level, vs, read⟩ := h.frame
  unfold State.leave
  split
  · split
    · exact (read.element_blameless maxDepth).bind fun _ _ => trivial
    · exact source
  · exact source

theorem step_blameless (h : st.HasRead s whole ws) (l : Lexeme) :
    Blameless (·.HasRead s whole (ws ++ [l])) (step s st l) := by
  refine Blameless.mono (P := Any) ?_ fun _ hl _ => step_hasRead hl h
  obtain ⟨level, vs, read⟩ := h.frame
  have separate := read.separate_blameless s.maxDepth
  cases kind : l.kind with
  | name | literal =>
    rw [step_operand (by rw [kind]; rfl)]
    exact separate.bind fun _ _ => (operand_blameless s.inClass l).bind fun _ _ => trivial
  | openBracket =>
    simp only [step, kind]
    exact enter_blameless ..
  | openBrace =>
    simp only [step, kind]
    exact separate.bind fun _ _ => enter_blameless ..
  | closeBracket | closeBrace =>
    simp only [step, kind]
    exact leave_blameless h (by decide)
  | comma =>
    simp only [step, kind]
    split
    · exact (read.closeStatement_blameless s.maxDepth).bind fun _ _ => trivial
    · exact show Fault.strayComma.kind ≠ .internal by decide
  | not | bitNot =>
    simp only [step, kind]
    exact (unaryElement_blameless ..).bind fun _ _ => trivial
  | operator op =>
    simp only [step, kind]
    exact (binaryElement_blameless ..).bind fun _ _ => trivial
  | keyword k =>
    simp only [step, kind]
    intro internal
    cases internal

theorem run_blameless (h : st.HasRead s whole ws) (vs : List Lexeme) :
    Blameless (·.HasRead s whole (ws ++ vs)) (Expr.run s st vs) := by
  induction vs generalizing st ws with
  | nil =>
    rw [List.append_nil]
    exact h
  | cons l vs ih =>
    rw [Expr.run, List.foldlM_cons, List.append_cons]
    exact (step_blameless h l).bind fun next read => ih read

theorem finish_blameless (h : st.HasRead s whole ws) :
    Blameless (·.HasRead s 0 ws) st.finish := by
  refine Blameless.mono (P := Any) ?_ fun f hf _ => (finish_hasRead hf h).2
  unfold State.finish
  cases st.frame.context <;> first | trivial | exact nofun

end Step

theorem parseStatement_blameless (s : Setting) (ws : List Lexeme) :
    Blameless Any (parseStatement s ws) := by
  refine (run_blameless (.start .statement) ws).bind fun st read => ?_
  refine (finish_blameless read).bind fun f held => ?_
  exact (held.close_blameless s.maxDepth).bind fun _ _ => trivial

theorem parseStatements_blameless (s : Setting) (ws : List Lexeme) :
    Blameless Any (parseStatements s ws) := by
  refine (run_blameless (.start .statements) ws).bind fun st read => ?_
  refine (finish_blameless read).bind fun f held => ?_
  exact (held.statements_blameless s.maxDepth).bind fun _ _ => trivial

end Offside.Expr
