import Offside.Proofs.Expr.Derivable
import Offside.Proofs.Fault

/-!
Operands with values. A name or a literal that carries nothing is the one cause of the fault that
says so: nothing else in a line brings it about, however malformed the line is otherwise.
-/

namespace Offside

variable {α β : Type}

def Supplied : Except Fault α → Prop
  | .ok _ => True
  | .error f => f ≠ .missingValue

namespace Supplied

theorem ok (a : α) : Supplied (.ok a) := trivial

theorem error {f : Fault} (ne : f ≠ .missingValue) : Supplied (.error f : Except Fault α) := ne

theorem bind {x : Except Fault α} {f : α → Except Fault β} (hx : Supplied x)
    (hf : ∀ a, Supplied (f a)) : Supplied (x >>= f) := by
  cases x with
  | ok a => exact hf a
  | error e => exact hx

theorem map {x : Except Fault α} (hx : Supplied x) (f : α → β) : Supplied (x.map f) := by
  cases x with
  | ok a => trivial
  | error e => exact hx

theorem of_fault {x : Except Fault α} (h : ∀ f, x = .error f → f ≠ .missingValue) :
    Supplied x := by
  cases x with
  | ok a => trivial
  | error f => exact h f rfl

theorem fault {x : Except Fault α} (hx : Supplied x) {f : Fault} (h : x = .error f) :
    f ≠ .missingValue := by
  subst h
  exact hx

end Supplied

namespace Expr

variable {st : State} {l : Lexeme}

theorem resolve_internal {run : List Element} {f : Fault} (h : resolve run = .error f) :
    f.kind = .internal := by
  induction n : run.length using Nat.strongRecOn generalizing run f with
  | _ n ih =>
    rw [resolve] at h
    split at h
    · split at h <;> cases h
      rfl
    · next left op r right cut =>
      have length := length_split cut
      rcases bind_eq_error.1 h with h | ⟨argument, -, h⟩
      · exact ih _ (by grind) h rfl
      · exact ih _ (by grind) h rfl
    · next l left op r right cut =>
      have length := length_split cut
      rcases bind_eq_error.1 h with h | ⟨_, -, h⟩
      · exact ih _ (by grind) h rfl
      · exact ih _ (by grind) (map_eq_error.1 h) rfl
    · next l left arguments depth right cut =>
      have length := length_split cut
      rcases bind_eq_error.1 h with h | ⟨callee, -, h⟩
      · exact ih _ (by grind) h rfl
      · exact ih _ (by grind) h rfl
    all_goals
      cases h
      rfl

theorem close_supplied (maxDepth : Nat) (run : List Element) : Supplied (close maxDepth run) := by
  unfold close
  split
  · exact .error nofun
  · split
    · exact .error nofun
    · refine Supplied.bind (.of_fault fun f h eq => ?_) fun m => ?_
      · cases eq ▸ resolve_internal h
      · split
        · exact .error nofun
        · exact .ok m
  · exact .error nofun

namespace Frame

variable (maxDepth : Nat) (f : Frame)

theorem closeStatement_supplied : Supplied (f.closeStatement maxDepth) :=
  (close_supplied maxDepth f.run).bind fun _ => .ok _

theorem separate_supplied : Supplied (f.separate maxDepth) := by
  unfold separate
  split
  · split
    · exact closeStatement_supplied maxDepth f
    · exact .error nofun
  · exact .ok f

theorem statements_supplied : Supplied (f.statements maxDepth) := by
  unfold statements
  split
  · exact .ok []
  · exact (close_supplied maxDepth f.run).bind fun _ => .ok _

theorem element_supplied : Supplied (f.element maxDepth) := by
  unfold element
  split
  · exact (statements_supplied maxDepth f).bind fun _ => .ok _
  · exact (statements_supplied maxDepth f).bind fun _ => .ok _
  · exact (close_supplied maxDepth f.run).bind fun _ => .ok _

end Frame

theorem enter_supplied (maxDepth : Nat) (c : Context) (st : State) :
    Supplied (st.enter maxDepth c) := by
  unfold State.enter
  split
  · exact .error nofun
  · exact .ok _

theorem leave_supplied (maxDepth : Nat) (closes : Context → Bool) {fault : Fault}
    (ne : fault ≠ .missingValue) (st : State) :
    Supplied (st.leave maxDepth closes fault) := by
  unfold State.leave
  split
  · split
    · exact (Frame.element_supplied maxDepth st.frame).bind fun _ => .ok _
    · exact .error ne
  · exact .error ne

theorem operand_supplied (inClass : Bool) (h : l.payload ≠ none) :
    Supplied (operand inClass l) := by
  unfold operand
  split
  · contradiction
  · exact .ok _
  · split
    · exact .error nofun
    · exact .ok _

theorem unaryElement_supplied (op : UnaryOp) (g : Option Group) :
    Supplied (unaryElement op g) := by
  unfold unaryElement
  split
  · exact .error nofun
  · exact .ok _

theorem binaryElement_supplied (op : BinaryOp) (g : Option Group) :
    Supplied (binaryElement op g) := by
  unfold binaryElement
  split
  · exact .ok _
  · split
    · exact .ok _
    · split <;> exact .error nofun

theorem step_supplied (s : Setting) (st : State) (h : l.kind.isOperand = true → l.payload ≠ none) :
    Supplied (step s st l) := by
  have separate := Frame.separate_supplied s.maxDepth st.frame
  cases kind : l.kind with
  | name | literal =>
    have operand : l.kind.isOperand = true := by
      rw [kind]
      rfl
    rw [step_operand operand]
    refine separate.bind fun frame => ?_
    exact (operand_supplied s.inClass (h operand)).bind fun _ => .ok _
  | openBracket =>
    simp only [step, kind]
    exact enter_supplied ..
  | openBrace =>
    simp only [step, kind]
    exact separate.bind fun _ => enter_supplied ..
  | closeBracket | closeBrace =>
    simp only [step, kind]
    exact leave_supplied _ _ (by decide) st
  | comma =>
    simp only [step, kind]
    split
    · exact (Frame.closeStatement_supplied s.maxDepth st.frame).bind fun _ => .ok _
    · exact .error (by rintro ⟨⟩)
  | not | bitNot =>
    simp only [step, kind]
    exact (unaryElement_supplied ..).bind fun _ => .ok _
  | operator op =>
    simp only [step, kind]
    exact (binaryElement_supplied ..).bind fun _ => .ok _
  | keyword k =>
    simp only [step, kind]
    exact .error (by rintro ⟨⟩)

abbrev Valued (ws : List Lexeme) : Prop :=
  ∀ l ∈ ws, l.kind.isOperand = true → l.payload ≠ none

theorem run_supplied (s : Setting) (st : State) {ws : List Lexeme} (h : Valued ws) :
    Supplied (run s st ws) := by
  induction ws generalizing st with
  | nil => exact .ok st
  | cons l ws ih =>
    obtain ⟨own, behind⟩ := List.forall_mem_cons.1 h
    rw [run, List.foldlM_cons]
    exact (step_supplied s st own).bind fun next => ih next behind

theorem finish_supplied (st : State) : Supplied st.finish := by
  unfold State.finish
  cases st.frame.context with
  | statement | statements => exact .ok _
  | group | call | array => exact .error nofun

theorem parseStatement_supplied (s : Setting) {ws : List Lexeme} (h : Valued ws) :
    Supplied (parseStatement s ws) := by
  refine (run_supplied s _ h).bind fun st => (finish_supplied st).bind fun frame => ?_
  exact (close_supplied s.maxDepth frame.run).bind fun _ => .ok _

theorem parseStatements_supplied (s : Setting) {ws : List Lexeme} (h : Valued ws) :
    Supplied (parseStatements s ws) := by
  refine (run_supplied s _ h).bind fun st => (finish_supplied st).bind fun frame => ?_
  exact (Frame.statements_supplied s.maxDepth frame).bind fun _ => .ok _

end Expr

end Offside
