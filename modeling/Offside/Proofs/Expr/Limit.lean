import Offside.Expr.Parse
import Offside.Result

/-!
Parsing under two limits. The limit is only ever looked at to fail for it, so that whatever a lower
limit lets pass, a result or another fault, is there under a higher one.
-/

namespace Offside

variable {α β : Type}

/-- `y` is what became of `x`, unless `x` was stopped by a limit. -/
def Kept (x y : Except Fault α) : Prop :=
  (∃ what limit, x = .error (.tooDeep what limit)) ∨ y = x

namespace Kept

theorem refl (x : Except Fault α) : Kept x x := .inr rfl

theorem stopped (what : Nesting) (limit : Nat) (y : Except Fault α) :
    Kept (.error (.tooDeep what limit)) y := .inl ⟨what, limit, rfl⟩

theorem bind {x y : Except Fault α} {f g : α → Except Fault β} (hx : Kept x y)
    (hf : ∀ a, Kept (f a) (g a)) : Kept (x >>= f) (y >>= g) := by
  rcases hx with ⟨what, limit, rfl⟩ | rfl
  · exact stopped what limit _
  · cases y with
    | error e => exact refl _
    | ok a => exact hf a

theorem map {x y : Except Fault α} (hx : Kept x y) (f : α → β) : Kept (x.map f) (y.map f) := by
  rcases hx with ⟨what, limit, rfl⟩ | rfl
  · exact stopped what limit _
  · exact refl _

theorem check {p q : Prop} [Decidable p] [Decidable q] (weaker : q → p) (what : Nesting)
    (d d' : Nat) {x y : Except Fault α} (h : Kept x y) :
    Kept (if p then .error (.tooDeep what d) else x) (if q then .error (.tooDeep what d') else y) := by
  by_cases stops : p
  · rw [if_pos stops]
    exact stopped what d _
  · rw [if_neg stops, if_neg (stops ∘ weaker)]
    exact h

theorem eq {x y : Except Fault α} (h : Kept x y)
    (passed : ∀ f, x = .error f → f.message ≠ "Nesting too deep") : y = x := by
  rcases h with ⟨what, limit, stopped⟩ | same
  · exact absurd rfl (passed _ stopped)
  · exact same

end Kept

namespace Expr

variable {d d' : Nat} (le : d ≤ d')

include le

theorem close_kept (run : List Element) : Kept (close d run) (close d' run) := by
  unfold close
  split
  · exact .refl _
  · refine .check (Nat.lt_of_le_of_lt le) .operators d d' ((Kept.refl _).bind fun m => ?_)
    exact .check (Nat.lt_of_le_of_lt le) .tree d d' (.refl _)
  · exact .refl _

namespace Frame

variable (f : Frame)

theorem closeStatement_kept : Kept (f.closeStatement d) (f.closeStatement d') :=
  (close_kept le f.run).bind fun _ => .refl _

theorem separate_kept : Kept (f.separate d) (f.separate d') := by
  unfold separate
  split
  · split
    · exact f.closeStatement_kept le
    · exact .refl _
  · exact .refl _

theorem statements_kept : Kept (f.statements d) (f.statements d') := by
  unfold statements
  split
  · exact .refl _
  · exact (close_kept le f.run).bind fun _ => .refl _

theorem element_kept : Kept (f.element d) (f.element d') := by
  unfold element
  split
  · exact (f.statements_kept le).bind fun _ => .refl _
  · exact (f.statements_kept le).bind fun _ => .refl _
  · exact (close_kept le f.run).bind fun _ => .refl _

end Frame

section Step

theorem enter_kept (c : Context) (st : State) : Kept (st.enter d c) (st.enter d' c) :=
  .check (Nat.le_trans le) .brackets d d' (.refl _)

theorem leave_kept (closes : Context → Bool) (fault : Fault) (st : State) :
    Kept (st.leave d closes fault) (st.leave d' closes fault) := by
  unfold State.leave
  split
  · split
    · exact (st.frame.element_kept le).bind fun _ => .refl _
    · exact .refl _
  · exact .refl _

theorem step_kept (inClass : Bool) (st : State) (l : Lexeme) :
    Kept (step ⟨d, inClass⟩ st l) (step ⟨d', inClass⟩ st l) := by
  have separate := st.frame.separate_kept le
  cases kind : l.kind with
  | name | literal =>
    simp only [step, kind]
    exact separate.bind fun _ => .refl _
  | openBracket =>
    simp only [step, kind]
    exact enter_kept le _ st
  | openBrace =>
    simp only [step, kind]
    exact separate.bind fun _ => enter_kept le _ _
  | closeBracket | closeBrace =>
    simp only [step, kind]
    exact leave_kept le _ _ st
  | comma =>
    simp only [step, kind]
    split
    · exact (st.frame.closeStatement_kept le).bind fun _ => .refl _
    · exact .refl _
  | not | bitNot | operator op | keyword k =>
    simp only [step, kind]
    exact .refl _

theorem run_kept (inClass : Bool) (st : State) (ws : List Lexeme) :
    Kept (run ⟨d, inClass⟩ st ws) (run ⟨d', inClass⟩ st ws) := by
  induction ws generalizing st with
  | nil => exact .refl _
  | cons l ws ih =>
    rw [run, run, List.foldlM_cons, List.foldlM_cons]
    exact (step_kept le inClass st l).bind ih

end Step

theorem parseStatement_kept (inClass : Bool) (ws : List Lexeme) :
    Kept (parseStatement ⟨d, inClass⟩ ws) (parseStatement ⟨d', inClass⟩ ws) :=
  (run_kept le inClass _ ws).bind fun st => (Kept.refl st.finish).bind fun f =>
    (close_kept le f.run).bind fun _ => .refl _

theorem parseStatements_kept (inClass : Bool) (ws : List Lexeme) :
    Kept (parseStatements ⟨d, inClass⟩ ws) (parseStatements ⟨d', inClass⟩ ws) :=
  (run_kept le inClass _ ws).bind fun st => (Kept.refl st.finish).bind fun f =>
    (f.statements_kept le).bind fun _ => .refl _

end Expr

end Offside
