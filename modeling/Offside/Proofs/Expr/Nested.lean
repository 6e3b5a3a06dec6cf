import Offside.Error
import Offside.Proofs.Expr.Limit
import Offside.Proofs.Expr.Parsed

/-!
Phrases inside more brackets. Brackets around a phrase take from the limit as many levels as there
are brackets, and nothing else of the phrase depends on them: what is derived on its own is derived
inside them, and read there, if the limit is that much higher. Under the limit that it has, a line
is parsed as under a higher one, or is nested too deep.
-/

namespace Offside

/-- The computation fails with a parse error of that message, on that line. -/
def Rejected {α : Type} (line : Nat) (message : String) (x : Except Fault α) : Prop :=
  ∃ e : Error, atLine line x = .error e ∧ e.line = line ∧ e.diagnostic.kind = .parse ∧
    e.diagnostic.message = message

theorem Rejected.of_error {α : Type} {x : Except Fault α} {f : Fault} (h : x = .error f)
    (parse : f.kind = .parse) (line : Nat) : Rejected line f.message x :=
  ⟨⟨line, f⟩, atLine_eq_error.2 ⟨rfl, h⟩, rfl, parse, rfl⟩

namespace Expr

variable {s : Setting} {level n d : Nat} {ws : List Lexeme} {e : Expr}

/-- On the derivation: every level in it is deeper by the same number, and so is the limit. -/
theorem Derives.nested {p : Phrase} (h : Derives s level p ws) (room : s.maxDepth + n ≤ d) :
    Derives ⟨d, s.inClass⟩ (level + n) p ws := by
  have le : s.maxDepth ≤ d := Nat.le_trans (Nat.le_add_right ..) room
  have lower {level : Nat} (lt : level < s.maxDepth) : level + n < d :=
    Nat.lt_of_lt_of_le (Nat.add_lt_add_right lt n) room
  induction h with
  | name kind payload member => exact .name kind payload member
  | literal kind payload => exact .literal kind payload
  | @group level _ _ _ _ ho hc lt _ ih =>
    rw [Nat.add_right_comm] at ih
    exact .group ho hc (lower lt) ih
  | @array level _ _ _ _ ho hc lt _ ih =>
    rw [Nat.add_right_comm] at ih
    exact .array ho hc (lower lt) ih
  | @call level _ _ _ _ ho hc lt _ ih =>
    rw [Nat.add_right_comm] at ih
    exact .call ho hc (lower lt) ih
  | uncalled _ ih => exact .uncalled ih
  | called _ _ ihl ihr => exact .called ihl ihr
  | unsigned _ ih => exact .unsigned ih
  | signed sign _ ih => exact .signed sign ih
  | alone _ ih => exact .alone ih
  | joined _ op _ ihl ihr => exact .joined ihl op ihr
  | statement _ few climbs deep ih =>
    exact .statement ih (Nat.le_trans few le) climbs (Nat.le_trans deep le)
  | single _ ih => exact .single ih
  | comma _ comma _ ihl ihr => exact .comma ihl comma ihr
  | adjacent _ opens _ ihl ihr => exact .adjacent ihl opens ihr
  | empty => exact .empty
  | nonempty _ ih => exact .nonempty ih

theorem run_of_parseStatement (h : parseStatement s ws = .ok e) (outer : List Frame)
    (room : s.maxDepth + outer.length ≤ d) (c : Context) : ∃ es,
      run ⟨d, s.inClass⟩ ⟨⟨c, [], []⟩, outer⟩ ws = .ok ⟨⟨c, [], es⟩, outer⟩ := by
  have inside := (derives_of_parseStatement h).nested room
  rw [Nat.zero_add] at inside
  obtain ⟨es, reads, -⟩ := reads_of_derives inside c [] outer rfl
  exact ⟨es, reads⟩

theorem parseStatement_of_higher (le : s.maxDepth ≤ d) (line : Nat) (ws : List Lexeme) :
    parseStatement s ws = parseStatement ⟨d, s.inClass⟩ ws ∨
      Rejected line "Nesting too deep" (parseStatement s ws) := by
  rcases parseStatement_kept le s.inClass ws with ⟨what, limit, stopped⟩ | same
  · exact .inr (.of_error stopped rfl line)
  · exact .inl same.symm

theorem rejected_of_higher {f : Fault} (le : s.maxDepth ≤ d)
    (h : parseStatement ⟨d, s.inClass⟩ ws = .error f) (parse : f.kind = .parse) (line : Nat) :
    Rejected line f.message (parseStatement s ws) ∨
      Rejected line "Nesting too deep" (parseStatement s ws) := by
  rcases parseStatement_of_higher le line ws with same | stopped
  · exact .inl (.of_error (same.trans h) parse line)
  · exact .inr stopped

end Expr

end Offside
