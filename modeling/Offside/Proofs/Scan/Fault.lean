import Offside.Scan.Lines

/-!
Scanning fails with lexical faults only: whatever is wrong with a character, a number, a
quoted text, a comment or the indentation of a line, it is found before any parsing.
-/

namespace Offside.Scan

variable {style : Indentation} {number : Nat} {c : Char} {cs : List Char} {f : Fault} {e : Error}

theorem comment_lexical (h : comment cs = .error f) : f.kind = .lexical := by
  unfold comment at h
  split at h
  · split at h <;> cases h
    rfl
  · split at h <;> cases h
    rfl
  · cases h

theorem ofQuoted_lexical (d : Text.Quoted.Defect) : (Fault.ofQuoted d).kind = .lexical := by
  cases d <;> rfl

theorem hexNumber_lexical (h : hexNumber cs = .error f) : f.kind = .lexical := by
  unfold hexNumber at h
  dsimp only at h
  split at h
  · cases h
    rfl
  · split at h <;> cases h
    rfl

theorem decimal_lexical (h : decimal cs = .error f) : f.kind = .lexical := by
  unfold decimal at h
  split at h
  · split at h <;> cases h
    rfl
  · split at h <;> cases h
    rfl
  · cases h
    rfl

theorem number_lexical (h : Scan.number cs = .error f) : f.kind = .lexical := by
  unfold Scan.number at h
  split at h
  · exact hexNumber_lexical h
  · exact decimal_lexical (map_eq_error.1 h)

theorem sigilName_lexical (h : sigilName c cs = .error f) : f.kind = .lexical := by
  unfold sigilName at h
  split at h
  · split at h <;> cases h
    rfl
  · split at h <;> cases h
    rfl
  · cases h
    rfl

theorem next_lexical (h : next c cs = .error f) : f.kind = .lexical := by
  unfold next at h
  split at h
  · cases h
  split at h
  · cases h
  split at h
  · exact comment_lexical (map_eq_error.1 h)
  split at h
  · split at h <;> cases h
    exact ofQuoted_lexical _
  split at h
  · exact number_lexical (map_eq_error.1 h)
  split at h
  · cases h
  split at h
  · cases h
  · exact sigilName_lexical h

theorem level_lexical (h : level style cs = .error f) : f.kind = .lexical := by
  unfold level at h
  split at h
  · cases h
  · cases h
  · cases h
  · cases h
  · dsimp only at h
    split at h
    · split at h <;> cases h
      rfl
    · split at h <;> cases h
      rfl

theorem remainder_lexical (h : remainder style number cs = .error e) :
    e.fault.kind = .lexical := by
  induction number, cs using remainder.induct with
  | case1 number =>
    rw [remainder_nil] at h
    cases h
  | case2 number c cs f hn =>
    rw [remainder_fault hn] at h
    cases h
    exact next_lexical hn
  | case3 number c cs l rest hn ih =>
    rw [remainder_lexeme hn] at h
    exact ih (map_eq_error.1 h)
  | case4 number c cs n rest hn ih =>
    rw [remainder_blank hn] at h
    exact ih h
  | case5 number c cs rest hn ih =>
    rw [remainder_newline hn] at h
    rcases bind_eq_error.1 (map_eq_error.1 h) with h | ⟨indentation, -, h⟩
    · exact level_lexical (atLine_eq_error.1 h).2
    · exact ih (map_eq_error.1 h)

theorem linesFrom_lexical (h : linesFrom style number cs = .error e) :
    e.fault.kind = .lexical := by
  rcases bind_eq_error.1 h with h | ⟨indentation, -, h⟩
  · exact level_lexical (atLine_eq_error.1 h).2
  · exact remainder_lexical (map_eq_error.1 h)

end Offside.Scan

namespace Offside

theorem tokenize_lexical {style : Indentation} {source : String} {e : Error}
    (h : tokenize style source = .error e) : e.fault.kind = .lexical :=
  Scan.linesFrom_lexical h

end Offside
