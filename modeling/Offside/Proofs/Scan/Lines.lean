import Offside.Result
import Offside.Scan.Lines

/-!
Lines of a source. Only a line with lexemes comes out of a text.
-/

namespace Offside.Scan

variable {style : Indentation} {number indentation : Nat} {cs : List Char}
  {found : List Lexeme × List Line} {lines : List Line}

theorem lexemes_of_openLine (h : ∀ l ∈ found.2, l.lexemes ≠ []) :
    ∀ l ∈ openLine number indentation found, l.lexemes ≠ [] := by
  unfold openLine
  split
  · exact h
  · next some => exact List.forall_mem_cons.2 ⟨some, h⟩

theorem lexemes_of_remainder (h : remainder style number cs = .ok found) :
    ∀ l ∈ found.2, l.lexemes ≠ [] := by
  induction number, cs using remainder.induct generalizing found with
  | case1 number =>
    rw [remainder_nil] at h
    cases h
    exact List.forall_mem_nil _
  | case2 number c cs f hn =>
    rw [remainder_fault hn] at h
    cases h
  | case3 number c cs l rest hn ih =>
    rw [remainder_lexeme hn] at h
    obtain ⟨more, read, rfl⟩ := map_eq_ok.1 h
    have behind : ∀ l ∈ more.2, l.lexemes ≠ [] := ih read
    exact behind
  | case4 number c cs n rest hn ih =>
    rw [remainder_blank hn] at h
    exact ih h
  | case5 number c cs rest hn ih =>
    rw [remainder_newline hn] at h
    obtain ⟨lines, next, rfl⟩ := map_eq_ok.1 h
    obtain ⟨indentation, -, measured⟩ := bind_eq_ok.1 next
    obtain ⟨more, read, eq⟩ := bind_eq_ok.1 measured
    cases eq
    exact lexemes_of_openLine (ih read)

theorem lexemes_of_linesFrom (h : linesFrom style number cs = .ok lines) :
    ∀ l ∈ lines, l.lexemes ≠ [] := by
  obtain ⟨indentation, -, measured⟩ := bind_eq_ok.1 h
  obtain ⟨found, read, eq⟩ := bind_eq_ok.1 measured
  cases eq
  exact lexemes_of_openLine (lexemes_of_remainder read)

end Offside.Scan

namespace Offside

theorem lexemes_of_tokenize {style : Indentation} {source : String} {lines : List Line}
    (h : tokenize style source = .ok lines) : ∀ l ∈ lines, l.lexemes ≠ [] :=
  Scan.lexemes_of_linesFrom h

end Offside
