import Mathlib
import Offside.Proofs.Scan.Append

/-!
The places of a source that scanning comes to. Each has the number of its line, the lexemes behind it
and the text in front of it, and a step leads from one to the next. What a step fails with is what
the source fails with; what a source is made of are the lexemes behind its end.
-/

namespace Offside.Scan

/-- Scanning `source` comes to where `cs` is left of it, on the line of that number and with these
lexemes behind. -/
inductive Reaches (style : Indentation) (source : List Char) :
    Nat → List Lexeme → List Char → Prop
  | start {indentation} (measured : level style source = .ok indentation) :
      Reaches style source 1 [] (afterIndent source)
  | lexeme {number ls c cs l rest} (h : Reaches style source number ls (c :: cs))
      (step : next c cs = .ok (.lexeme l, rest)) : Reaches style source number (ls ++ [l]) rest
  | blank {number ls c cs n rest} (h : Reaches style source number ls (c :: cs))
      (step : next c cs = .ok (.blank n, rest)) : Reaches style source (number + n) ls rest
  | newline {number ls c cs rest indentation} (h : Reaches style source number ls (c :: cs))
      (step : next c cs = .ok (.newline, rest)) (measured : level style rest = .ok indentation) :
      Reaches style source (number + 1) ls (afterIndent rest)

variable {style : Indentation} {source cs rest : List Char} {number n : Nat} {c : Char}
  {before after ls : List Lexeme} {l : Lexeme} {e : Error} {found : List Lexeme × List Line}

namespace Reaches

theorem passed (h : Reaches style source number ls cs) :
    ∃ front, source = front ++ cs ∧ number = 1 + front.count '\n' := by
  have indented (read cs : List Char) : (read ++ cs.takeWhile isIndent).count '\n' =
      read.count '\n' := by
    rw [List.count_append, List.count_eq_zero.2 (not_mem_indent cs), Nat.add_zero]
  induction h with
  | start _ =>
    exact ⟨_, List.takeWhile_append_dropWhile.symm, congrArg (1 + ·) (indented [] source).symm⟩
  | lexeme _ step ih =>
    obtain ⟨front, eq, count⟩ := ih
    obtain ⟨read, rfl, breaks, _⟩ := next_advances step
    refine ⟨front ++ _ :: read, by rw [eq, List.append_assoc, List.cons_append], ?_⟩
    rw [List.count_append, breaks, count]
    rfl
  | blank _ step ih =>
    obtain ⟨front, eq, count⟩ := ih
    obtain ⟨read, rfl, breaks, _⟩ := next_advances step
    refine ⟨front ++ _ :: read, by rw [eq, List.append_assoc, List.cons_append], ?_⟩
    rw [List.count_append, breaks, count, Item.breaks, Nat.add_assoc]
  | @newline _ _ c cs' rest _ _ step _ ih =>
    obtain ⟨front, eq, count⟩ := ih
    obtain ⟨rfl, rfl⟩ := next_eq_newline step
    refine ⟨front ++ ['\n'] ++ cs'.takeWhile isIndent, ?_, ?_⟩
    · rw [eq, List.append_assoc, List.append_assoc, afterIndent, List.takeWhile_append_dropWhile]
      rfl
    · rw [indented, List.count_append, count, Nat.add_assoc]
      rfl

theorem split (h : Reaches style source number ls cs) (eq : ls = before ++ l :: after) :
    ∃ number' c cs' rest, Reaches style source number' before (c :: cs') ∧
      next c cs' = .ok (.lexeme l, rest) := by
  induction h generalizing after with
  | start _ => exact absurd eq (List.append_ne_nil_of_right_ne_nil _ (List.cons_ne_nil _ _)).symm
  | blank _ _ ih | newline _ _ _ ih => exact ih eq
  | lexeme h step ih =>
    rcases List.eq_nil_or_concat after with rfl | ⟨after, last, rfl⟩
    · obtain ⟨rfl, same⟩ := List.append_inj' eq rfl
      cases same
      exact ⟨_, _, _, _, h, step⟩
    · rw [List.concat_eq_append, ← List.cons_append, ← List.append_assoc] at eq
      exact ih (List.append_inj' eq rfl).1

end Reaches

section Run

variable {text : String}

theorem Reaches.fault (h : Reaches style text.toList number ls cs)
    (stops : remainder style number cs = .error e) : tokenize style text = .error e := by
  induction h generalizing e with
  | start measured =>
    rw [tokenize, linesFrom, measured, stops]
    rfl
  | lexeme _ step ih => exact ih (by rw [remainder_lexeme step, stops]; rfl)
  | blank _ step ih => exact ih (by rw [remainder_blank step, stops])
  | newline _ step measured ih =>
    refine ih ?_
    rw [remainder_newline step, linesFrom, measured, stops]
    rfl

theorem flatMap_openLine (number indentation : Nat) (found : List Lexeme × List Line) :
    (openLine number indentation found).flatMap Line.lexemes =
      found.1 ++ found.2.flatMap Line.lexemes := by
  unfold openLine
  split
  · next none_ => rw [none_, List.nil_append]
  · rfl

theorem Reaches.lexemes (h : Reaches style text.toList number ls cs)
    (run : remainder style number cs = .ok found) : ∃ lines, tokenize style text = .ok lines ∧
      lines.flatMap Line.lexemes = ls ++ (found.1 ++ found.2.flatMap Line.lexemes) := by
  induction h generalizing found with
  | start measured =>
    refine ⟨_, by rw [tokenize, linesFrom, measured, run]; rfl, ?_⟩
    rw [flatMap_openLine, List.nil_append]
  | @lexeme _ ls _ _ l _ _ step ih =>
    obtain ⟨lines, read, eq⟩ := ih (by rw [remainder_lexeme step, run]; rfl)
    exact ⟨lines, read, eq.trans (List.append_cons ls l _)⟩
  | blank _ step ih => exact ih (by rw [remainder_blank step, run])
  | newline _ step measured ih =>
    obtain ⟨lines, read, eq⟩ := ih (by rw [remainder_newline step, linesFrom, measured, run]; rfl)
    rw [flatMap_openLine] at eq
    exact ⟨lines, read, eq⟩

theorem Reaches.begins {lines : List Line} (h : Reaches style text.toList number ls cs)
    (read : tokenize style text = .ok lines) : ls <+: lines.flatMap Line.lexemes := by
  cases run : remainder style number cs with
  | error e =>
    rw [h.fault run] at read
    cases read
  | ok found =>
    obtain ⟨_, same, eq⟩ := h.lexemes run
    cases read.symm.trans same
    exact eq ▸ List.prefix_append _ _

theorem reaches_of_remainder (h : Reaches style source number before cs)
    (run : remainder style number cs = .ok found) :
    ∃ last, Reaches style source last (before ++ (found.1 ++ found.2.flatMap Line.lexemes)) [] := by
  induction number, cs using remainder.induct generalizing before found with
  | case1 number =>
    rw [remainder_nil] at run
    cases run
    exact ⟨number, (List.append_nil before).symm ▸ h⟩
  | case2 number c cs f hn =>
    rw [remainder_fault hn] at run
    cases run
  | case3 number c cs l rest hn ih =>
    rw [remainder_lexeme hn] at run
    obtain ⟨more, read, rfl⟩ := map_eq_ok.1 run
    obtain ⟨last, ends⟩ := ih (h.lexeme hn) read
    rw [List.append_assoc] at ends
    exact ⟨last, ends⟩
  | case4 number c cs n rest hn ih =>
    rw [remainder_blank hn] at run
    exact ih (h.blank hn) run
  | case5 number c cs rest hn ih =>
    rw [remainder_newline hn] at run
    obtain ⟨lines, next, rfl⟩ := map_eq_ok.1 run
    obtain ⟨indentation, measured, next⟩ := bind_eq_ok.1 next
    obtain ⟨more, read, eq⟩ := bind_eq_ok.1 next
    cases eq
    obtain ⟨last, ends⟩ := ih (h.newline hn (atLine_eq_ok.1 measured)) read
    rw [List.nil_append, flatMap_openLine]
    exact ⟨last, ends⟩

theorem reaches_of_tokenize {lines : List Line} (h : tokenize style text = .ok lines) :
    ∃ last, Reaches style text.toList last (lines.flatMap Line.lexemes) [] := by
  obtain ⟨indentation, measured, run⟩ := bind_eq_ok.1 h
  obtain ⟨found, read, eq⟩ := bind_eq_ok.1 run
  cases eq
  rw [flatMap_openLine]
  exact reaches_of_remainder (.start (atLine_eq_ok.1 measured)) read

end Run

end Offside.Scan
