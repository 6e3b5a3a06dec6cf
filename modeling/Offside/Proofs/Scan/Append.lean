import Mathlib
import Offside.Proofs.Scan.Item
import Offside.Scan.Lines

/-!
Lines of a text put together from two. Nothing is carried over the end of a physical line: the
first text ends one, and what comes behind it is scanned as if it stood alone, only further down.
-/

namespace Offside

def Line.shift (n : Nat) (l : Line) : Line :=
  { l with number := l.number + n }

namespace Scan

variable {style : Indentation} {number n : Nat} {c : Char} {cs rest : List Char}
  {ls : List Lexeme} {lines : List Line}

section Shift

theorem openLine_shift (number indentation n : Nat) (found : List Lexeme × List Line) :
    openLine (number + n) indentation (found.1, found.2.map (Line.shift n)) =
      (openLine number indentation found).map (Line.shift n) := by
  unfold openLine
  split <;> rfl

theorem atLine_shift {α : Type} (x : Except Fault α) :
    atLine (number + n) x = (atLine number x).mapError (Error.shift n) := by
  cases x <;> rfl

theorem linesFrom_shift_of_remainder
    (run : remainder style (number + n) (afterIndent cs) =
      ((remainder style number (afterIndent cs)).map fun found =>
        (found.1, found.2.map (Line.shift n))).mapError (Error.shift n)) :
    linesFrom style (number + n) cs =
      ((linesFrom style number cs).map (List.map (Line.shift n))).mapError (Error.shift n) := by
  rw [linesFrom, linesFrom, atLine_shift, run]
  cases atLine number (level style cs) with
  | error e => rfl
  | ok indentation =>
    cases remainder style number (afterIndent cs) with
    | error e => rfl
    | ok found => exact congrArg Except.ok (openLine_shift ..)

/-- Scanning that starts `n` lines further down finds the same there. -/
theorem remainder_shift (style : Indentation) (number n : Nat) (cs : List Char) :
    remainder style (number + n) cs =
      ((remainder style number cs).map fun found =>
        (found.1, found.2.map (Line.shift n))).mapError (Error.shift n) := by
  induction number, cs using remainder.induct with
  | case1 number => rw [remainder_nil, remainder_nil]; rfl
  | case2 number c cs fault h => rw [remainder_fault h, remainder_fault h]; rfl
  | case3 number c cs l rest h ih =>
    rw [remainder_lexeme h, remainder_lexeme h, ih]
    cases remainder style number rest <;> rfl
  | case4 number c cs m rest h ih =>
    rw [remainder_blank h, remainder_blank h, Nat.add_right_comm, ih]
  | case5 number c cs rest h ih =>
    rw [remainder_newline h, remainder_newline h, Nat.add_right_comm,
      linesFrom_shift_of_remainder ih]
    cases linesFrom style (number + 1) rest <;> rfl

theorem linesFrom_shift (style : Indentation) (number n : Nat) (cs : List Char) :
    linesFrom style (number + n) cs =
      ((linesFrom style number cs).map (List.map (Line.shift n))).mapError (Error.shift n) :=
  linesFrom_shift_of_remainder (remainder_shift style number n (afterIndent cs))

end Shift

section Append

theorem ne_nil_of_ends (ends : cs.getLast? = some c) : cs ≠ [] := by
  rintro rfl
  cases ends

theorem head?_append_of_ne_nil (ne : cs ≠ []) (t : List Char) : (cs ++ t).head? = cs.head? := by
  cases cs with
  | nil => exact absurd rfl ne
  | cons c cs => rfl

theorem getLast?_of_append {read : List Char} (h : (read ++ cs).getLast? = some '\n')
    (inside : read.getLast? ≠ some '\n') : cs.getLast? = some '\n' := by
  rw [List.getLast?_append] at h
  cases last : cs.getLast? with
  | none => rw [last] at h; exact absurd h inside
  | some d => rw [last] at h; exact h

theorem next_append {i : Item} (h : next c cs = .ok (i, rest)) (ne : rest ≠ [])
    (t : List Char) : next c (cs ++ t) = .ok (i, rest ++ t) := by
  obtain ⟨read, rfl, -, -, again⟩ := next_advances h
  have same := head?_append_of_ne_nil ne t
  rw [List.append_assoc]
  exact again _ (.inl same) fun _ => same

theorem next_leaves {i : Item} (h : next c cs = .ok (i, rest))
    (ends : (c :: cs).getLast? = some '\n') (inside : i ≠ .newline) :
    rest.getLast? = some '\n' := by
  obtain ⟨read, eq, -, rfl | last, -⟩ := next_advances h
  · cases h
    exact absurd rfl inside
  · rw [eq, ← List.cons_append] at ends
    exact getLast?_of_append ends last.1

theorem next_eq_newline (h : next c cs = .ok (.newline, rest)) : c = '\n' ∧ cs = rest := by
  obtain ⟨_, -, -, rfl | last, -⟩ := next_advances h
  · cases h
    exact ⟨rfl, rfl⟩
  · exact absurd rfl last.2

theorem next_count {i : Item} (h : next c cs = .ok (i, rest)) :
    (c :: cs).count '\n' = i.breaks + rest.count '\n' := by
  obtain ⟨read, rfl, count, -, -⟩ := next_advances h
  rw [← List.cons_append, List.count_append, count]

theorem not_mem_indent (cs : List Char) : '\n' ∉ cs.takeWhile isIndent :=
  not_mem_takeWhile (by decide)

theorem afterIndent_ends (ends : cs.getLast? = some '\n') :
    (afterIndent cs).getLast? = some '\n' := by
  rw [← List.takeWhile_append_dropWhile (p := isIndent) (l := cs)] at ends
  exact getLast?_of_append ends fun last => not_mem_indent cs (List.mem_of_getLast? last)

theorem count_afterIndent (cs : List Char) :
    (afterIndent cs).count '\n' = cs.count '\n' := by
  conv => rhs; rw [← List.takeWhile_append_dropWhile (p := isIndent) (l := cs)]
  rw [List.count_append, List.count_eq_zero.2 (not_mem_indent cs), Nat.zero_add, afterIndent]

theorem indent_append (ne : afterIndent cs ≠ []) (t : List Char) :
    (cs ++ t).takeWhile isIndent = cs.takeWhile isIndent ∧
      afterIndent (cs ++ t) = afterIndent cs ++ t := by
  have head : (afterIndent cs ++ t).head? = (cs.dropWhile isIndent).head? := by
    rw [head?_append_of_ne_nil ne]
    rfl
  have split : cs ++ t = cs.takeWhile isIndent ++ (afterIndent cs ++ t) := by
    rw [← List.append_assoc, afterIndent, List.takeWhile_append_dropWhile]
  rw [split, afterIndent]
  have stop := stop_of_head head
  exact ⟨takeWhile_takeWhile_append stop, dropWhile_takeWhile_append stop⟩

theorem level_append (style : Indentation) (ne : afterIndent cs ≠ []) (t : List Char) :
    level style (cs ++ t) = level style cs := by
  obtain ⟨indent, after⟩ := indent_append ne t
  rw [level, level, indent, after, head?_append_of_ne_nil ne]

theorem openLine_append (number indentation : Nat) (found : List Lexeme × List Line)
    (more : List Line) : openLine number indentation (found.1, found.2 ++ more) =
      openLine number indentation found ++ more := by
  unfold openLine
  split <;> rfl

theorem linesFrom_nil (style : Indentation) (number : Nat) :
    linesFrom style number [] = .ok [] := by
  rw [linesFrom, afterIndent, List.dropWhile_nil, remainder_nil]
  rfl

theorem linesFrom_append_of_remainder (ends : cs = [] ∨ cs.getLast? = some '\n') {t : List Char}
    (run : cs.getLast? = some '\n' → ∀ found,
      remainder style number (afterIndent cs) = .ok found →
      remainder style number (afterIndent cs ++ t) =
        (linesFrom style (number + (afterIndent cs).count '\n') t).map fun more =>
          (found.1, found.2 ++ more))
    (h : linesFrom style number cs = .ok lines) :
    linesFrom style number (cs ++ t) =
      (linesFrom style (number + cs.count '\n') t).map (lines ++ ·) := by
  rcases ends with rfl | ends
  · rw [linesFrom_nil] at h
    cases h
    rw [List.nil_append, List.count_nil, Nat.add_zero]
    cases linesFrom style number t <;> rfl
  · have ne := ne_nil_of_ends (afterIndent_ends ends)
    obtain ⟨indentation, hlevel, h⟩ := bind_eq_ok.1 h
    obtain ⟨found, hfound, h⟩ := bind_eq_ok.1 h
    cases h
    rw [linesFrom, level_append style ne, hlevel, (indent_append ne t).2,
      run ends found hfound, count_afterIndent]
    cases linesFrom style (number + cs.count '\n') t with
    | error e => rfl
    | ok more => exact congrArg Except.ok (openLine_append ..)

/-- On the first text: its last step ends a physical line, and no other step reads that end. -/
theorem remainder_append (ends : cs.getLast? = some '\n')
    (h : remainder style number cs = .ok (ls, lines)) (t : List Char) :
    remainder style number (cs ++ t) =
      (linesFrom style (number + cs.count '\n') t).map fun more => (ls, lines ++ more) := by
  induction number, cs using remainder.induct generalizing ls lines with
  | case1 number => cases ends
  | case2 number c cs fault hn =>
    rw [remainder_fault hn] at h
    cases h
  | case3 number c cs l rest hn ih =>
    have left := next_leaves hn ends nofun
    have ne := ne_nil_of_ends left
    rw [remainder_lexeme hn] at h
    obtain ⟨found, hfound, h⟩ := map_eq_ok.1 h
    cases h
    rw [List.cons_append, remainder_lexeme (next_append hn ne t), ih left hfound, next_count hn,
      Item.breaks, Nat.zero_add]
    cases linesFrom style (number + rest.count '\n') t <;> rfl
  | case4 number c cs n rest hn ih =>
    have left := next_leaves hn ends nofun
    have ne := ne_nil_of_ends left
    rw [remainder_blank hn] at h
    rw [List.cons_append, remainder_blank (next_append hn ne t), ih left h, next_count hn,
      Item.breaks, Nat.add_assoc]
  | case5 number c cs rest hn ih =>
    obtain ⟨rfl, rfl⟩ := next_eq_newline hn
    rw [remainder_newline hn] at h
    obtain ⟨lines, hlines, h⟩ := map_eq_ok.1 h
    cases h
    have ends : cs = [] ∨ cs.getLast? = some '\n' := by
      cases cs with
      | nil => exact .inl rfl
      | cons d cs => exact .inr (by simpa using ends)
    have run := linesFrom_append_of_remainder ends (t := t)
      (fun left found hfound => ih (afterIndent_ends left) hfound) hlines
    rw [List.cons_append, remainder_newline (next_newline _), run, List.count_cons_self,
      Nat.add_right_comm, ← Nat.add_assoc]
    cases linesFrom style (number + cs.count '\n' + 1) t <;> rfl

end Append

end Scan

open Scan

/-- A text that ends its last physical line, or is empty, may be put in front of any other: its
lines come first, and what is found behind them, lines or an error, is as it would be alone,
further down by the line breaks in front. -/
theorem tokenize_append {style : Indentation} {source : String} {lines : List Line}
    (ends : source = "" ∨ source.toList.getLast? = some '\n')
    (h : tokenize style source = .ok lines) (t : String) :
    (∀ more, tokenize style t = .ok more →
      tokenize style (source ++ t) =
        .ok (lines ++ more.map (Line.shift (source.toList.count '\n')))) ∧
    ∀ e, tokenize style t = .error e →
      tokenize style (source ++ t) = .error (e.shift (source.toList.count '\n')) ∧
      (e.shift (source.toList.count '\n')).diagnostic =
        { e.diagnostic with line := e.diagnostic.line + source.toList.count '\n' } := by
  have run : tokenize style (source ++ t) =
      (linesFrom style (1 + source.toList.count '\n') t.toList).map (lines ++ ·) := by
    rw [tokenize, String.toList_append]
    refine linesFrom_append_of_remainder (ends.imp_left fun eq => by rw [eq]; rfl) ?_ h
    exact fun left found hfound => remainder_append (afterIndent_ends left) hfound t.toList
  rw [run, linesFrom_shift]
  constructor
  · intro more hmore
    rw [show linesFrom style 1 t.toList = .ok more from hmore]
    rfl
  · intro e he
    rw [show linesFrom style 1 t.toList = .error e from he]
    exact ⟨rfl, rfl⟩

theorem tokenize_append_comment :
    ("1 ;; \n ;; 2\n" = "" ∨ "1 ;; \n ;; 2\n".toList.getLast? = some '\n') ∧
    tokenize .tabs "1 ;; \n ;; 2\n" =
      .ok [⟨1, 0, [.ofLiteral (.int 1), .ofLiteral (.int 2)]⟩] ∧
    tokenize .tabs "\n\t3" = .ok [⟨2, 1, [.ofLiteral (.int 3)]⟩] ∧
    tokenize .tabs ("1 ;; \n ;; 2\n" ++ "\n\t3") =
      .ok [⟨1, 0, [.ofLiteral (.int 1), .ofLiteral (.int 2)]⟩,
        ⟨4, 1, [.ofLiteral (.int 3)]⟩] ∧
    tokenize .tabs "\n1." = .error ⟨2, .trailingDot⟩ ∧
    tokenize .tabs ("1 ;; \n ;; 2\n" ++ "\n1.") = .error ⟨4, .trailingDot⟩ := by
  have ends : "1 ;; \n ;; 2\n" = "" ∨ "1 ;; \n ;; 2\n".toList.getLast? = some '\n' := by decide
  have front : tokenize .tabs "1 ;; \n ;; 2\n" =
      .ok [⟨1, 0, [.ofLiteral (.int 1), .ofLiteral (.int 2)]⟩] := by cbv
  have line : tokenize .tabs "\n\t3" = .ok [⟨2, 1, [.ofLiteral (.int 3)]⟩] := by cbv
  have fails : tokenize .tabs "\n1." = .error ⟨2, .trailingDot⟩ := by cbv
  have joined := (tokenize_append ends front "\n\t3").1 _ line
  have failed := ((tokenize_append ends front "\n1.").2 _ fails).1
  exact ⟨ends, front, line, joined, fails, failed⟩

end Offside
