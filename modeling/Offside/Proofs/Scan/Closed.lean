import Mathlib
import Offside.Proofs.Scan.Indentation

/-!
Comments that are closed. Behind a line that goes on with code, such a comment is read like a
blank: what comes behind it stays on the line, and only the line breaks in it are counted.
-/

namespace Offside

/-- The scan for `;.` and `.;` from the left, at that depth, first returns to depth zero at the
end of the text. -/
inductive Closes : Nat → List Char → Prop
  | last : Closes 1 ['.', ';']
  | opens {d cs} : Closes (d + 1) cs → Closes d (';' :: '.' :: cs)
  | closes {d cs} : Closes (d + 1) cs → Closes (d + 2) ('.' :: ';' :: cs)
  | skip {d c cs} : ¬ [';', '.'] <+: c :: cs → ¬ ['.', ';'] <+: c :: cs → Closes d cs →
      Closes d (c :: cs)

/-- A comment with an end of its own, and nothing behind that. -/
inductive ClosedComment : List Char → Prop
  | block {cs} : ¬ [';', ';'] <:+: cs → cs.getLast? ≠ some ';' →
      ClosedComment (';' :: ';' :: (cs ++ [';', ';']))
  | nested {cs} : Closes 1 cs → ClosedComment (';' :: '.' :: cs)

theorem Closes.ne_nil {d : Nat} {cs : List Char} (h : Closes d cs) : cs ≠ [] := by
  cases h <;> exact List.cons_ne_nil _ _

namespace Scan

variable {style : Indentation} {number n d : Nat} {c : Char} {cs t u rest : List Char}

section Comments

theorem blockComment_closed (inside : ¬ [';', ';'] <:+: cs) (last : cs.getLast? ≠ some ';')
    (t : List Char) : blockComment (cs ++ ';' :: ';' :: t) = some (cs.count '\n', t) := by
  induction cs with
  | nil => rfl
  | cons c cs ih =>
    have inside' : ¬ [';', ';'] <:+: cs := fun h => inside (h.trans (List.infix_cons (List.infix_refl cs)))
    have last' : cs.getLast? ≠ some ';' := fun h => last (by simp [List.getLast?_cons, h])
    rw [List.cons_append, blockComment.eq_2, ih inside' last', count_lineBreak]
    · rfl
    · rintro v rfl eq
      cases cs with
      | nil => exact last rfl
      | cons d cs =>
        obtain rfl := (List.cons.inj eq).1
        exact inside ⟨[], cs, rfl⟩

theorem marker_of_append {e : Char} {v : List Char} (ne : cs ≠ []) (eq : cs ++ t = e :: v)
    (c : Char) : [c, e] <+: c :: cs := by
  cases cs with
  | nil => exact absurd rfl ne
  | cons d cs =>
    obtain rfl := (List.cons.inj eq).1
    exact ⟨cs, rfl⟩

theorem nestedComment_closes (h : Closes (d + 1) cs) (t : List Char) :
    nestedComment d (cs ++ t) = some (cs.count '\n', t) := by
  generalize depth : d + 1 = e at h
  induction h generalizing d with
  | last =>
    cases depth
    rfl
  | opens _ ih =>
    rw [List.cons_append, List.cons_append, nestedComment, ih (congrArg (· + 1) depth)]
    rfl
  | closes _ ih =>
    cases depth
    rw [List.cons_append, List.cons_append, nestedComment, ih rfl]
    rfl
  | skip opens closes more ih =>
    rw [List.cons_append, nestedComment.eq_4, ih depth, count_lineBreak]
    · rfl
    · rintro v rfl eq
      exact opens (marker_of_append more.ne_nil eq ';')
    · rintro v rfl eq
      exact closes (marker_of_append more.ne_nil eq '.')

theorem closes_iff : Closes (d + 1) cs ↔ ∃ n, nestedComment d cs = some (n, []) := by
  constructor
  · intro h
    have read := nestedComment_closes h []
    rw [List.append_nil] at read
    exact ⟨_, read⟩
  · rintro ⟨n, h⟩
    induction d, cs using nestedComment.induct generalizing n with
    | case1 d rest ih =>
      rw [nestedComment] at h
      exact .opens (ih n h)
    | case2 rest =>
      cases h
      exact .last
    | case3 rest d ih =>
      rw [nestedComment] at h
      exact .closes (ih n h)
    | case4 d c rest opens closes ih =>
      rw [nestedComment.eq_4 d c rest opens closes] at h
      obtain ⟨⟨m, left⟩, found, eq⟩ := Option.map_eq_some_iff.1 h
      cases eq
      refine .skip ?_ ?_ (ih m found)
      · rintro ⟨t, eq⟩
        obtain ⟨rfl, rfl⟩ := List.cons.inj eq
        exact opens t rfl rfl
      · rintro ⟨t, eq⟩
        obtain ⟨rfl, rfl⟩ := List.cons.inj eq
        exact closes t rfl rfl
    | case5 => cases h

/-- A closed comment is one step, whatever comes behind it. -/
theorem next_closed (h : ClosedComment cs) (t : List Char) : ∃ read, cs = ';' :: read ∧
    next ';' (read ++ t) = .ok (.blank (cs.count '\n'), t) := by
  cases h with
  | @block cs inside last =>
    refine ⟨_, rfl, ?_⟩
    have read := blockComment_closed inside last t
    have count : (';' :: ';' :: (cs ++ [';', ';'])).count '\n' = cs.count '\n' := by simp
    rw [next_semicolon, List.cons_append, List.append_assoc, count, comment]
    simp only [List.cons_append, List.nil_append, read]
    rfl
  | @nested cs closes =>
    refine ⟨_, rfl, ?_⟩
    have read := nestedComment_closes closes t
    have count : (';' :: '.' :: cs).count '\n' = cs.count '\n' := by simp
    rw [next_semicolon, List.cons_append, count, comment]
    simp only [read]
    rfl

theorem comment_to_end (h : comment cs = .ok (n, [])) :
    cs.getLast? = some ';' ∨ '\n' ∉ cs := by
  unfold comment at h
  split at h
  · split at h <;> cases h
    next found =>
    obtain ⟨body, rfl, -, -⟩ := blockComment_read found
    exact .inl (List.getLast?_concat (l := ';' :: body))
  · split at h <;> cases h
    next found =>
    obtain ⟨body, rfl, -, -⟩ := nestedComment_read found
    exact .inl (List.getLast?_concat (l := '.' :: body))
  · have nothing := (Prod.mk.inj (Except.ok.inj h)).2
    rw [List.dropWhile_eq_nil_iff] at nothing
    exact .inr fun mem => by simpa using nothing _ mem

end Comments

section Code

/-- The text ends on a line with code on it: outside of comments, and behind the indentation. -/
structure EndsInCode (cs : List Char) : Prop where
  outside : ∀ a b, cs = a ++ ';' :: b → '\n' ∈ b
  begun : ∀ a b, cs = a ++ '\n' :: b → afterIndent b ≠ []

theorem EndsInCode.right {read : List Char} (h : EndsInCode (read ++ cs)) : EndsInCode cs where
  outside a b eq := h.outside (read ++ a) b (by rw [eq, List.append_assoc])
  begun a b eq := h.begun (read ++ a) b (by rw [eq, List.append_assoc])

theorem EndsInCode.afterIndent (h : EndsInCode cs) : EndsInCode (afterIndent cs) := by
  rw [← List.takeWhile_append_dropWhile (p := isIndent) (l := cs)] at h
  exact h.right

theorem EndsInCode.next_append {i : Item} (h : EndsInCode (c :: cs)) (step : next c cs = .ok (i, rest))
    (separated : u.head? = some ' ' ∨ u.head? = some ';') :
    next c (cs ++ u) = .ok (i, rest ++ u) := by
  by_cases ne : rest = []
  · subst ne
    obtain ⟨read, rfl, -, -, again⟩ := next_advances step
    rw [List.append_nil] at step h ⊢
    have separates : ∃ d ∈ separators, u.head? = some d :=
      separated.elim (⟨_, by decide, ·⟩) (⟨_, by decide, ·⟩)
    refine again u (.inr ⟨rfl, separates⟩) fun semicolon => ?_
    subst semicolon
    obtain ⟨⟨n, rest⟩, comment, eq⟩ := map_eq_ok.1 step
    cases eq
    rcases comment_to_end comment with last | clear
    · obtain ⟨body, rfl⟩ := List.getLast?_eq_some_iff.1 last
      exact absurd (h.outside (';' :: body) [] rfl) List.not_mem_nil
    · exact absurd (h.outside [] read rfl) clear
  · exact Scan.next_append step ne u

theorem EndsInCode.next_right {i : Item} (h : EndsInCode (c :: cs)) (step : next c cs = .ok (i, rest)) :
    EndsInCode rest := by
  obtain ⟨read, rfl, -, -, -⟩ := next_advances step
  rw [← List.cons_append] at h
  exact h.right

def pushed (m n : Nat) (l : Line) : Line :=
  if m < l.number then l.shift n else l

theorem openLine_pushed {number indentation m n : Nat} (le : number ≤ m)
    (found : List Lexeme × List Line) : openLine number indentation (found.1, found.2.map (pushed m n)) =
      (openLine number indentation found).map (pushed m n) := by
  unfold openLine
  split
  · rfl
  · rw [List.map_cons, pushed, if_neg (Nat.not_lt.2 le)]

theorem linesFrom_comment_of_remainder {lines : List Line} {m n : Nat} (le : number ≤ m)
    (ne : afterIndent cs ≠ []) (ok : linesFrom style number cs = .ok lines)
    (run : ∀ found, remainder style number (afterIndent cs) = .ok found →
      remainder style number (afterIndent cs ++ u) =
        ((remainder style number (afterIndent cs ++ t)).map fun found =>
          (found.1, found.2.map (pushed m n))).mapError (Error.shift n)) :
    linesFrom style number (cs ++ u) =
      ((linesFrom style number (cs ++ t)).map (List.map (pushed m n))).mapError (Error.shift n) := by
  obtain ⟨indentation, measured, ok⟩ := bind_eq_ok.1 ok
  obtain ⟨found, read, -⟩ := bind_eq_ok.1 ok
  rw [linesFrom, linesFrom, level_append style ne, level_append style ne, measured,
    (indent_append ne u).2, (indent_append ne t).2, run found read]
  cases remainder style number (afterIndent cs ++ t) with
  | error e => rfl
  | ok found => exact congrArg Except.ok (openLine_pushed le found)

/-- On the text in front: at its end, the comment is one step and the blank another, and all lines
that are found from there on begin further down. -/
theorem remainder_comment {C : List Char} {found : List Lexeme × List Line}
    (closed : ClosedComment C) (ends : EndsInCode cs) (ok : remainder style number cs = .ok found)
    (t : List Char) : remainder style number (cs ++ (C ++ t)) =
      ((remainder style number (cs ++ ' ' :: t)).map fun found =>
        (found.1, found.2.map (pushed (number + cs.count '\n') (C.count '\n')))).mapError
          (Error.shift (C.count '\n')) := by
  have semicolon : (C ++ t).head? = some ';' := by
    cases closed <;> rfl
  induction number, cs using remainder.induct generalizing found with
  | case1 number =>
    obtain ⟨read, eq, step⟩ := next_closed closed t
    have comment : remainder style number (C ++ t) = remainder style (number + C.count '\n') t := by
      rw [← remainder_blank step, eq]
      rfl
    have blank : remainder style number (' ' :: t) = remainder style number t :=
      remainder_blank (next_white t (.inl rfl))
    rw [List.nil_append, List.nil_append, comment, blank, remainder_shift]
    cases behind : remainder style number t with
    | error e => rfl
    | ok found =>
      have later : found.2.map (Line.shift (C.count '\n')) =
          found.2.map (pushed number (C.count '\n')) := by
        refine List.map_congr_left fun l mem => ?_
        obtain ⟨k, -, line, -⟩ := begins_of_remainder behind mem
        exact (if_pos (by omega)).symm
      exact congrArg (fun lines => Except.ok (found.1, lines)) later
  | case2 number c cs fault step =>
    rw [remainder_fault step] at ok
    cases ok
  | case3 number c cs l rest step ih =>
    rw [remainder_lexeme step] at ok
    obtain ⟨more, ok, -⟩ := map_eq_ok.1 ok
    rw [List.cons_append, List.cons_append,
      remainder_lexeme (ends.next_append step (.inr semicolon)),
      remainder_lexeme (ends.next_append step (.inl rfl)), ih (ends.next_right step) ok,
      next_count step, Item.breaks, Nat.zero_add]
    cases remainder style number (rest ++ ' ' :: t) <;> rfl
  | case4 number c cs n rest step ih =>
    rw [remainder_blank step] at ok
    rw [List.cons_append, List.cons_append,
      remainder_blank (ends.next_append step (.inr semicolon)),
      remainder_blank (ends.next_append step (.inl rfl)), ih (ends.next_right step) ok,
      next_count step, Item.breaks, Nat.add_assoc]
  | case5 number c cs rest step ih =>
    obtain ⟨rfl, rfl⟩ := next_eq_newline step
    rw [remainder_newline step] at ok
    obtain ⟨lines, ok, -⟩ := map_eq_ok.1 ok
    have ne := ends.begun [] cs rfl
    have within := (ends.next_right step).afterIndent
    rw [List.cons_append, List.cons_append, remainder_newline (next_newline _),
      remainder_newline (next_newline _), linesFrom_comment_of_remainder
        (m := number + ('\n' :: cs).count '\n') (n := C.count '\n') (t := ' ' :: t) ?_ ne ok ?_]
    · cases linesFrom style (number + 1) (cs ++ ' ' :: t) <;> rfl
    · rw [List.count_cons_self]
      omega
    · intro found read
      rw [ih within read, count_afterIndent, List.count_cons_self, Nat.add_right_comm, Nat.add_assoc]

theorem afterIndent_ne_nil (h : ∃ c ∈ cs, isIndent c = false) : afterIndent cs ≠ [] := by
  obtain ⟨c, mem, other⟩ := h
  intro nothing
  rw [afterIndent, List.dropWhile_eq_nil_iff] at nothing
  rw [nothing c mem] at other
  cases other

theorem rtakeWhile_append (clear : '\n' ∉ t) (cs : List Char) :
    (cs ++ t).rtakeWhile (· != '\n') = cs.rtakeWhile (· != '\n') ++ t := by
  have all : ∀ c ∈ t.reverse, (c != '\n') = true := by
    intro c mem
    rw [bne_iff_ne]
    rintro rfl
    exact clear (List.mem_reverse.1 mem)
  rw [List.rtakeWhile, List.reverse_append, List.takeWhile_append_of_pos all, List.reverse_append,
    List.reverse_reverse, List.rtakeWhile]

theorem endsInCode_of_rtakeWhile (code : ∃ c ∈ cs.rtakeWhile (· != '\n'), isIndent c = false)
    (outside : ';' ∉ cs.rtakeWhile (· != '\n')) : EndsInCode cs where
  outside a b eq := by
    by_contra clear
    refine outside ?_
    rw [eq, rtakeWhile_append (by simpa using clear)]
    simp
  begun a b eq := by
    apply afterIndent_ne_nil
    by_cases clear : '\n' ∈ b
    · exact ⟨'\n', clear, rfl⟩
    · have nothing : (a ++ ['\n']).rtakeWhile (· != '\n') = [] :=
        List.rtakeWhile_concat_neg _ _ _ (by decide)
      rwa [eq, ← List.singleton_append, ← List.append_assoc, rtakeWhile_append clear, nothing,
        List.nil_append] at code

end Code

end Scan

open Scan

/-- A closed comment behind code is read like a blank, whatever comes behind it: the same lines are
found or the same fault, and what is found further down is so by the line breaks in the comment.
The last physical line in front has something on it but indentation, and no semicolon. -/
theorem tokenize_comment {style : Indentation} {front comment : String} {lines : List Line}
    (h : tokenize style front = .ok lines)
    (code : ∃ c ∈ front.toList.rtakeWhile (· != '\n'), c ≠ ' ' ∧ c ≠ '\t')
    (outside : ';' ∉ front.toList.rtakeWhile (· != '\n')) (closed : ClosedComment comment.toList)
    (t : String) :
    (∀ ls, tokenize style (front ++ " " ++ t) = .ok ls → tokenize style (front ++ comment ++ t) =
      .ok (ls.map fun l => if 1 + front.toList.count '\n' < l.number then
        l.shift (comment.toList.count '\n') else l)) ∧
    ∀ e, tokenize style (front ++ " " ++ t) = .error e →
      tokenize style (front ++ comment ++ t) = .error (e.shift (comment.toList.count '\n')) ∧
      (e.shift (comment.toList.count '\n')).diagnostic =
        { e.diagnostic with line := e.diagnostic.line + comment.toList.count '\n' } := by
  have code' : ∃ c ∈ front.toList.rtakeWhile (· != '\n'), isIndent c = false := by
    obtain ⟨c, mem, space, tab⟩ := code
    exact ⟨c, mem, by simp [isIndent, space, tab]⟩
  have ends := endsInCode_of_rtakeWhile code' outside
  have ne : afterIndent front.toList ≠ [] := by
    obtain ⟨c, mem, other⟩ := code'
    exact afterIndent_ne_nil ⟨c, List.rtakeWhile_suffix _ _ |>.subset mem, other⟩
  have run : tokenize style (front ++ comment ++ t) =
      ((tokenize style (front ++ " " ++ t)).map (List.map (pushed (1 + front.toList.count '\n')
        (comment.toList.count '\n')))).mapError (Error.shift (comment.toList.count '\n')) := by
    simp only [tokenize, String.toList_append, List.append_assoc]
    refine linesFrom_comment_of_remainder (Nat.le_add_right _ _) ne h fun found read => ?_
    rw [← count_afterIndent front.toList]
    exact remainder_comment closed ends.afterIndent read t.toList
  constructor
  · intro ls scanned
    rw [run, scanned]
    rfl
  · intro e fails
    rw [run, fails]
    exact ⟨rfl, rfl⟩

theorem tokenize_comment_nested :
    let front := "a\n\tb"
    let comment := ";. ;; \" ;.\n.; '.;"
    (tokenize .tabs front = .ok [⟨1, 0, [.ofWord "a"]⟩, ⟨2, 1, [.ofWord "b"]⟩] ∧
      (∃ c ∈ front.toList.rtakeWhile (· != '\n'), c ≠ ' ' ∧ c ≠ '\t') ∧
      ';' ∉ front.toList.rtakeWhile (· != '\n') ∧ ClosedComment comment.toList) ∧
    tokenize .tabs (front ++ comment ++ "c\nd") = .ok [⟨1, 0, [.ofWord "a"]⟩,
      ⟨2, 1, [.ofWord "b", .ofWord "c"]⟩, ⟨4, 0, [.ofWord "d"]⟩] ∧
    tokenize .tabs (front ++ comment ++ "1.") = .error ⟨3, .trailingDot⟩ := by
  intro front comment
  have scanned : tokenize .tabs front = .ok [⟨1, 0, [.ofWord "a"]⟩, ⟨2, 1, [.ofWord "b"]⟩] := by cbv
  have last : front.toList.rtakeWhile (· != '\n') = ['\t', 'b'] := by decide
  have code : ∃ c ∈ front.toList.rtakeWhile (· != '\n'), c ≠ ' ' ∧ c ≠ '\t' := by
    rw [last]
    exact ⟨'b', by simp, by decide, by decide⟩
  have outside : ';' ∉ front.toList.rtakeWhile (· != '\n') := by
    rw [last]
    decide
  have text : comment.toList = ';' :: '.' :: " ;; \" ;.\n.; '.;".toList := by decide
  have closed : ClosedComment comment.toList := by
    rw [text]
    exact .nested (closes_iff.2 ⟨1, by decide⟩)
  have joined : tokenize .tabs (front ++ " " ++ "c\nd") = .ok [⟨1, 0, [.ofWord "a"]⟩,
      ⟨2, 1, [.ofWord "b", .ofWord "c"]⟩, ⟨3, 0, [.ofWord "d"]⟩] := by cbv
  have fails : tokenize .tabs (front ++ " " ++ "1.") = .error ⟨2, .trailingDot⟩ := by cbv
  have lines := (tokenize_comment scanned code outside closed "c\nd").1 _ joined
  have error := ((tokenize_comment scanned code outside closed "1.").2 _ fails).1
  have breaks : front.toList.count '\n' = 1 ∧ comment.toList.count '\n' = 1 := by decide
  rw [breaks.1, breaks.2] at lines
  rw [breaks.2] at error
  exact ⟨⟨scanned, code, outside, closed⟩, lines, error⟩

end Offside
