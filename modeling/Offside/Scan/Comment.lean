import Offside.Fault

/-!
Comments. A semicolon opens a comment to the end of the line, `;;` one that ends at the
next `;;`, and `;.` one that ends at the matching `.;`. The last two may span lines;
each function says how many line breaks it passed and what follows.
-/

namespace Offside.Scan

def lineBreak (c : Char) : Nat :=
  if c = '\n' then 1 else 0

/-- To the next `;;`, or `none` if there is none. -/
def blockComment : List Char → Option (Nat × List Char)
  | ';' :: ';' :: rest => some (0, rest)
  | c :: rest => (blockComment rest).map fun (n, rest) => (lineBreak c + n, rest)
  | [] => none

/-- To the `.;` that closes this comment, `depth` more being open around it. -/
def nestedComment (depth : Nat) : List Char → Option (Nat × List Char)
  | ';' :: '.' :: rest => nestedComment (depth + 1) rest
  | '.' :: ';' :: rest =>
    match depth with
    | 0 => some (0, rest)
    | depth + 1 => nestedComment depth rest
  | c :: rest => (nestedComment depth rest).map fun (n, rest) => (lineBreak c + n, rest)
  | [] => none

theorem blockComment_shorter {cs rest : List Char} {n : Nat}
    (h : blockComment cs = some (n, rest)) : rest.length < cs.length := by
  induction cs using blockComment.induct generalizing n with
  | case1 r =>
    simp only [blockComment, Option.some.injEq, Prod.mk.injEq] at h
    simp only [← h.2, List.length_cons]
    omega
  | case2 c r hc ih =>
    rw [blockComment] at h
    · obtain ⟨⟨m, s⟩, hs, he⟩ := Option.map_eq_some_iff.1 h
      simp only [Prod.mk.injEq] at he
      have := ih (hs.trans (by rw [he.2]))
      simp only [List.length_cons]
      omega
    · exact hc
  | case3 => simp [blockComment] at h

theorem nestedComment_shorter {depth : Nat} {cs rest : List Char} {n : Nat}
    (h : nestedComment depth cs = some (n, rest)) : rest.length < cs.length := by
  induction depth, cs using nestedComment.induct generalizing n with
  | case1 d r ih =>
    rw [nestedComment] at h
    have := ih h
    simp only [List.length_cons]
    omega
  | case2 r =>
    simp only [nestedComment, Option.some.injEq, Prod.mk.injEq] at h
    simp only [← h.2, List.length_cons]
    omega
  | case3 r d ih =>
    rw [nestedComment] at h
    have := ih h
    simp only [List.length_cons]
    omega
  | case4 d c r h1 h2 ih =>
    rw [nestedComment] at h
    · obtain ⟨⟨m, s⟩, hs, he⟩ := Option.map_eq_some_iff.1 h
      simp only [Prod.mk.injEq] at he
      have := ih (hs.trans (by rw [he.2]))
      simp only [List.length_cons]
      omega
    · exact h1
    · exact h2
  | case5 => simp [nestedComment] at h

/-- A comment, its first semicolon being behind. The break that ends a comment to the
end of the line is left. -/
def comment : List Char → Except Fault (Nat × List Char)
  | ';' :: rest =>
    match blockComment rest with
    | some found => .ok found
    | none => .error .unclosedComment
  | '.' :: rest =>
    match nestedComment 0 rest with
    | some found => .ok found
    | none => .error .unclosedNestedComment
  | rest => .ok (0, rest.dropWhile (· != '\n'))

theorem comment_shorter {cs rest : List Char} {n : Nat} (h : comment cs = .ok (n, rest)) :
    rest.length ≤ cs.length := by
  unfold comment at h
  split at h
  · split at h
    next hb =>
      simp only [Except.ok.injEq] at h
      have := blockComment_shorter (hb.trans (by rw [h]))
      simp only [List.length_cons]
      omega
    · simp at h
  · split at h
    next hb =>
      simp only [Except.ok.injEq] at h
      have := nestedComment_shorter (hb.trans (by rw [h]))
      simp only [List.length_cons]
      omega
    · simp at h
  · simp only [Except.ok.injEq, Prod.mk.injEq] at h
    rw [← h.2]
    exact (List.dropWhile_sublist _).length_le

end Offside.Scan
