import Offside.Proofs.Scan.Shape
import Offside.Scan.Lines

/-!
Lexemes written one behind the other, with a blank between them, are read back as one line of the
same lexemes, however lines are indented.
-/

namespace Offside

namespace Scan

variable {l : Lexeme} {ls : List Lexeme} {style : Indentation} {number : Nat}

theorem readsAs_text (h : l.WellShaped) : ReadsAs l.text.toList l := by
  cases h with
  | fixed notName notLiteral =>
    rw [Lexeme.text_of_payload_none]
    exact readsAs_fixed notName notLiteral
  | name word free => exact readsAs_name word free
  | @literal x spelled =>
    cases x with
    | nil => exact readsAs_word (show isIdentifier "nil" = true by decide)
    | bool b =>
      cases b with
      | false => exact readsAs_word (show isIdentifier "false" = true by decide)
      | true => exact readsAs_word (show isIdentifier "true" = true by decide)
    | int n => exact readsAs_int (of_decide_eq_true spelled)
    | uint n => exact readsAs_uint n
    | float x =>
      obtain ⟨finite, positive⟩ := Bool.and_eq_true_iff.1 spelled
      exact readsAs_float finite (by simpa using positive)
    | str s => exact readsAs_str s

def trailing (ls : List Lexeme) : List Char :=
  ls.flatMap fun l => ' ' :: l.text.toList

theorem head?_trailing (ls : List Lexeme) : ∀ d ∈ (trailing ls).head?, d = ' ' := by
  cases ls with
  | nil => exact nofun
  | cons l ls => exact fun d hd => (Option.some.inj hd).symm

theorem intercalate_eq_trailing (l : Lexeme) (ls : List Lexeme) :
    (" ".intercalate ((l :: ls).map Lexeme.text)).toList = l.text.toList ++ trailing ls := by
  rw [String.toList_intercalate, List.map_map]
  induction ls generalizing l with
  | nil => simp [trailing]
  | cons k ls ih =>
    rw [List.map_cons, List.map_cons, List.intercalate_cons_cons, ← List.map_cons, ih k]
    simp [trailing]

theorem remainder_trailing (style : Indentation) (number : Nat)
    (shaped : ∀ l ∈ ls, l.WellShaped) : remainder style number (trailing ls) = .ok (ls, []) := by
  induction ls with
  | nil => exact remainder_nil style number
  | cons l ls ih =>
    rw [List.forall_mem_cons] at shaped
    obtain ⟨c, cs, text, reads⟩ := readsAs_text shaped.1
    have split : trailing (l :: ls) = ' ' :: c :: (cs ++ trailing ls) := by
      simp [trailing, text]
    rw [split, remainder_blank (next_white _ (.inl rfl)), Nat.add_zero,
      remainder_lexeme (reads _ (head?_trailing ls)), ih shaped.2]
    rfl

theorem isIndent_of_next {c : Char} {cs rest : List Char}
    (h : next c cs = .ok (.lexeme l, rest)) : isIndent c = false := by
  have notBlank : c ≠ ' ' := by
    rintro rfl
    cases h
  have notTab : c ≠ '\t' := by
    rintro rfl
    cases h
  simp [isIndent, notBlank, notTab]

theorem linesFrom_of_not_isIndent {c : Char} {cs : List Char} (h : isIndent c = false) :
    linesFrom style number (c :: cs) =
      (remainder style number (c :: cs)).map (openLine number 0) := by
  have indent : (c :: cs).takeWhile isIndent = [] := List.takeWhile_cons_of_neg (by simp [h])
  have after : afterIndent (c :: cs) = c :: cs := List.dropWhile_cons_of_neg (by simp [h])
  have none_ : level style (c :: cs) = .ok 0 := by
    unfold level
    rw [indent, after]
    split <;> simp
  rw [linesFrom, none_, after]
  cases remainder style number (c :: cs) <;> rfl

end Scan

open Scan

/-- Any well-shaped lexemes, written with a blank between each two, are read back as they were,
on one line. -/
theorem tokenize_text {ls : List Lexeme} (ne : ls ≠ []) (shaped : ∀ l ∈ ls, l.WellShaped)
    (style : Indentation) :
    tokenize style (" ".intercalate (ls.map Lexeme.text)) = .ok [⟨1, 0, ls⟩] := by
  obtain ⟨l, ls, rfl⟩ := List.exists_cons_of_ne_nil ne
  obtain ⟨c, cs, text, reads⟩ := readsAs_text (shaped l (List.mem_cons_self ..))
  have source : (" ".intercalate ((l :: ls).map Lexeme.text)).toList =
      c :: (cs ++ trailing ls) := by
    rw [intercalate_eq_trailing, text, List.cons_append]
  have run : remainder style 1 (c :: (cs ++ trailing ls)) = .ok (l :: ls, []) := by
    have := remainder_trailing style 1 shaped
    rwa [trailing, List.flatMap_cons, List.cons_append, remainder_blank (next_white _ (.inl rfl)),
      text] at this
  have first := isIndent_of_next (reads _ (head?_trailing ls))
  rw [tokenize, source, linesFrom_of_not_isIndent first, run]
  rfl

theorem tokenize_text_mixed :
    let ls : List Lexeme := [⟨.operator .subtract, none⟩, .ofIdent ⟨"in", .member⟩,
      .ofLiteral (.float ⟨0x3FB999999999999A⟩), .ofLiteral (.str "\"\n")]
    ls ≠ [] ∧ (∀ l ∈ ls, l.WellShaped) ∧
      tokenize (.spaces 4) (" ".intercalate (ls.map Lexeme.text)) = .ok [⟨1, 0, ls⟩] := by
  intro ls
  have ne : ls ≠ [] := List.cons_ne_nil _ _
  have shaped : ∀ l ∈ ls, l.WellShaped := by
    simp only [ls, List.forall_mem_cons]
    exact ⟨.fixed nofun nofun, .name (by decide) nofun, .literal (by decide), .literal rfl,
      fun _ mem => absurd mem List.not_mem_nil⟩
  exact ⟨ne, shaped, tokenize_text ne shaped _⟩

end Offside
