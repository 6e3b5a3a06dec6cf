import Mathlib
import Offside.Proofs.Scan.Place

/-!
Sources without comments, quoted texts and numbers. Only white space is left out of what the lexemes
of such a source show, and each piece of punctuation among them is the longest that stands there.
-/

namespace Offside

/-- Is the kind spelled with punctuation? -/
def Kind.isSymbol (k : Kind) : Bool :=
  match k.group? with
  | some .unaryOperator | some .binaryOperator | some .bracket | some .terminator => true
  | some .argument | none => false

namespace Scan

variable {style : Indentation} {source cs rest : List Char} {number : Nat} {c : Char}
  {ls : List Lexeme} {l : Lexeme} {i : Item}

def isWhite (c : Char) : Bool :=
  c == ' ' || c == '\t' || c == '\r' || c == '\n'

/-- Does the character begin no comment, quoted text or number? -/
def isPlain (c : Char) : Bool :=
  c != ';' && c != '"' && !c.isDigit

section Symbols

theorem isSymbol_iff (k : Kind) : k.isSymbol = true ↔ k ∈ Kind.symbols := by
  cases k with
  | operator op => cases op <;> decide
  | keyword w => cases w <;> decide
  | _ => decide

theorem symbols_longest_first :
    Kind.symbols.Pairwise fun j k => k.text.toList.length ≤ j.text.toList.length := by
  decide

theorem symbol_not_white : ∀ k ∈ Kind.symbols, k.text.toList.all (!isWhite ·) := by
  decide

theorem symbol?_longest {k : Kind} (h : symbol? cs = some (k, rest)) :
    k ∈ Kind.symbols ∧ cs = k.text.toList ++ rest ∧
      ∀ j ∈ Kind.symbols, j.text.toList <+: cs → j.text.toList.length ≤ k.text.toList.length := by
  obtain ⟨found, fits, eq⟩ := Option.map_eq_some_iff.1 h
  obtain ⟨rfl, rfl⟩ := Prod.mk.inj eq
  obtain ⟨front, before, behind, all, none_⟩ := List.find?_eq_some_iff_append.1 fits
  obtain ⟨left, rfl⟩ := List.isPrefixOf_iff_prefix.1 front
  refine ⟨List.mem_of_find?_eq_some fits, by rw [List.drop_left], fun j mem starts => ?_⟩
  have sorted := all ▸ symbols_longest_first
  rw [all, List.mem_append, List.mem_cons] at mem
  rcases mem with earlier | rfl | later
  · have misfit := none_ j earlier
    rw [List.isPrefixOf_iff_prefix.2 starts] at misfit
    cases misfit
  · exact Nat.le_refl _
  · exact (List.pairwise_cons.1 (List.pairwise_append.1 sorted).2.1).1 j later

end Symbols

section Words

theorem not_white_of_isWordChar (h : isWordChar c = true) : isWhite c = false := by
  rw [Bool.eq_false_iff]
  intro white
  simp only [isWhite, Bool.or_eq_true, beq_iff_eq, or_assoc] at white
  rcases white with rfl | rfl | rfl | rfl <;> revert h <;> decide

theorem not_white_of_mem_word (h : c ∈ (word cs).toList) : isWhite c = false := by
  rw [word, String.toList_ofList] at h
  exact not_white_of_isWordChar (of_mem_takeWhile h)

theorem word_append_afterWord (cs : List Char) : (word cs).toList ++ afterWord cs = cs := by
  rw [word, afterWord, String.toList_ofList, List.takeWhile_append_dropWhile]

theorem reserved_shown : ∀ entry ∈ Lexeme.reserved,
    entry.2.text = entry.1 ∧ entry.2.kind.isSymbol = false := by
  decide

theorem ofWord_shown (name : String) :
    (Lexeme.ofWord name).text = name ∧ (Lexeme.ofWord name).kind.isSymbol = false := by
  unfold Lexeme.ofWord
  cases found : Lexeme.reserved.lookup name with
  | some l =>
    obtain ⟨before, behind, eq, -⟩ := List.lookup_eq_some_iff.1 found
    exact reserved_shown (name, l) (eq ▸ List.mem_append_right _ List.mem_cons_self)
  | none => exact ⟨String.empty_append, rfl⟩

end Words

/-- The lexeme is what `cs` begins with, in front of `rest`. If it is punctuation, nothing longer that
is stands there. -/
structure Munches (cs : List Char) (l : Lexeme) (rest : List Char) : Prop where
  shown : cs = l.text.toList ++ rest
  solid : ∀ c ∈ l.text.toList, isWhite c = false
  longest : l.kind.isSymbol = true → l.text = l.kind.text ∧
    ∀ k : Kind, k.isSymbol = true → k.text.toList <+: cs →
      k.text.toList.length ≤ l.text.toList.length

section Steps

theorem munches_word (cs : List Char) : Munches cs (.ofWord (word cs)) (afterWord cs) := by
  obtain ⟨shown, noSymbol⟩ := ofWord_shown (word cs)
  refine ⟨?_, ?_, fun symbol => ?_⟩
  · rw [shown, word_append_afterWord]
  · rw [shown]
    exact fun _ => not_white_of_mem_word
  · rw [noSymbol] at symbol
    cases symbol

theorem munches_symbol {k : Kind} (h : symbol? cs = some (k, rest)) :
    Munches cs ⟨k, none⟩ rest := by
  obtain ⟨mem, eq, longest⟩ := symbol?_longest h
  have shown := Lexeme.text_of_payload_none k
  refine ⟨shown ▸ eq, fun c inside => ?_, fun _ => ⟨shown, fun j symbol => ?_⟩⟩
  · rw [shown] at inside
    simpa using List.all_eq_true.1 (symbol_not_white k mem) c inside
  · rw [shown]
    exact longest j ((isSymbol_iff j).1 symbol)

theorem munches_sigil (sigil : Sigil) (solid : sigil.text.toList.all (!isWhite ·)) (cs : List Char) :
    Munches (sigil.text.toList ++ cs) (.ofIdent ⟨word cs, sigil⟩) (afterWord cs) := by
  have shown : (Lexeme.ofIdent ⟨word cs, sigil⟩).text.toList =
      sigil.text.toList ++ (word cs).toList := String.toList_append
  refine ⟨?_, ?_, fun symbol => by cases symbol⟩
  · rw [shown, List.append_assoc, word_append_afterWord]
  · rw [shown, List.forall_mem_append]
    exact ⟨fun c mem => by simpa using List.all_eq_true.1 solid c mem,
      fun _ => not_white_of_mem_word⟩

theorem munches_of_sigilName (h : sigilName c cs = .ok (i, rest)) :
    ∃ l, i = .lexeme l ∧ Munches (c :: cs) l rest := by
  unfold sigilName at h
  split at h
  · split at h <;> cases h
    exact ⟨_, rfl, munches_sigil .scope (by decide) _⟩
  · split at h <;> cases h
    exact ⟨_, rfl, munches_sigil .member (by decide) _⟩
  · cases h

/-- By the first character, in the order in which the step looks at it. -/
theorem next_munches (plain : isPlain c = true) (h : next c cs = .ok (i, rest)) :
    (∃ l, i = .lexeme l ∧ Munches (c :: cs) l rest) ∨
      (∀ l, i ≠ .lexeme l) ∧ isWhite c = true ∧ rest = cs := by
  simp only [isPlain, Bool.and_eq_true, bne_iff_ne, Bool.not_eq_true'] at plain
  obtain ⟨⟨noComment, noQuote⟩, noNumber⟩ := plain
  unfold next at h
  split at h
  · next newline =>
    cases h
    exact .inr ⟨(fun l eq => by cases eq), (by rw [newline]; rfl), rfl⟩
  split at h
  · next white =>
    cases h
    exact .inr ⟨(fun l eq => by cases eq), (by rcases white with rfl | rfl | rfl <;> rfl), rfl⟩
  rw [if_neg (by simp [noNumber])] at h
  split at h
  · cases h
    exact .inl ⟨_, rfl, munches_word (c :: cs)⟩
  split at h
  · next found =>
    cases h
    exact .inl ⟨_, rfl, munches_symbol found⟩
  · exact .inl (munches_of_sigilName h)

end Steps

theorem filter_indent (cs : List Char) : (cs.takeWhile isIndent).filter (!isWhite ·) = [] := by
  refine List.filter_eq_nil_iff.2 fun c mem => ?_
  have indent := of_mem_takeWhile mem
  simp only [isIndent, Bool.or_eq_true, beq_iff_eq] at indent
  rcases indent with rfl | rfl <;> decide

theorem Reaches.shown (plain : source.all isPlain = true)
    (h : Reaches style source number ls cs) :
    ∃ front, source = front ++ cs ∧
      ls.flatMap (·.text.toList) = front.filter (!isWhite ·) := by
  have inside {front cs : List Char} {c : Char} (eq : source = front ++ c :: cs) :
      isPlain c = true :=
    List.all_eq_true.1 plain c (eq ▸ List.mem_append_right _ List.mem_cons_self)
  induction h with
  | start _ => exact ⟨_, List.takeWhile_append_dropWhile.symm, (filter_indent source).symm⟩
  | @lexeme _ _ c cs' l rest _ step ih =>
    obtain ⟨front, eq, same⟩ := ih
    rcases next_munches (inside eq) step with ⟨l', is, munches⟩ | ⟨noLexeme, -⟩
    · cases is
      have kept : l.text.toList.filter (!isWhite ·) = l.text.toList :=
        List.filter_eq_self.2 fun d mem => by rw [munches.solid d mem]; rfl
      refine ⟨front ++ l.text.toList, by rw [eq, munches.shown, List.append_assoc], ?_⟩
      rw [List.flatMap_append, List.flatMap_singleton, same, List.filter_append, kept]
    · exact absurd rfl (noLexeme l)
  | @blank _ _ c cs' n rest _ step ih =>
    obtain ⟨front, eq, same⟩ := ih
    rcases next_munches (inside eq) step with ⟨l, is, -⟩ | ⟨-, white, rfl⟩
    · cases is
    · refine ⟨front ++ [c], by rw [eq, List.append_assoc]; rfl, ?_⟩
      rw [same, List.filter_append, List.filter_singleton, white]
      exact (List.append_nil _).symm
  | @newline _ _ c cs' rest _ _ step _ ih =>
    obtain ⟨front, eq, same⟩ := ih
    obtain ⟨rfl, rfl⟩ := next_eq_newline step
    refine ⟨front ++ ['\n'] ++ cs'.takeWhile isIndent, ?_, ?_⟩
    · rw [eq, List.append_assoc, List.append_assoc, afterIndent, List.takeWhile_append_dropWhile]
      rfl
    · rw [same, List.filter_append, filter_indent, List.append_nil, List.filter_append]
      exact (List.append_nil _).symm

end Scan

open Scan

/-- The lexemes of a source without comments, quoted texts and numbers show all of it but the white
space, each where it stands. A piece of punctuation is the longest that does. -/
theorem tokenize_munches {style : Indentation} {source : String} {lines : List Line}
    (plain : source.toList.all isPlain = true) (h : tokenize style source = .ok lines) :
    (lines.flatMap Line.lexemes).flatMap (·.text.toList) =
        source.toList.filter (!isWhite ·) ∧
      ∀ before l after, lines.flatMap Line.lexemes = before ++ l :: after →
        ∃ front rest, source.toList = front ++ (l.text.toList ++ rest) ∧
          before.flatMap (·.text.toList) = front.filter (!isWhite ·) ∧
          (l.kind.isSymbol = true → l.text = l.kind.text ∧
            ∀ k : Kind, k.isSymbol = true → k.text.toList <+: l.text.toList ++ rest →
              k.text.toList.length ≤ l.text.toList.length) := by
  obtain ⟨last, ends⟩ := reaches_of_tokenize h
  constructor
  · obtain ⟨front, eq, same⟩ := ends.shown plain
    rw [same, eq, List.append_nil]
  · intro before l after eq
    obtain ⟨number, c, cs, rest, place, step⟩ := ends.split eq
    obtain ⟨front, eq, same⟩ := place.shown plain
    have inside : isPlain c = true :=
      List.all_eq_true.1 plain c (eq ▸ List.mem_append_right _ List.mem_cons_self)
    rcases next_munches inside step with ⟨l', is, munches⟩ | ⟨noLexeme, -⟩
    · cases is
      refine ⟨front, rest, by rw [eq, munches.shown], same, fun symbol => ?_⟩
      exact munches.shown ▸ munches.longest symbol
    · exact absurd rfl (noLexeme l)

theorem tokenize_munches_joined :
    let source := "f--b\n\t::in<== @g"
    let before : List Lexeme := [.ofWord "f", ⟨.operator .subtract, none⟩,
      ⟨.operator .subtract, none⟩, .ofWord "b", .ofIdent ⟨"in", .scope⟩]
    let after : List Lexeme := [⟨.operator .assign, none⟩, .ofIdent ⟨"g", .member⟩]
    (source.toList.all isPlain = true ∧ tokenize .tabs source =
      .ok [⟨1, 0, before.take 4⟩, ⟨2, 1, before.drop 4 ++ ⟨.operator .lessEqual, none⟩ :: after⟩]) ∧
    (before ++ ⟨.operator .lessEqual, none⟩ :: after).flatMap (·.text.toList) =
      "f--b::in<==@g".toList ∧
    ∃ front rest, source.toList = front ++ ("<=".toList ++ rest) ∧
      "f--b::in".toList = front.filter (!isWhite ·) ∧
      ∀ k : Kind, k.isSymbol = true → k.text.toList <+: "<=".toList ++ rest →
        k.text.toList.length ≤ 2 := by
  intro source before after
  have plain : source.toList.all isPlain = true := by decide
  have read : tokenize .tabs source = .ok [⟨1, 0, before.take 4⟩,
      ⟨2, 1, before.drop 4 ++ ⟨.operator .lessEqual, none⟩ :: after⟩] := by cbv
  obtain ⟨all, each⟩ := tokenize_munches plain read
  obtain ⟨front, rest, eq, behind, longest⟩ := each before ⟨.operator .lessEqual, none⟩ after rfl
  have shown : before.flatMap (·.text.toList) = "f--b::in".toList := by decide
  exact ⟨⟨plain, read⟩, all.trans (by decide), front, rest, eq, shown ▸ behind, (longest rfl).2⟩

end Offside
