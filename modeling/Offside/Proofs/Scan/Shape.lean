import Offside.Proofs.Scan.Number

/-!
Well-shaped lexemes: those whose text means them. Each is read back from its text, if nothing or
a blank comes behind.
-/

namespace Offside

open Scan

/-- A word that can be a name, keywords included. -/
def isIdentifier (name : String) : Bool :=
  match name.toList with
  | [] => false
  | c :: cs => isWordStart c && cs.all isWordChar

/-- Is the text of the literal the spelling of one? A sign would be an operator of its own, and
neither infinity nor what is not a number has a spelling. -/
def Literal.isSpelled : Literal → Bool
  | int n => 0 ≤ n.toInt
  | float x => x.isFinite && !x.negative
  | _ => true

/-- Names and literals carry what they stand for, and no other kind carries anything. -/
inductive Lexeme.WellShaped : Lexeme → Prop
  | fixed {k : Kind} (notName : k ≠ .name) (notLiteral : k ≠ .literal) : WellShaped ⟨k, none⟩
  | name {i : Ident} (word : isIdentifier i.name = true)
      (free : i.sigil = .none → reserved.lookup i.name = none) : WellShaped (.ofIdent i)
  | literal {x : Literal} (spelled : x.isSpelled = true) : WellShaped (.ofLiteral x)

namespace Scan

/-- The text is read as the lexeme, if nothing or a blank comes behind. -/
def ReadsAs (text : List Char) (l : Lexeme) : Prop :=
  ∃ c cs, text = c :: cs ∧
    ∀ u : List Char, (∀ d ∈ u.head?, d = ' ') → next c (cs ++ u) = .ok (.lexeme l, u)

variable {c : Char} {cs u : List Char}

section Words

theorem isIdentifier_iff {name : String} : isIdentifier name = true ↔
    ∃ c cs, name.toList = c :: cs ∧ isWordStart c = true ∧ ∀ d ∈ cs, isWordChar d = true := by
  unfold isIdentifier
  split
  · next eq => simp [eq]
  · next c cs eq => simp [eq, List.all_eq_true]

theorem word_append {name : String} (text : name.toList = c :: cs) (start : isWordStart c = true)
    (all : ∀ d ∈ cs, isWordChar d = true) (stop : ∀ d ∈ u.head?, d = ' ') :
    word (c :: cs ++ u) = name ∧ afterWord (c :: cs ++ u) = u := by
  have chars : ∀ d ∈ c :: cs, isWordChar d = true :=
    List.forall_mem_cons.2 ⟨isWordChar_of_isWordStart start, all⟩
  have ends : ∀ d ∈ u.head?, isWordChar d = false := fun d hd => by
    rw [stop d hd]
    decide
  rw [word, afterWord, takeWhile_run chars ends, dropWhile_run chars ends, ← text]
  exact ⟨String.ofList_toList, rfl⟩

theorem readsAs_word {name : String} (h : isIdentifier name = true) :
    ReadsAs name.toList (.ofWord name) := by
  obtain ⟨c, cs, text, start, all⟩ := isIdentifier_iff.1 h
  refine ⟨c, cs, text, fun u stop => ?_⟩
  obtain ⟨same, behind⟩ := word_append text start all stop
  rw [next_word _ start, ← List.cons_append, same, behind]

theorem symbol?_eq_none (h : ∀ k ∈ Kind.symbols, k.text.toList.head? ≠ some c)
    (cs : List Char) : symbol? (c :: cs) = none := by
  rw [symbol?, Option.map_eq_none_iff, List.find?_eq_none]
  intro k hk front
  obtain ⟨rest, eq⟩ := List.isPrefixOf_iff_prefix.1 front
  obtain ⟨d, text, hd⟩ := List.exists_cons_of_length_pos (text_ne_nil_of_mem_symbols k hk)
  rw [hd] at eq
  obtain ⟨rfl, -⟩ := List.cons.inj eq
  exact h k hk (by rw [hd]; rfl)

theorem sigilName_append {name : String} (text : name.toList = c :: cs)
    (start : isWordStart c = true) (all : ∀ d ∈ cs, isWordChar d = true)
    (stop : ∀ d ∈ u.head?, d = ' ') :
    sigilName ':' (':' :: (c :: cs ++ u)) = .ok (.lexeme (.ofIdent ⟨name, .scope⟩), u) ∧
      sigilName '@' (c :: cs ++ u) = .ok (.lexeme (.ofIdent ⟨name, .member⟩), u) := by
  obtain ⟨same, behind⟩ := word_append text start all stop
  rw [List.cons_append] at same behind
  simp only [List.cons_append, sigilName, start, if_true, same, behind, and_self]

theorem readsAs_name {i : Ident} (h : isIdentifier i.name = true)
    (free : i.sigil = .none → Lexeme.reserved.lookup i.name = none) :
    ReadsAs (Lexeme.ofIdent i).text.toList (.ofIdent i) := by
  obtain ⟨name, sigil⟩ := i
  obtain ⟨c, cs, text, start, all⟩ := isIdentifier_iff.1 h
  cases sigil with
  | none =>
    have plain : Lexeme.ofWord name = .ofIdent ⟨name, .none⟩ := by
      rw [Lexeme.ofWord, free rfl]
      rfl
    have shown : (Lexeme.ofIdent ⟨name, .none⟩).text = name := String.empty_append
    rw [shown, ← plain]
    exact readsAs_word h
  | scope =>
    have shown : (Lexeme.ofIdent ⟨name, .scope⟩).text.toList = ':' :: ':' :: name.toList := by
      simp [Lexeme.text_ofIdent, Ident.text, Sigil.text]
    refine ⟨':', ':' :: c :: cs, by rw [shown, text], fun u stop => ?_⟩
    exact (next_sigil _ (by decide) (symbol?_eq_none (by decide) _)).trans
      (sigilName_append text start all stop).1
  | member =>
    have shown : (Lexeme.ofIdent ⟨name, .member⟩).text.toList = '@' :: name.toList := by
      simp [Lexeme.text_ofIdent, Ident.text, Sigil.text]
    refine ⟨'@', c :: cs, by rw [shown, text], fun u stop => ?_⟩
    exact (next_sigil _ (by decide) (symbol?_eq_none (by decide) _)).trans
      (sigilName_append text start all stop).2

end Words

section Fixed

theorem isPunctuation_symbol :
    ∀ k ∈ Kind.symbols, k.text.toList.head?.all isPunctuation = true := by
  decide

theorem find_symbol_self : ∀ k ∈ Kind.symbols, ∀ behind ∈ [[], [' ']],
    (Kind.symbols.find? fun j => j.text.toList.isPrefixOf (k.text.toList ++ behind)) = some k := by
  decide

theorem readsAs_symbol {k : Kind} (mem : k ∈ Kind.symbols) :
    ReadsAs k.text.toList ⟨k, none⟩ := by
  obtain ⟨c, cs, text⟩ := List.exists_cons_of_length_pos (text_ne_nil_of_mem_symbols k mem)
  refine ⟨c, cs, text, fun u stop => ?_⟩
  have punctuation : isPunctuation c = true := by simpa [text] using isPunctuation_symbol k mem
  have front : symbol? (c :: cs ++ u) = some (k, u) := by
    obtain ⟨behind, hbehind, head⟩ : ∃ behind ∈ [[], [' ']], u.head? = behind.head? := by
      cases u with
      | nil => exact ⟨[], by simp, rfl⟩
      | cons d u => exact ⟨[' '], by simp, congrArg some (stop d rfl)⟩
    have found := find_symbol_self k mem behind hbehind
    rw [text] at found
    rw [symbol?, find_symbol (take_two_append head c cs), found, Option.map_some, text,
      List.drop_left]
  exact next_symbol _ punctuation front

theorem readsAs_fixed {k : Kind} (notName : k ≠ .name) (notLiteral : k ≠ .literal) :
    ReadsAs k.text.toList ⟨k, none⟩ := by
  cases k with
  | name => exact absurd rfl notName
  | literal => exact absurd rfl notLiteral
  | keyword w =>
    have reserved_ : Lexeme.ofWord w.text = ⟨.keyword w, none⟩ := by cases w <;> rfl
    rw [← reserved_]
    exact readsAs_word (by cases w <;> decide)
  | operator op => exact readsAs_symbol (by cases op <;> decide)
  | _ => exact readsAs_symbol (by decide)

end Fixed

section Literals

theorem readsAs_number {run : List Char} {x : Literal}
    (digit : ∃ c ∈ run.head?, c.isDigit = true)
    (reads : ∀ u : List Char, (∀ d ∈ u.head?, d = ' ') → number (run ++ u) = .ok (x, u)) :
    ReadsAs run (.ofLiteral x) := by
  obtain ⟨c, hc, digit⟩ := digit
  obtain ⟨cs, rfl⟩ := List.head?_eq_some_iff.1 hc
  refine ⟨c, cs, rfl, fun u stop => ?_⟩
  rw [next_digit _ digit, ← List.cons_append, reads u stop]
  rfl

theorem head?_toDigits (n : Nat) (rest : List Char) :
    ∃ c ∈ (Nat.toDigits 10 n ++ rest).head?, c.isDigit = true := by
  obtain ⟨c, cs, eq⟩ := List.exists_cons_of_ne_nil (Nat.toDigits_ne_nil (n := n) (b := 10))
  refine ⟨c, by rw [eq]; rfl, isDigit_of_mem_toDigits (n := n) ?_⟩
  rw [eq]
  exact List.mem_cons_self ..

theorem not_digitOrDot_of_blank (stop : ∀ d ∈ u.head?, d = ' ') :
    ∀ d ∈ u.head?, isDigitOrDot d = false ∧ d ≠ 'x' := by
  intro d hd
  rw [stop d hd]
  decide

theorem readsAs_int {n : Int64} (h : 0 ≤ n.toInt) :
    ReadsAs (Literal.int n).text.toList (.ofLiteral (.int n)) := by
  obtain ⟨m, hm⟩ := Int.eq_ofNat_of_zero_le h
  have lt : m < Nat.pow 2 63 := by
    have := n.toInt_lt
    rw [hm] at this
    exact Int.ofNat_lt.1 this
  have same : n = Int64.ofNat m := by rw [← Int64.ofInt_eq_ofNat, ← hm, Int64.ofInt_toInt]
  have shown : (Literal.int n).text.toList = Nat.toDigits 10 m := by
    rw [Literal.text, hm]
    exact (congrArg String.toList Nat.toString_eq_ofList_toDigits).trans String.toList_ofList
  rw [shown]
  refine readsAs_number (by simpa using head?_toDigits m []) fun u stop => ?_
  have all : ∀ c ∈ Nat.toDigits 10 m, isDigitOrDot c = true := fun c hc =>
    isDigitOrDot_of_isDigit (isDigit_of_mem_toDigits hc)
  rw [number_run Nat.toDigits_ne_nil all (not_digitOrDot_of_blank stop), decimal_toDigits lt, same]
  rfl

theorem readsAs_uint (n : UInt64) :
    ReadsAs (Literal.uint n).text.toList (.ofLiteral (.uint n)) := by
  have shown : (Literal.uint n).text.toList = '0' :: 'x' :: Nat.toDigits 16 n.toNat := by
    simp [Literal.text, Text.hex]
  rw [shown]
  refine readsAs_number ⟨'0', rfl, rfl⟩ fun u stop => ?_
  have ends : ∀ d ∈ u.head?, isHexDigit d = false := fun d hd => by
    rw [stop d hd]
    decide
  exact hexNumber_toDigits n ends

theorem text_of_finite {x : Binary64} (finite : x.isFinite = true) (h : x.negative = false) :
    x.text = Binary64.positional x.shortest.1 x.shortest.2 := by
  have lt : x.magnitude < Binary64.infinity := by simpa [Binary64.isFinite] using finite
  rw [Binary64.text, if_neg (Nat.not_lt.2 (Nat.le_of_lt lt)), h]
  simp only [Nat.ne_of_lt lt, if_false, Bool.false_eq_true, String.empty_append]

theorem readsAs_float {x : Binary64} (finite : x.isFinite = true) (h : x.negative = false) :
    ReadsAs (Literal.float x).text.toList (.ofLiteral (.float x)) := by
  obtain ⟨pos, same⟩ := Binary64.ofDecimal_shortest finite h
  rw [Literal.text, text_of_finite finite h]
  refine readsAs_number (positional_toList _ _ ▸ head?_toDigits _ _) fun u stop => ?_
  have ne : (Binary64.positional x.shortest.1 x.shortest.2).toList ≠ [] := by
    simp [positional_toList]
  rw [number_run ne (fun _ => isDigitOrDot_of_mem_positional) (not_digitOrDot_of_blank stop),
    decimal_positional pos, same]
  rfl

theorem readsAs_str (s : String) :
    ReadsAs (Literal.str s).text.toList (.ofLiteral (.str s)) := by
  refine ⟨'"', Text.Quoted.encode s.toList ++ ['"'], Literal.text_str s, fun u _ => ?_⟩
  rw [next_quote, List.append_assoc, List.singleton_append, Text.Quoted.decode_encode]
  simp only [String.ofList_toList]

end Literals

end Scan

end Offside
