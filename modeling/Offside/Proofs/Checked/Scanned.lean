import Mathlib
import Offside.Proofs.Checked.Cursor
import Offside.Proofs.Scan.Shape

/-!
Sources read by a cursor and by what is left of them. Main statement: whatever the source is, NUL
included, the cursor comes to its end or to a fault, with no slice taken outside of it and nothing
subtracted from zero, and gives the lines that the text gives.
-/

namespace Offside.Scan

open Checked Text

namespace Scanner

variable {s : Scanner} {cs : List Char} {c : Char}

def past (n : Nat) (cs : List Char) (s : Scanner) : Scanner :=
  { s.jump cs with number := s.number + n }

theorem past_past (m n : Nat) (cs ds : List Char) :
    (s.past m cs).past n ds = s.past (m + n) ds := by
  rw [past, past, past, ← Nat.add_assoc]
  rfl

theorem At.past (read : List Char) (h : s.At (read ++ cs)) (n : Nat) : (s.past n cs).At cs :=
  ⟨h.jump.within, h.jump.rest⟩

section Comments

theorem passed_eq (h : s.At (c :: cs)) (next : Scanning Unit) :
    (do
      let c ← advance
      if c = '\n' then modify newLine
      next) s = next (s.past (lineBreak c) cs) := by
  rw [step_of_ok (advance_eq h)]
  by_cases newline : c = '\n'
  · rw [past, lineBreak, if_pos newline, if_pos newline]
    rfl
  · rw [past, lineBreak, if_neg newline, if_neg newline]
    rfl

theorem blockEnd_eq (start : Nat) (h : s.At cs) : blockEnd start s =
    some (match blockComment cs with
      | some (n, rest) => .ok ((), s.past n rest)
      | none => .error ⟨start, .unclosedComment⟩) := by
  induction cs using blockComment.induct generalizing s with
  | case1 r =>
    have ahead : s.forward 2 = s.jump r := h.forward [';', ';']
    rw [blockEnd, step_of_ok rfl, h.atEnd, h.matches_, ahead, blockComment]
    rfl
  | case2 c r other ih =>
    have opened : [';', ';'].isPrefixOf (c :: r) = false := by
      rw [Bool.eq_false_iff, Ne, List.isPrefixOf_iff_prefix]
      rintro ⟨t, eq⟩
      obtain ⟨rfl, rfl⟩ := List.cons.inj eq
      exact other t rfl rfl
    rw [blockEnd, step_of_ok rfl, h.atEnd, h.matches_, opened, blockComment.eq_2 c r other]
    refine (passed_eq h _).trans ((ih (h.past [c] _)).trans ?_)
    cases blockComment r with
    | none => rfl
    | some found => simp only [Option.map_some, past_past]
  | case3 =>
    rw [blockEnd, step_of_ok rfl, h.atEnd]
    rfl

theorem nestedEnd_eq (start : Nat) {depth : Nat} (h : s.At cs) : nestedEnd start (depth + 1) s =
    some (match nestedComment depth cs with
      | some (n, rest) => .ok ((), s.past n rest)
      | none => .error ⟨start, .unclosedNestedComment⟩) := by
  induction depth, cs using nestedComment.induct generalizing s with
  | case1 depth r ih =>
    have ahead : s.forward 2 = s.jump r := h.forward [';', '.']
    rw [nestedEnd, step_of_ok rfl, h.atEnd, h.matches_, ahead, nestedComment]
    exact ih (h.jump [';', '.'])
  | case2 r =>
    have ahead : s.forward 2 = s.jump r := h.forward ['.', ';']
    rw [nestedEnd, step_of_ok rfl, h.atEnd, h.matches_, h.matches_, ahead, nestedComment, sub_add]
    rfl
  | case3 r depth ih =>
    have ahead : s.forward 2 = s.jump r := h.forward ['.', ';']
    rw [nestedEnd, step_of_ok rfl, h.atEnd, h.matches_, h.matches_, ahead, nestedComment, sub_add]
    exact ih (h.jump ['.', ';'])
  | case4 depth c r opens closes ih =>
    have outside {marker : List Char} {d e : Char} (eq : marker = [d, e])
        (other : ∀ t, c = d → r = e :: t → False) : marker.isPrefixOf (c :: r) = false := by
      rw [Bool.eq_false_iff, Ne, List.isPrefixOf_iff_prefix, eq]
      rintro ⟨t, eq⟩
      obtain ⟨rfl, rfl⟩ := List.cons.inj eq
      exact other t rfl rfl
    rw [nestedEnd, step_of_ok rfl, h.atEnd, h.matches_, h.matches_, outside rfl opens,
      outside rfl closes, nestedComment.eq_4 depth c r opens closes]
    refine (passed_eq h _).trans ((ih (h.past [c] _)).trans ?_)
    cases nestedComment depth r with
    | none => rfl
    | some found => simp only [Option.map_some, past_past]
  | case5 =>
    rw [nestedEnd, step_of_ok rfl, h.atEnd]
    rfl

theorem comment_eq (h : s.At (';' :: cs)) : comment s =
    some (atLine s.number ((Scan.comment cs).map fun (n, rest) => ((), s.past n rest))) := by
  unfold Scan.comment
  split
  next r =>
    have ahead : s.forward 2 = s.jump r := h.forward [';', ';']
    rw [comment, step_of_ok rfl, h.matches_, ahead]
    refine (blockEnd_eq s.number (h.jump [';', ';'])).trans ?_
    cases blockComment r <;> rfl
  next r =>
    have ahead : s.forward 2 = s.jump r := h.forward [';', '.']
    rw [comment, step_of_ok rfl, h.matches_, h.matches_, ahead]
    refine (nestedEnd_eq s.number (h.jump [';', '.'])).trans ?_
    cases nestedComment 0 r <;> rfl
  next block nested =>
    have other {d : Char} (ne : ∀ r, cs = d :: r → False) :
        [';', d].isPrefixOf (';' :: cs) = false := by
      rw [Bool.eq_false_iff, Ne, List.isPrefixOf_iff_prefix]
      rintro ⟨t, eq⟩
      exact ne t (List.cons.inj eq).2.symm
    have goes (s : Scanner) (cs : List Char) (h : s.At cs) :
        (s.peek != '\n' && !s.atEnd) = cs.head?.any (· != '\n') := by
      rw [h.peek, h.atEnd]
      cases cs <;> simp
    rw [comment, step_of_ok rfl, h.matches_, h.matches_, other block, other nested]
    exact (repeatWhile_eq goes (fun _ _ _ => skip_eq) h :)

end Comments

section Quoted

theorem unquoted_eq (value : List Char) (h : s.At (c :: cs)) (inside : c ≠ '\n') :
    quoted value s =
      (if c = '"' then return value
      else if c = '\\' then do
        let l ← advance
        match Text.Quoted.meaning? l with
        | some c => quoted (value ++ [c])
        | none => fail (.ofQuoted (.badEscape l))
      else quoted (value ++ [c])) (s.jump cs) := by
  have goes : ((c :: cs).isEmpty || (c :: cs).headD '\x00' == '\n') = false := by simpa using inside
  rw [quoted, step_of_ok rfl, h.atEnd, h.peek, goes]
  exact step_of_ok (advance_eq h)

theorem quoted_eq (value : List Char) (h : s.At cs) : quoted value s =
    some (match Quoted.decode cs with
      | .ok (t, rest) => .ok (value ++ t, s.jump rest)
      | .error d => .error ⟨s.number, .ofQuoted d⟩) := by
  induction cs using Quoted.decode.induct generalizing s value with
  | case1 =>
    rw [quoted, step_of_ok rfl, h.atEnd]
    rfl
  | case2 r =>
    rw [unquoted_eq value h (by decide), if_pos rfl, Quoted.decode]
    simp only [List.append_nil]
    rfl
  | case3 r =>
    rw [quoted, step_of_ok rfl, h.atEnd, h.peek]
    rfl
  | case4 =>
    rw [unquoted_eq value h (by decide), if_neg (by decide), if_pos rfl,
      step_of_ok (advance_nil h.tail)]
    rfl
  | case5 l r c meaning ih =>
    rw [unquoted_eq value h (by decide), if_neg (by decide), if_pos rfl,
      step_of_ok (advance_eq h.tail), meaning, Quoted.decode, meaning]
    refine (ih _ h.tail.tail).trans ?_
    cases Quoted.decode r with
    | error d => rfl
    | ok found =>
      simp only [Except.map, List.append_assoc, List.singleton_append]
      rfl
  | case6 l r meaning =>
    rw [unquoted_eq value h (by decide), if_neg (by decide), if_pos rfl,
      step_of_ok (advance_eq h.tail), meaning, Quoted.decode, meaning]
    rfl
  | case7 c r quote newline alone escape ih =>
    have plain : c ≠ '"' ∧ c ≠ '\\' ∧ c ≠ '\n' := by
      refine ⟨quote, fun eq => ?_, newline⟩
      cases r with
      | nil => exact alone eq rfl
      | cons l r => exact escape l r eq rfl
    rw [unquoted_eq value h newline, if_neg quote, if_neg plain.2.1, Quoted.decode_plain plain]
    refine (ih _ h.tail).trans ?_
    cases Quoted.decode r with
    | error d => rfl
    | ok found =>
      simp only [Except.map, List.append_assoc, List.singleton_append]
      rfl

end Quoted

section Numbers

theorem digits_eq (dot : Bool) (last : Char) (h : s.At cs) : digits dot last s =
    some (if 1 < dot.toNat + (cs.takeWhile isDigitOrDot).count '.' then
        .error ⟨s.number, .manyDots⟩
      else .ok ((0 < dot.toNat + (cs.takeWhile isDigitOrDot).count '.',
        (cs.takeWhile isDigitOrDot).getLastD last), s.jump (cs.dropWhile isDigitOrDot))) := by
  induction cs generalizing s dot last with
  | nil =>
    rw [digits, step_of_ok rfl, h.peek, List.takeWhile_nil, List.dropWhile_nil, h.jump_self]
    cases dot <;> rfl
  | cons c cs ih =>
    rw [digits, step_of_ok rfl, h.peek, List.headD_cons]
    by_cases isDot : c = '.'
    · have run : isDigitOrDot c = true := by rw [isDot]; rfl
      rw [if_pos isDot, List.takeWhile_cons_of_pos run, List.dropWhile_cons_of_pos run, isDot,
        List.count_cons_self]
      cases dot with
      | true =>
        rw [if_pos rfl, if_pos (by rw [Bool.toNat_true]; omega)]
        rfl
      | false =>
        refine (step_of_ok (skip_eq h)).trans ((ih _ _ h.tail).trans ?_)
        rw [List.getLastD_cons, Bool.toNat_true, Bool.toNat_false,
          Nat.zero_add, Nat.add_comm 1]
        rfl
    · rw [if_neg isDot]
      cases digit : c.isDigit with
      | true =>
        have run : isDigitOrDot c = true := by rw [isDigitOrDot, digit]; rfl
        rw [List.takeWhile_cons_of_pos run, List.dropWhile_cons_of_pos run,
          List.count_cons_of_ne isDot]
        refine (step_of_ok (skip_eq h)).trans ((ih _ _ h.tail).trans ?_)
        rw [List.getLastD_cons]
        rfl
      | false =>
        have stop : ¬ isDigitOrDot c = true := by simp [isDigitOrDot, digit, isDot]
        rw [List.takeWhile_cons_of_neg stop, List.dropWhile_cons_of_neg stop, h.jump_self]
        cases dot <;> rfl

theorem hexadecimal_eq (h : s.At cs) : hexadecimal s =
    some (atLine s.number ((hexNumber cs).map fun (l, rest) => (l, s.jump rest))) := by
  obtain ⟨loop, run⟩ := run_eq (p := isHexDigit) (by decide) (fun _ _ _ => skip_eq) h
  have place : (s.jump (cs.dropWhile isHexDigit)).current =
      s.current + (cs.takeWhile isHexDigit).length := by
    rw [← List.takeWhile_append_dropWhile (p := isHexDigit) (l := cs)] at h
    rw [← h.forward]
    rfl
  rw [hexadecimal, step_of_ok rfl, step_of_ok loop, step_of_ok rfl, place, hexNumber]
  dsimp only
  by_cases none_ : cs.takeWhile isHexDigit = []
  · rw [if_pos none_, if_pos (by rw [none_]; rfl)]
    rfl
  · rw [if_neg none_, if_neg (by have := List.length_pos_of_ne_nil none_; omega), step_of_ok run]
    by_cases fits : hexValue (cs.takeWhile isHexDigit) < UInt64.size
    · rw [if_pos fits, if_pos fits]
      rfl
    · rw [if_neg fits, if_neg fits]
      rfl

theorem decimals_eq (digit : c.isDigit = true) (h : s.At (c :: cs)) :
    decimals s.current c (s.jump cs) =
      some (atLine s.number ((decimal ((c :: cs).takeWhile isDigitOrDot)).map fun l =>
        (l, s.jump ((c :: cs).dropWhile isDigitOrDot)))) := by
  have notDot : c ≠ '.' := by
    rintro rfl
    cases digit
  have part : isDigitOrDot c = true := by rw [isDigitOrDot, digit]; rfl
  have passed : digits false c (s.jump cs) =
      some (if 1 < (cs.takeWhile isDigitOrDot).count '.' then .error ⟨s.number, .manyDots⟩
        else .ok ((0 < (cs.takeWhile isDigitOrDot).count '.',
          (cs.takeWhile isDigitOrDot).getLast?.getD c), s.jump (cs.dropWhile isDigitOrDot))) := by
    rw [digits_eq false c h.tail, List.getLastD_eq_getLast?, Bool.toNat_false, Nat.zero_add]
    rfl
  rw [← List.takeWhile_append_dropWhile (p := isDigitOrDot) (l := c :: cs)] at h
  have run := since_eq h
  rw [List.takeWhile_cons_of_pos part, List.dropWhile_cons_of_pos part] at run ⊢
  rw [decimal, List.count_cons_of_ne notDot, List.getLast?_cons, decimals]
  rcases count : (cs.takeWhile isDigitOrDot).count '.' with _ | _ | n
  · have last : ¬ (cs.takeWhile isDigitOrDot).getLast?.getD c = '.' := by
      rw [← List.getLastD_eq_getLast?]
      intro eq
      rcases List.mem_cons.1 (eq ▸ List.getLastD_mem_cons ..) with same | mem
      · exact notDot same.symm
      · exact List.count_eq_zero.1 count mem
    rw [count, if_neg (by decide)] at passed
    rw [step_of_ok passed]
    dsimp only
    rw [if_neg last, step_of_ok run]
    by_cases fits : decimalValue (c :: cs.takeWhile isDigitOrDot) < Nat.pow 2 63
    · rw [if_pos fits, if_pos fits]
      rfl
    · rw [if_neg fits, if_neg fits]
      rfl
  · rw [count, if_neg (by decide)] at passed
    rw [step_of_ok passed]
    dsimp only
    by_cases last : (cs.takeWhile isDigitOrDot).getLast?.getD c = '.'
    · rw [if_pos last, if_pos (congrArg some last)]
      rfl
    · rw [if_neg last, if_neg (fun eq => last (Option.some.inj eq)), step_of_ok run]
      rfl
  · rw [count, if_pos (by omega)] at passed
    rw [step_of_error passed]
    rfl

theorem numeral_eq (digit : c.isDigit = true) (h : s.At (c :: cs)) : numeral c (s.jump cs) =
    some (atLine s.number ((Scan.number (c :: cs)).map fun (l, rest) => (l, s.jump rest))) := by
  have start : sub (s.jump cs).current 1 = some s.current := by
    rw [← h.forward [c], forward, List.length_singleton, sub_add]
  rw [numeral, step_of_ok rfl, start, h.tail.peek]
  by_cases hex : ∃ r, c = '0' ∧ cs = 'x' :: r
  · obtain ⟨r, rfl, rfl⟩ := hex
    change (skip >>= fun _ => hexadecimal) _ = _
    rw [step_of_ok (skip_eq h.tail)]
    exact hexadecimal_eq h.tail.tail
  · have plain : ¬ (c = '0' ∧ cs.headD '\x00' = 'x') := by
      rintro ⟨zero, x⟩
      cases cs with
      | nil => cases x
      | cons d r => exact hex ⟨r, zero, congrArg (· :: r) x⟩
    have other (r : List Char) (eq : c :: cs = '0' :: 'x' :: r) : False := by
      cases eq
      exact hex ⟨r, rfl, rfl⟩
    rw [Scan.number.eq_2 _ other]
    simp only [plain, if_false]
    refine (decimals_eq digit h).trans ?_
    cases decimal ((c :: cs).takeWhile isDigitOrDot) <;> rfl

end Numbers

section Lexemes

theorem text_eq (h : s.At cs) : text s = some (.ok (word cs, s.jump (afterWord cs))) := by
  obtain ⟨loop, run⟩ := run_eq (p := isWordChar) (by decide) (fun _ _ _ => skip_eq) h
  rw [text, step_of_ok rfl, step_of_ok loop, step_of_ok run]
  rfl

/-! What the table of marks says, and what the spellings say. -/

theorem marks_plain : ∀ e ∈ marks,
    (Kind.symbols.find? fun k => k.text.toList.isPrefixOf [e.1]) = some e.2.2 ∧
      e.2.2.text.toList.length = 1 ∧ isPunctuation e.1 = true := by
  decide

theorem marks_joined : ∀ e ∈ marks, ∀ p ∈ e.2.1,
    (Kind.symbols.find? fun k => k.text.toList.isPrefixOf [e.1, p.1]) = some p.2 ∧
      p.2.text.toList.length = 2 := by
  decide

theorem marks_second : ∀ e ∈ marks, ∀ k ∈ Kind.symbols, k.text.toList.head? = some e.1 →
    k.text.toList[1]?.all (fun d => (e.2.1.lookup d).isSome) = true := by
  decide

theorem marks_first : ∀ k ∈ Kind.symbols,
    k.text.toList.head?.all (fun c => (marks.lookup c).isSome) = true := by
  decide

theorem joined_eq (plain : Kind) (others : List (Char × Kind)) (h : s.At cs) :
    joined plain others s = some (.ok (match cs.head?.bind (others.lookup ·) with
      | some k => (k, s.jump cs.tail)
      | none => (plain, s))) := by
  induction others with
  | nil => cases cs <;> rfl
  | cons other others ih =>
    obtain ⟨d, k⟩ := other
    rw [joined, step_of_ok rfl, h.peek, h.atEnd]
    cases cs with
    | nil => exact (congrFun (if_neg (by simp)) s).trans ih
    | cons e r =>
      by_cases same : e = d
      · have ahead : s.forward 1 = s.jump r := h.forward [e]
        rw [if_pos ⟨same, rfl⟩, ahead, same, List.head?_cons, Option.bind_some,
          List.lookup_cons_self]
        rfl
      · rw [if_neg (fun both => same both.1), ih, List.head?_cons, Option.bind_some,
          Option.bind_some, List.lookup_cons, beq_eq_false_iff_ne.2 same]

variable {others : List (Char × Kind)} {plain : Kind}

theorem symbol?_of_mark (mem : (c, others, plain) ∈ marks) (cs : List Char) :
    symbol? (c :: cs) = some (match cs.head?.bind (others.lookup ·) with
      | some k => (k, cs.tail)
      | none => (plain, cs)) := by
  obtain ⟨alone, length, -⟩ := marks_plain _ mem
  cases cs with
  | nil =>
    rw [symbol?, alone, Option.map_some, length]
    rfl
  | cons d r =>
    rw [List.head?_cons, Option.bind_some]
    cases found : others.lookup d with
    | some k =>
      obtain ⟨before, behind, eq, -⟩ := List.lookup_eq_some_iff.1 found
      obtain ⟨both, length⟩ := marks_joined _ mem (d, k) (by rw [eq]; simp)
      rw [symbol?, find_symbol (u := c :: d :: r) (v := [c, d]) rfl, both, Option.map_some, length]
      rfl
    | none =>
      have same : (Kind.symbols.find? fun k => k.text.toList.isPrefixOf (c :: d :: r)) =
          Kind.symbols.find? fun k => k.text.toList.isPrefixOf [c] := by
        refine List.find?_congr fun k hk => ?_
        have second := marks_second _ mem k hk
        generalize k.text.toList = text at second
        rcases text with _ | ⟨a, _ | ⟨b, text⟩⟩
        · rfl
        · rfl
        · have ne (eq : a = c) : b ≠ d := by
            rintro rfl
            have mark := second (by rw [eq]; rfl)
            simp [found] at mark
          by_cases eq : a = c <;> simp_all [List.isPrefixOf]
      rw [symbol?, same, alone, Option.map_some, length]
      rfl

theorem symbol?_of_no_mark (none_ : marks.lookup c = none) (cs : List Char) :
    symbol? (c :: cs) = none := by
  refine symbol?_eq_none (fun k hk first => ?_) cs
  have mark := marks_first k hk
  rw [first, Option.all_some, none_] at mark
  cases mark

/-- What is read as a lexeme, or is no lexeme, and what the cursor makes of it. -/
def Reads (c : Char) (cs : List Char) (s : Scanner) (x : Option (Except Error (Lexeme × Scanner))) :
    Prop :=
  ∃ found : Except Fault (Lexeme × List Char),
    next c cs = found.map (fun (l, rest) => (.lexeme l, rest)) ∧
      x = some (atLine s.number (found.map fun (l, rest) => (l, s.jump rest)))

theorem sigilName_eq_error (scope : ∀ d r, c = ':' → cs = ':' :: d :: r → isWordStart d = false)
    (member : ∀ d r, c = '@' → cs = d :: r → isWordStart d = false) :
    sigilName c cs = .error (.unexpectedCharacter c) := by
  unfold sigilName
  split
  next d r => rw [scope d r rfl rfl, if_neg Bool.false_ne_true]
  next d r => rw [member d r rfl rfl, if_neg Bool.false_ne_true]
  next => rfl

theorem unmarked_eq (h : s.At (c :: cs)) (none_ : marks.lookup c = none)
    (white : ¬ (c = ' ' ∨ c = '\t' ∨ c = '\r')) (newline : c ≠ '\n') (semicolon : c ≠ ';')
    (quote : c ≠ '"') : Reads c cs s (unmarked c (s.jump cs)) := by
  have sigil (digit : ¬ c.isDigit = true) (start : ¬ isWordStart c = true) :
      next c cs = sigilName c cs :=
    next_sigil cs (by simp_all [isPunctuation]) (symbol?_of_no_mark none_ cs)
  rw [unmarked, step_of_ok rfl, h.tail.peek, h.tail.peekNext]
  by_cases scope : ∃ d r, c = ':' ∧ cs = ':' :: d :: r ∧ isWordStart d = true
  · obtain ⟨d, r, rfl, rfl, start⟩ := scope
    refine ⟨.ok (.ofIdent ⟨word (d :: r), .scope⟩, afterWord (d :: r)),
      (sigil (by decide) (by decide)).trans (if_pos start), ?_⟩
    · rw [if_pos ⟨rfl, rfl, start⟩, step_of_ok (skip_eq h.tail), step_of_ok (text_eq h.tail.tail)]
      rfl
  by_cases member : ∃ d r, c = '@' ∧ cs = d :: r ∧ isWordStart d = true
  · obtain ⟨d, r, rfl, rfl, start⟩ := member
    refine ⟨.ok (.ofIdent ⟨word (d :: r), .member⟩, afterWord (d :: r)),
      (sigil (by decide) (by decide)).trans (if_pos start), ?_⟩
    · rw [if_neg (by simp), if_pos ⟨rfl, start⟩, step_of_ok (text_eq h.tail)]
      rfl
  have noScope : ¬ (c = ':' ∧ cs.headD '\x00' = ':' ∧
      isWordStart (cs.tail.headD '\x00') = true) := by
    rintro ⟨colon, front, start⟩
    rcases cs with _ | ⟨a, _ | ⟨d, r⟩⟩
    · cases front
    · exact absurd (show isWordStart '\x00' = true from start) (by decide)
    · exact scope ⟨d, r, colon, congrArg (· :: d :: r) front, start⟩
  have noMember : ¬ (c = '@' ∧ isWordStart (cs.headD '\x00') = true) := by
    rintro ⟨at_, start⟩
    cases cs with
    | nil => exact absurd start (by decide)
    | cons d r => exact member ⟨d, r, at_, rfl, start⟩
  rw [if_neg noScope, if_neg noMember]
  by_cases digit : c.isDigit = true
  · refine ⟨(Scan.number (c :: cs)).map fun (l, rest) => (.ofLiteral l, rest), ?_, ?_⟩
    · rw [next_digit cs digit]
      cases Scan.number (c :: cs) <;> rfl
    · rw [if_pos digit]
      cases found : Scan.number (c :: cs) with
      | error f => exact step_of_error ((numeral_eq digit h).trans (by rw [found]; rfl))
      | ok p => exact step_of_ok ((numeral_eq digit h).trans (by rw [found]; rfl))
  rw [if_neg digit]
  by_cases start : isWordStart c = true
  · refine ⟨.ok (.ofWord (word (c :: cs)), afterWord (c :: cs)), next_word cs start, ?_⟩
    rw [if_pos start, step_of_ok (stepBack_eq h), step_of_ok (text_eq h)]
    rfl
  · refine ⟨.error (.unexpectedCharacter c), (sigil digit start).trans ?_, ?_⟩
    · refine sigilName_eq_error (fun d r colon eq => ?_) fun d r at_ eq => ?_
      · exact Bool.eq_false_iff.2 fun start => scope ⟨d, r, colon, eq, start⟩
      · exact Bool.eq_false_iff.2 fun start => member ⟨d, r, at_, eq, start⟩
    · rw [if_neg start]
      rfl

theorem lexeme_eq (h : s.At (c :: cs)) (white : ¬ (c = ' ' ∨ c = '\t' ∨ c = '\r'))
    (newline : c ≠ '\n') (semicolon : c ≠ ';') : Reads c cs s (lexeme c (s.jump cs)) := by
  rw [lexeme]
  by_cases quote : c = '"'
  · subst quote
    have read := quoted_eq [] h.tail
    rw [if_pos rfl, Reads, next_quote]
    cases found : Quoted.decode cs with
    | error d =>
      rw [found] at read
      exact ⟨.error (.ofQuoted d), rfl, step_of_error read⟩
    | ok p =>
      rw [found] at read
      exact ⟨.ok (.ofLiteral (.str (String.ofList p.1)), p.2), rfl, step_of_ok read⟩
  rw [if_neg quote]
  cases mark : marks.lookup c with
  | none => exact unmarked_eq h mark white newline semicolon quote
  | some entry =>
    obtain ⟨others, plain⟩ := entry
    obtain ⟨before, behind, eq, -⟩ := List.lookup_eq_some_iff.1 mark
    have mem : (c, others, plain) ∈ marks := by rw [eq]; simp
    have read := next_symbol cs (marks_plain _ mem).2.2 (symbol?_of_mark mem cs)
    have made := joined_eq plain others h.tail
    cases both : cs.head?.bind (others.lookup ·) with
    | none =>
      rw [both] at read made
      exact ⟨.ok (⟨plain, none⟩, cs), read, step_of_ok made⟩
    | some k =>
      rw [both] at read made
      exact ⟨.ok (⟨k, none⟩, cs.tail), read, step_of_ok made⟩

end Lexemes

section Lines

theorem level_eq (style : Indentation) (cs : List Char) (front : (afterIndent cs).headD '\x00' = c) :
    level style cs =
      if c = '\n' ∨ c = '\r' ∨ c = '\x00' then .ok 0
      else if (cs.takeWhile isIndent).any (· != style.unit) then
        if c = ';' then .ok 0 else .error (.mixedIndentation style)
      else if (cs.takeWhile isIndent).length % style.width ≠ 0 ∧ c ≠ ';' then
        .error (.unevenIndentation (cs.takeWhile isIndent).length style.width)
      else .ok ((cs.takeWhile isIndent).length / style.width) := by
  rw [level]
  cases behind : afterIndent cs with
  | nil =>
    rw [behind] at front
    cases front
    rfl
  | cons d r =>
    obtain rfl : d = c := by simpa [behind] using front
    by_cases blank : d = '\n' ∨ d = '\r' ∨ d = '\x00'
    · rw [if_pos blank]
      rcases blank with rfl | rfl | rfl <;> rfl
    · rw [if_neg blank]
      rw [not_or, not_or] at blank
      obtain ⟨newline, return_, nul⟩ := blank
      simp only [List.head?_cons]

theorem beginLine_eq (h : s.At cs) : beginLine s =
    some (atLine s.number ((level s.style cs).map fun n =>
      ((), (s.jump (afterIndent cs)).indented n))) := by
  have forth (s : Scanner) (c : Char) (cs : List Char) (h : s.At (c :: cs)) :
      (modify (·.forward 1) : Scanning Unit) s = some (.ok ((), s.jump cs)) := by
    rw [← h.forward [c]]
    rfl
  have behind := h
  rw [← List.takeWhile_append_dropWhile (p := isIndent) (l := cs)] at behind
  obtain ⟨loop, run⟩ := run_eq (p := isIndent) (by decide) forth h
  rw [beginLine, step_of_ok rfl, step_of_ok loop, step_of_ok run, step_of_ok rfl,
    behind.jump.peek, show (s.jump (cs.dropWhile isIndent)).style = s.style from rfl,
    level_eq s.style cs rfl, afterIndent]
  generalize (cs.dropWhile isIndent).headD '\x00' = c
  by_cases blank : c = '\n' ∨ c = '\r' ∨ c = '\x00'
  · rw [if_pos blank, if_pos blank]
    rfl
  rw [if_neg blank, if_neg blank]
  by_cases mixed : (cs.takeWhile isIndent).any (· != s.style.unit) = true
  · rw [if_pos mixed, if_pos mixed]
    by_cases semicolon : c = ';'
    · rw [if_pos semicolon, if_pos semicolon]
      rfl
    · rw [if_neg semicolon, if_neg semicolon]
      rfl
  rw [if_neg mixed, if_neg mixed]
  cases style : s.style with
  | tabs =>
    rw [Indentation.width, Nat.mod_one, Nat.div_one, if_neg (fun uneven => uneven.1 rfl)]
    rfl
  | spaces n =>
    have positive : max n 1 ≠ 0 := by omega
    dsimp only
    rw [divMod, if_neg positive, Indentation.width]
    change (if (cs.takeWhile isIndent).length % max n 1 ≠ 0 ∧ c ≠ ';' then _ else _ :
      Scanning Unit) _ = _
    by_cases uneven : (cs.takeWhile isIndent).length % max n 1 ≠ 0 ∧ c ≠ ';'
    · rw [if_pos uneven, if_pos uneven]
      rfl
    · rw [if_neg uneven, if_neg uneven]
      rfl

theorem step_eq (h : s.At (c :: cs)) : step s =
    match next c cs with
    | .error f => some (.error ⟨s.number, f⟩)
    | .ok (.lexeme l, rest) => some (.ok ((), (s.jump rest).push l))
    | .ok (.blank n, rest) => some (.ok ((), s.past n rest))
    | .ok (.newline, rest) => beginLine (s.jump rest).finish.newLine := by
  rw [step, step_of_ok (advance_eq h)]
  by_cases newline : c = '\n'
  · subst newline
    rfl
  rw [if_neg newline]
  by_cases white : c = ' ' ∨ c = '\t' ∨ c = '\r'
  · rw [if_pos white, next_white cs white]
    rfl
  rw [if_neg white]
  by_cases semicolon : c = ';'
  · subst semicolon
    rw [if_pos rfl, step_of_ok (stepBack_eq h), comment_eq h, next_semicolon]
    cases Scan.comment cs <;> rfl
  rw [if_neg semicolon]
  obtain ⟨found, read, made⟩ := lexeme_eq h white newline semicolon
  rw [read]
  cases found with
  | error f => exact step_of_error made
  | ok p => exact step_of_ok made

theorem finish_lines (s : Scanner) (more : List Line) : s.finish.lines ++ more =
    s.lines ++ openLine s.latest.number s.latest.indentation (s.latest.lexemes, more) := by
  rw [finish, openLine]
  by_cases none_ : s.latest.lexemes = []
  · rw [if_pos none_, if_pos none_]
  · rw [if_neg none_, if_neg none_, List.append_assoc]
    rfl

theorem At.newLine (h : s.At cs) : s.finish.newLine.At cs ∧
    s.finish.newLine.number = s.number + 1 ∧ s.finish.newLine.style = s.style := by
  rw [finish]
  split
  · exact ⟨⟨h.within, h.rest⟩, rfl, rfl⟩
  · exact ⟨⟨h.within, h.rest⟩, rfl, rfl⟩

theorem At.afterIndent (h : s.At cs) : (s.jump (afterIndent cs)).At (afterIndent cs) := by
  rw [← List.takeWhile_append_dropWhile (p := isIndent) (l := cs)] at h
  exact h.jump

/-- A run gives the lines of a text, those that are finished and the lexemes of the open one
included. -/
def RunsOut (s : Scanner) (cs : List Char) : Prop :=
  ∃ t, toEnd s = some ((remainder s.style s.number cs).map fun (ls, more) => (s.lines ++
    openLine s.latest.number s.latest.indentation (s.latest.lexemes ++ ls, more), t))

theorem toEnd_cons (h : s.At (c :: cs)) : toEnd s = (step >>= fun _ => toEnd) s := by
  conv_lhs => rw [toEnd, step_of_ok rfl, h.atEnd]
  rfl

theorem At.runsOut_nil (h : s.At []) : RunsOut s [] := by
  have lines := finish_lines s []
  rw [List.append_nil] at lines
  refine ⟨s, ?_⟩
  rw [toEnd, step_of_ok rfl, h.atEnd, remainder_nil]
  simp only [Except.map, List.append_nil, ← lines]
  rfl

theorem At.runsOut_newline {passed rest : List Char} (h : s.At (c :: (passed ++ rest)))
    (read : next c (passed ++ rest) = .ok (.newline, rest))
    (inner : ∀ s' : Scanner, s'.At (Scan.afterIndent rest) → RunsOut s' (Scan.afterIndent rest)) :
    RunsOut s (c :: (passed ++ rest)) := by
  have front := step_eq h
  obtain ⟨at_, number, style⟩ := At.newLine (h.jump (c :: passed))
  have measured := beginLine_eq at_
  rw [number, style] at measured
  change _ = some (atLine (s.number + 1) ((level s.style rest).map _)) at measured
  rw [read] at front
  rw [RunsOut, toEnd_cons h, remainder_newline read, linesFrom]
  cases leveled : level s.style rest with
  | error f =>
    rw [leveled] at measured
    exact ⟨s, step_of_error (front.trans measured)⟩
  | ok n =>
    rw [leveled] at measured
    obtain ⟨t, run⟩ := inner (((s.jump rest).finish.newLine.jump (Scan.afterIndent rest)).indented n)
      ⟨at_.afterIndent.within, at_.afterIndent.rest⟩
    refine ⟨t, (step_of_ok (front.trans measured)).trans (run.trans ?_)⟩
    change some ((remainder (s.jump rest).finish.newLine.style
      (s.jump rest).finish.newLine.number (Scan.afterIndent rest)).map fun (ls, more) =>
        ((s.jump rest).finish.lines ++
          openLine (s.jump rest).finish.newLine.number n ([] ++ ls, more), t)) = _
    rw [number, style]
    change some ((remainder s.style (s.number + 1) (Scan.afterIndent rest)).map _) = _
    cases remainder s.style (s.number + 1) (Scan.afterIndent rest) with
    | error e => rfl
    | ok found =>
      have lines := finish_lines (s.jump rest) (openLine (s.number + 1) n found)
      rw [← List.append_nil (s.jump rest).latest.lexemes] at lines
      exact congrArg (fun lines => some (Except.ok (lines, t))) lines

theorem At.runsOut (h : s.At cs) : RunsOut s cs := by
  induction length : cs.length using Nat.strongRecOn generalizing s cs with
  | ind n ih =>
  subst length
  cases cs with
  | nil => exact h.runsOut_nil
  | cons c cs =>
    have front := step_eq h
    cases read : next c cs with
    | error f =>
      rw [read] at front
      rw [RunsOut, toEnd_cons h]
      exact ⟨s, by rw [step_of_error front, remainder_fault read]; rfl⟩
    | ok p =>
      obtain ⟨i, rest⟩ := p
      obtain ⟨passed, rfl, -⟩ := next_advances read
      have behind : (s.jump rest).At rest := h.jump (c :: passed)
      have shorter : rest.length < (c :: (passed ++ rest)).length := by simp
      rw [read] at front
      cases i with
      | lexeme l =>
        obtain ⟨t, run⟩ := ih _ shorter (s := (s.jump rest).push l) ⟨behind.within, behind.rest⟩ rfl
        rw [RunsOut, toEnd_cons h, remainder_lexeme read]
        refine ⟨t, (step_of_ok front).trans (run.trans ?_)⟩
        change some ((remainder s.style s.number rest).map _) = _
        cases remainder s.style s.number rest with
        | error e => rfl
        | ok found =>
          exact congrArg (fun ls => some (Except.ok (s.lines ++
            openLine s.latest.number s.latest.indentation (ls, found.2), t))) (List.append_assoc ..)
      | blank n =>
        obtain ⟨t, run⟩ := ih _ shorter (s := s.past n rest) ⟨behind.within, behind.rest⟩ rfl
        rw [RunsOut, toEnd_cons h, remainder_blank read]
        exact ⟨t, (step_of_ok front).trans run⟩
      | newline =>
        have further : (Scan.afterIndent rest).length < (c :: (passed ++ rest)).length :=
          Nat.lt_of_le_of_lt (afterIndent_shorter rest) shorter
        exact h.runsOut_newline read fun s' inside => ih _ further inside rfl

end Lines

end Scanner

/-- Whatever the source is, every step of the cursor is defined, and it comes to the end of the
source or to a fault. -/
theorem scan_eq (style : Indentation) (source : String) :
    scan style source = some (tokenize style source) := by
  have start : Scanner.At { source := source.toList, style } source.toList := ⟨Nat.zero_le _, rfl⟩
  have measured := Scanner.beginLine_eq start
  change _ = some (atLine 1 ((level style source.toList).map _)) at measured
  change (·.1) <$> (Scanner.beginLine >>= fun _ => Scanner.toEnd) _ = _
  rw [tokenize, linesFrom]
  cases leveled : level style source.toList with
  | error f =>
    rw [leveled] at measured
    rw [step_of_error measured]
    rfl
  | ok n =>
    rw [leveled] at measured
    obtain ⟨t, run⟩ := Scanner.At.runsOut (s := (Scanner.jump (afterIndent source.toList)
      { source := source.toList, style }).indented n)
      ⟨start.afterIndent.within, start.afterIndent.rest⟩
    change _ = some ((remainder style 1 (afterIndent source.toList)).map fun (ls, more) =>
      (openLine 1 n (ls, more), t)) at run
    rw [step_of_ok measured, run]
    cases remainder style 1 (afterIndent source.toList) <;> rfl

end Offside.Scan
