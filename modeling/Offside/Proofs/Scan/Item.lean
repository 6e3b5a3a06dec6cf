import Mathlib.Data.List.Find
import Offside.Scan.Item

/-!
What one step through a source reads: a beginning of the source, with as many line breaks as
the step reports. Of what comes behind, only the first character matters to the step, and to a
lexeme the end of the source is the same as a blank or a comment.
-/

namespace Offside

section Runs

variable {p : Char → Bool} {read u cs : List Char} {c : Char}

theorem takeWhile_run (all : ∀ c ∈ read, p c = true) (stop : ∀ c ∈ u.head?, p c = false) :
    (read ++ u).takeWhile p = read := by
  rw [List.takeWhile_append_of_pos all]
  cases u with
  | nil => simp
  | cons c u => simp [stop c rfl]

theorem dropWhile_run (all : ∀ c ∈ read, p c = true) (stop : ∀ c ∈ u.head?, p c = false) :
    (read ++ u).dropWhile p = u := by
  rw [List.dropWhile_append_of_pos all]
  cases u with
  | nil => rfl
  | cons c u => simp [stop c rfl]

theorem of_mem_takeWhile (h : c ∈ cs.takeWhile p) : p c = true :=
  List.all_eq_true.1 List.all_takeWhile c h

theorem of_mem_head?_dropWhile (h : c ∈ (cs.dropWhile p).head?) : p c = false := by
  have stop := List.head?_dropWhile_not p cs
  rw [Option.mem_def.1 h] at stop
  exact stop

/-- Characters that go on with no lexeme, other than a quoted text. -/
def separators : List Char :=
  [' ', '\n', ';', ',', ')', '\x7d']

/-- What may stand behind a lexeme in place of `rest`: a text that begins with the same character
or, where there was none, with one that separates. -/
def Follows (rest u : List Char) : Prop :=
  u.head? = rest.head? ∨ rest = [] ∧ ∃ d ∈ separators, u.head? = some d

theorem stop_of_head (h : u.head? = (cs.dropWhile p).head?) : ∀ c ∈ u.head?, p c = false :=
  fun _ hc => of_mem_head?_dropWhile (h ▸ hc)

theorem Follows.stop (h : Follows (cs.dropWhile p) u) (free : separators.all (!p ·)) :
    ∀ c ∈ u.head?, p c = false := by
  rcases h with same | ⟨-, d, mem, head⟩
  · exact stop_of_head same
  · rw [head]
    rintro _ ⟨⟩
    simpa using List.all_eq_true.1 free d mem

theorem takeWhile_takeWhile_append (stop : ∀ c ∈ u.head?, p c = false) :
    (cs.takeWhile p ++ u).takeWhile p = cs.takeWhile p :=
  takeWhile_run (fun _ => of_mem_takeWhile) stop

theorem dropWhile_takeWhile_append (stop : ∀ c ∈ u.head?, p c = false) :
    (cs.takeWhile p ++ u).dropWhile p = u :=
  dropWhile_run (fun _ => of_mem_takeWhile) stop

theorem not_mem_takeWhile (h : p c = false) : c ∉ cs.takeWhile p := by
  intro mem
  have := of_mem_takeWhile mem
  simp [h] at this

theorem take_two_append {rest : List Char} (h : u.head? = rest.head?) (c : Char)
    (read : List Char) : (c :: read ++ u).take 2 = (c :: read ++ rest).take 2 := by
  cases read with
  | nil => simp [List.take_one, h]
  | cons d read => rfl

end Runs

namespace Text.Quoted

theorem decode_read {cs s rest : List Char} (h : decode cs = .ok (s, rest)) :
    ∃ read, cs = read ++ rest ∧ '\n' ∉ read ∧ ∀ u, decode (read ++ u) = .ok (s, u) := by
  induction cs using decode.induct generalizing s with
  | case1 => simp [decode] at h
  | case2 r =>
    simp only [decode, Except.ok.injEq, Prod.mk.injEq] at h
    obtain ⟨rfl, rfl⟩ := h
    exact ⟨['"'], rfl, by decide, fun u => rfl⟩
  | case3 => simp [decode] at h
  | case4 => simp [decode] at h
  | case5 l r c meaning ih =>
    simp only [decode, meaning] at h
    obtain ⟨⟨t, q⟩, hd, he⟩ := map_eq_ok.1 h
    obtain ⟨rfl, rfl⟩ := Prod.mk.inj he
    obtain ⟨read, rfl, free, again⟩ := ih hd
    refine ⟨'\\' :: l :: read, rfl, ?_, fun u => ?_⟩
    · have notBreak : '\n' ≠ l := by
        rintro rfl
        cases meaning
      simp [free, notBreak]
    · simp only [List.cons_append, decode, meaning, again]
      rfl
  | case6 l r meaning => simp [decode, meaning] at h
  | case7 c r quote newline alone escape ih =>
    have plain : c ≠ '"' ∧ c ≠ '\\' ∧ c ≠ '\n' := by
      refine ⟨quote, fun eq => ?_, newline⟩
      cases r with
      | nil => exact alone eq rfl
      | cons l r => exact escape l r eq rfl
    rw [decode_plain plain] at h
    obtain ⟨⟨t, q⟩, hd, he⟩ := map_eq_ok.1 h
    obtain ⟨rfl, rfl⟩ := Prod.mk.inj he
    obtain ⟨read, rfl, free, again⟩ := ih hd
    refine ⟨c :: read, rfl, by simp [free, plain.2.2.symm], fun u => ?_⟩
    rw [List.cons_append, decode_plain plain, again]
    rfl

end Text.Quoted

namespace Scan

def Item.breaks : Item → Nat
  | .lexeme _ => 0
  | .blank n => n
  | .newline => 1

variable {c : Char} {cs rest : List Char} {n : Nat} {f : Fault}

section Comments

theorem count_lineBreak (c : Char) (cs : List Char) :
    (c :: cs).count '\n' = lineBreak c + cs.count '\n' := by
  rw [List.count_cons, Nat.add_comm]
  simp [lineBreak]

theorem head_of_append {body u v : List Char} {d e : Char} (h : body ++ e :: u = d :: v)
    (w : List Char) : ∃ x, body ++ e :: w = d :: x := by
  cases body with
  | nil =>
    obtain rfl := (List.cons.inj h).1
    exact ⟨w, rfl⟩
  | cons b body =>
    obtain rfl := (List.cons.inj h).1
    exact ⟨_, rfl⟩

theorem blockComment_read (h : blockComment cs = some (n, rest)) :
    ∃ body, cs = body ++ ';' :: rest ∧ body.count '\n' = n ∧
      ∀ u, blockComment (body ++ ';' :: u) = some (n, u) := by
  induction cs using blockComment.induct generalizing n with
  | case1 r =>
    simp only [blockComment, Option.some.injEq, Prod.mk.injEq] at h
    obtain ⟨rfl, rfl⟩ := h
    exact ⟨[';'], rfl, by decide, fun u => rfl⟩
  | case2 c r inside ih =>
    rw [blockComment.eq_2 c r inside] at h
    obtain ⟨⟨m, s⟩, hs, he⟩ := Option.map_eq_some_iff.1 h
    obtain ⟨rfl, rfl⟩ := Prod.mk.inj he
    obtain ⟨body, rfl, count, again⟩ := ih hs
    refine ⟨c :: body, rfl, by rw [count_lineBreak, count], fun u => ?_⟩
    rw [List.cons_append, blockComment.eq_2 c, again]
    · rfl
    · intro v hc hv
      obtain ⟨w, hw⟩ := head_of_append hv _
      exact inside w hc hw
  | case3 => cases h

theorem nestedComment_read {depth : Nat} (h : nestedComment depth cs = some (n, rest)) :
    ∃ body, cs = body ++ ';' :: rest ∧ body.count '\n' = n ∧
      ∀ u, nestedComment depth (body ++ ';' :: u) = some (n, u) := by
  induction depth, cs using nestedComment.induct generalizing n with
  | case1 depth r ih =>
    rw [nestedComment] at h
    obtain ⟨body, rfl, count, again⟩ := ih h
    refine ⟨';' :: '.' :: body, rfl, by simpa using count, fun u => ?_⟩
    rw [List.cons_append, List.cons_append, nestedComment, again]
  | case2 r =>
    simp only [nestedComment, Option.some.injEq, Prod.mk.injEq] at h
    obtain ⟨rfl, rfl⟩ := h
    exact ⟨['.'], rfl, by decide, fun u => rfl⟩
  | case3 r depth ih =>
    rw [nestedComment] at h
    obtain ⟨body, rfl, count, again⟩ := ih h
    refine ⟨'.' :: ';' :: body, rfl, by simpa using count, fun u => ?_⟩
    rw [List.cons_append, List.cons_append, nestedComment, again]
  | case4 depth c r opens closes ih =>
    rw [nestedComment.eq_4 depth c r opens closes] at h
    obtain ⟨⟨m, s⟩, hs, he⟩ := Option.map_eq_some_iff.1 h
    obtain ⟨rfl, rfl⟩ := Prod.mk.inj he
    obtain ⟨body, rfl, count, again⟩ := ih hs
    refine ⟨c :: body, rfl, by rw [count_lineBreak, count], fun u => ?_⟩
    rw [List.cons_append, nestedComment.eq_4 depth c, again]
    · rfl
    · intro v hc hv
      obtain ⟨w, hw⟩ := head_of_append hv _
      exact opens w hc hw
    · intro v hc hv
      obtain ⟨w, hw⟩ := head_of_append hv _
      exact closes w hc hw
  | case5 => cases h

theorem comment_read (h : comment cs = .ok (n, rest)) :
    ∃ read, cs = read ++ rest ∧ read.count '\n' = n ∧ read.getLast? ≠ some '\n' ∧
      ∀ u, u.head? = rest.head? → comment (read ++ u) = .ok (n, u) := by
  unfold comment at h
  split at h
  · next r =>
    cases found : blockComment r with
    | none => simp [found] at h
    | some p =>
      simp only [found, Except.ok.injEq] at h
      subst h
      obtain ⟨body, rfl, count, again⟩ := blockComment_read found
      refine ⟨';' :: (body ++ [';']), by simp, by simp [count],
        by simp [List.getLast?_cons], fun u _ => ?_⟩
      simp [comment, again]
  · next r =>
    cases found : nestedComment 0 r with
    | none => simp [found] at h
    | some p =>
      simp only [found, Except.ok.injEq] at h
      subst h
      obtain ⟨body, rfl, count, again⟩ := nestedComment_read found
      refine ⟨'.' :: (body ++ [';']), by simp, by simp [count],
        by simp [List.getLast?_cons], fun u _ => ?_⟩
      simp [comment, again]
  · next block nested =>
    simp only [Except.ok.injEq, Prod.mk.injEq] at h
    obtain ⟨rfl, rfl⟩ := h
    have free : '\n' ∉ cs.takeWhile (· != '\n') := not_mem_takeWhile (by simp)
    refine ⟨cs.takeWhile (· != '\n'), List.takeWhile_append_dropWhile.symm,
      List.count_eq_zero.2 free, fun last => free (List.mem_of_getLast? last), fun u hu => ?_⟩
    have head : (cs.takeWhile (· != '\n') ++ u).head? = cs.head? := by
      rw [List.head?_append, hu, ← List.head?_append, List.takeWhile_append_dropWhile]
    unfold comment
    split
    · next r eq =>
      rw [eq] at head
      obtain ⟨t, ht⟩ := List.head?_eq_some_iff.1 head.symm
      exact absurd ht (block t)
    · next r eq =>
      rw [eq] at head
      obtain ⟨t, ht⟩ := List.head?_eq_some_iff.1 head.symm
      exact absurd ht (nested t)
    · rw [dropWhile_takeWhile_append (stop_of_head hu)]

end Comments

section Lexemes

theorem hexNumber_read {l : Literal} (h : hexNumber cs = .ok (l, rest)) :
    ∃ read, cs = read ++ rest ∧ '\n' ∉ read ∧
      ∀ u, Follows rest u → hexNumber (read ++ u) = .ok (l, u) := by
  have same : rest = cs.dropWhile isHexDigit := by
    unfold hexNumber at h
    dsimp only at h
    split at h
    · cases h
    · split at h <;> cases h
      rfl
  subst same
  refine ⟨cs.takeWhile isHexDigit, List.takeWhile_append_dropWhile.symm,
    not_mem_takeWhile (by decide), fun u hu => ?_⟩
  have stop := hu.stop (by decide)
  unfold hexNumber at h ⊢
  rw [takeWhile_takeWhile_append stop, dropWhile_takeWhile_append stop]
  dsimp only at h ⊢
  split at h
  · cases h
  · next some_ =>
    rw [if_neg some_]
    split at h <;> cases h
    next fits => rw [if_pos fits]

theorem hex_of_follows {read u r : List Char} (h : Follows rest u)
    (eq : c :: read ++ u = '0' :: 'x' :: r) : ∃ t, c :: (read ++ rest) = '0' :: 'x' :: t := by
  obtain ⟨rfl, behind⟩ := List.cons.inj eq
  cases read with
  | nil =>
    obtain rfl : u = 'x' :: r := behind
    rcases h with same | ⟨-, d, mem, head⟩
    · obtain ⟨t, rfl⟩ := List.head?_eq_some_iff.1 same.symm
      exact ⟨t, rfl⟩
    · cases head
      exact absurd mem (by decide)
  | cons d read =>
    obtain ⟨rfl, -⟩ := List.cons.inj behind
    exact ⟨read ++ rest, rfl⟩

theorem number_read {l : Literal} (digit : c.isDigit = true)
    (h : number (c :: cs) = .ok (l, rest)) :
    ∃ read, cs = read ++ rest ∧ '\n' ∉ c :: read ∧
      ∀ u, Follows rest u → number (c :: read ++ u) = .ok (l, u) := by
  unfold number at h
  split at h
  · next r eq =>
    obtain ⟨rfl, rfl⟩ := List.cons.inj eq
    obtain ⟨read, rfl, free, again⟩ := hexNumber_read h
    exact ⟨'x' :: read, rfl, by simp [free], again⟩
  · next notHex =>
    obtain ⟨v, hv, he⟩ := map_eq_ok.1 h
    obtain ⟨rfl, rfl⟩ := Prod.mk.inj he
    have run : (c :: cs).takeWhile isDigitOrDot = c :: cs.takeWhile isDigitOrDot :=
      List.takeWhile_cons_of_pos (by simp [isDigitOrDot, digit])
    have left : (c :: cs).dropWhile isDigitOrDot = cs.dropWhile isDigitOrDot :=
      List.dropWhile_cons_of_pos (by simp [isDigitOrDot, digit])
    refine ⟨cs.takeWhile isDigitOrDot, ?_, ?_, fun u hu => ?_⟩
    · rw [left, List.takeWhile_append_dropWhile]
    · rw [← run]
      exact not_mem_takeWhile (by decide)
    rw [left] at hu
    have stop := hu.stop (by decide)
    rw [← run]
    unfold number
    split
    · next r eq =>
      obtain ⟨t, ht⟩ := hex_of_follows hu (run ▸ eq)
      rw [List.takeWhile_append_dropWhile] at ht
      exact absurd ht (notHex t)
    · rw [takeWhile_takeWhile_append stop, dropWhile_takeWhile_append stop, hv]
      rfl

theorem word_read (cs : List Char) (start : isWordStart c = true) :
    ∃ read, cs = read ++ afterWord (c :: cs) ∧ '\n' ∉ c :: read ∧
      ∀ u, Follows (afterWord (c :: cs)) u →
        word (c :: read ++ u) = word (c :: cs) ∧ afterWord (c :: read ++ u) = u := by
  have part := isWordChar_of_isWordStart start
  have run : (c :: cs).takeWhile isWordChar = c :: cs.takeWhile isWordChar :=
    List.takeWhile_cons_of_pos part
  refine ⟨cs.takeWhile isWordChar, ?_, ?_, fun u hu => ?_⟩
  · rw [afterWord, List.dropWhile_cons_of_pos part, List.takeWhile_append_dropWhile]
  · rw [← run]
    exact not_mem_takeWhile (by decide)
  · have stop := hu.stop (by decide)
    rw [← run, word, word, afterWord, takeWhile_takeWhile_append stop,
      dropWhile_takeWhile_append stop]
    exact ⟨rfl, rfl⟩

theorem symbol_short : ∀ k ∈ Kind.symbols, k.text.toList.length ≤ 2 := by
  decide

theorem newline_not_mem_symbol : ∀ k ∈ Kind.symbols, '\n' ∉ k.text.toList := by
  decide

theorem find_symbol {u v : List Char} (h : u.take 2 = v.take 2) :
    (Kind.symbols.find? fun k => k.text.toList.isPrefixOf u) =
      Kind.symbols.find? fun k => k.text.toList.isPrefixOf v := by
  apply List.find?_congr
  intro k hk
  have short := symbol_short k hk
  rw [Bool.eq_iff_iff, List.isPrefixOf_iff_prefix, List.isPrefixOf_iff_prefix]
  have first (w : List Char) : k.text.toList <+: w ↔ k.text.toList <+: w.take 2 := by
    rw [List.prefix_take_iff, and_iff_left short]
  rw [first, first v, h]

theorem second_symbol : ∀ k ∈ Kind.symbols, separators.all (k.text.toList[1]? != some ·) := by
  decide

theorem find_symbol_follows {read u : List Char} (h : Follows rest u) (c : Char) :
    (Kind.symbols.find? fun k => k.text.toList.isPrefixOf (c :: read ++ u)) =
      Kind.symbols.find? fun k => k.text.toList.isPrefixOf (c :: read ++ rest) := by
  rcases h with same | ⟨rfl, d, mem, head⟩
  · exact find_symbol (take_two_append same c read)
  cases read with
  | cons d read => exact find_symbol rfl
  | nil =>
    apply List.find?_congr
    intro k hk
    have short := symbol_short k hk
    have second := bne_iff_ne.1 (List.all_eq_true.1 (second_symbol k hk) d mem)
    generalize k.text.toList = text at short second
    rcases text with _ | ⟨a, _ | ⟨b, _ | _⟩⟩
    · rfl
    · rfl
    · obtain ⟨t, rfl⟩ := List.head?_eq_some_iff.1 head
      simp_all [List.isPrefixOf]
    · simp at short

theorem symbol?_read {k : Kind} (h : symbol? (c :: cs) = some (k, rest)) :
    ∃ read, cs = read ++ rest ∧ '\n' ∉ c :: read ∧
      ∀ u, Follows rest u → symbol? (c :: read ++ u) = some (k, u) := by
  obtain ⟨j, found, he⟩ := Option.map_eq_some_iff.1 h
  obtain ⟨rfl, rfl⟩ := Prod.mk.inj he
  have mem := List.mem_of_find?_eq_some found
  have front : j.text.toList.isPrefixOf (c :: cs) = true := by simpa using List.find?_some found
  obtain ⟨left, eq⟩ := List.isPrefixOf_iff_prefix.1 front
  obtain ⟨d, read, text⟩ := List.exists_cons_of_length_pos (text_ne_nil_of_mem_symbols j mem)
  have free := newline_not_mem_symbol j mem
  rw [text] at eq free
  obtain ⟨rfl, rfl⟩ := List.cons.inj eq
  have drop (u : List Char) : (d :: read ++ u).drop j.text.toList.length = u := by
    rw [text, List.drop_left]
  have behind : (d :: List.append read left).drop j.text.toList.length = left := drop left
  refine ⟨read, by rw [behind]; rfl, free, fun u hu => ?_⟩
  rw [behind] at hu
  rw [symbol?, find_symbol_follows hu d]
  exact Option.map_eq_some_iff.2 ⟨j, found, by rw [drop]⟩

theorem sigilName_read {i : Item} (h : sigilName c cs = .ok (i, rest)) :
    ∃ read l, cs = read ++ rest ∧ '\n' ∉ c :: read ∧ i = .lexeme l ∧
      ∀ u, Follows rest u → sigilName c (read ++ u) = .ok (i, u) := by
  unfold sigilName at h
  split at h
  · next d r =>
    split at h <;> cases h
    next start =>
    obtain ⟨read, eq, free, again⟩ := word_read r start
    refine ⟨':' :: d :: read, _, ?_, ?_, rfl, fun u hu => ?_⟩
    · rw [List.cons_append, List.cons_append, ← eq]
    · simpa using free
    · obtain ⟨same, behind⟩ := again u hu
      rw [List.cons_append] at same behind
      simp only [List.cons_append, sigilName, start, if_true, same, behind]
  · next d r =>
    split at h <;> cases h
    next start =>
    obtain ⟨read, eq, free, again⟩ := word_read r start
    refine ⟨d :: read, _, ?_, ?_, rfl, fun u hu => ?_⟩
    · rw [List.cons_append, ← eq]
    · simpa using free
    · obtain ⟨same, behind⟩ := again u hu
      rw [List.cons_append] at same behind
      simp only [List.cons_append, sigilName, start, if_true, same, behind]
  · cases h

end Lexemes

section Next

theorem isDigit_ascii : ∀ n < 128, (Char.ofNat n).isDigit = true →
    isWordStart (Char.ofNat n) = false := by
  decide

theorem isDigit_of_isWordStart (h : isWordStart c = true) : c.isDigit = false := by
  rw [Bool.eq_false_iff]
  intro digit
  have ascii : c.toNat < 128 := Nat.lt_of_le_of_lt (Char.isDigit_iff_toNat.1 digit).2 (by decide)
  have word := isDigit_ascii c.toNat ascii
  rw [Char.ofNat_toNat, h] at word
  cases word digit

variable (cs)

theorem next_newline : next '\n' cs = .ok (.newline, cs) := rfl

theorem next_white (h : c = ' ' ∨ c = '\t' ∨ c = '\r') : next c cs = .ok (.blank 0, cs) := by
  rcases h with rfl | rfl | rfl <;> rfl

theorem next_semicolon :
    next ';' cs = (comment cs).map fun (n, rest) => (.blank n, rest) := rfl

theorem next_quote : next '"' cs =
    match Text.Quoted.decode cs with
    | .ok (s, rest) => .ok (.lexeme (.ofLiteral (.str (String.ofList s))), rest)
    | .error d => .error (.ofQuoted d) := rfl

theorem next_digit (h : c.isDigit = true) :
    next c cs = (number (c :: cs)).map fun (l, rest) => (.lexeme (.ofLiteral l), rest) := by
  have ne {d : Char} (hd : d.isDigit = false) : c ≠ d := fun eq => by simp [eq, hd] at h
  have white : ¬ (c = ' ' ∨ c = '\t' ∨ c = '\r') := by
    rintro (rfl | rfl | rfl) <;> cases h
  rw [next, if_neg (ne rfl), if_neg white, if_neg (ne rfl), if_neg (ne rfl), if_pos h]

theorem next_word (h : isWordStart c = true) :
    next c cs = .ok (.lexeme (.ofWord (word (c :: cs))), afterWord (c :: cs)) := by
  have ne {d : Char} (hd : isWordStart d = false) : c ≠ d := fun eq => by simp [eq, hd] at h
  have white : ¬ (c = ' ' ∨ c = '\t' ∨ c = '\r') := by
    rintro (rfl | rfl | rfl) <;> cases h
  rw [next, if_neg (ne rfl), if_neg white, if_neg (ne rfl), if_neg (ne rfl),
    if_neg (by simp [isDigit_of_isWordStart h]), if_pos h]

/-- Neither blank nor the beginning of a comment, a quoted text, a number or a word. -/
def isPunctuation (c : Char) : Bool :=
  !(c == '\n' || c == ' ' || c == '\t' || c == '\r' || c == ';' || c == '"' || c.isDigit ||
    isWordStart c)

theorem next_symbol {k : Kind} (h : isPunctuation c = true)
    (found : symbol? (c :: cs) = some (k, rest)) :
    next c cs = .ok (.lexeme ⟨k, none⟩, rest) := by
  simp only [isPunctuation, Bool.not_eq_true', Bool.or_eq_false_iff, beq_eq_false_iff_ne] at h
  simp only [next, h, Bool.false_eq_true, if_false, or_self, found]

theorem next_sigil (h : isPunctuation c = true) (found : symbol? (c :: cs) = none) :
    next c cs = sigilName c cs := by
  simp only [isPunctuation, Bool.not_eq_true', Bool.or_eq_false_iff, beq_eq_false_iff_ne] at h
  simp only [next, h, Bool.false_eq_true, if_false, or_self, found]

end Next

/-- A step from `c :: cs` to `rest` reads a beginning of the text, with the line breaks of its
item. Only a line break ends in one, and of the rest the step sees one character at most. Unless
it read a comment, it does not see a blank or a comment there. -/
def Advances (c : Char) (cs : List Char) (i : Item) (rest : List Char) : Prop :=
  ∃ read, cs = read ++ rest ∧ (c :: read).count '\n' = i.breaks ∧
    (c = '\n' ∨ (c :: read).getLast? ≠ some '\n' ∧ i ≠ .newline) ∧
    ∀ u, Follows rest u → (c = ';' → u.head? = rest.head?) → next c (read ++ u) = .ok (i, u)

section Advances

theorem Advances.lexeme {read : List Char} {l : Lexeme} (eq : cs = read ++ rest)
    (clear : '\n' ∉ c :: read)
    (again : ∀ u, Follows rest u → next c (read ++ u) = .ok (.lexeme l, u)) :
    Advances c cs (.lexeme l) rest :=
  ⟨read, eq, List.count_eq_zero.2 clear,
    .inr ⟨fun last => clear (List.mem_of_getLast? last), nofun⟩, fun u hu _ => again u hu⟩

theorem advances_white (white : c = ' ' ∨ c = '\t' ∨ c = '\r') :
    Advances c cs (.blank 0) cs := by
  have clear : '\n' ∉ [c] := by
    rcases white with rfl | rfl | rfl <;> decide
  exact ⟨[], rfl, List.count_eq_zero.2 clear,
    .inr ⟨fun last => clear (List.mem_of_getLast? last), nofun⟩, fun u _ _ => next_white u white⟩

theorem advances_comment (h : comment cs = .ok (n, rest)) : Advances ';' cs (.blank n) rest := by
  obtain ⟨read, rfl, count, last, again⟩ := comment_read h
  refine ⟨read, rfl, ?_, .inr ⟨fun end_ => ?_, nofun⟩, fun u _ hu => ?_⟩
  · rw [List.count_cons_of_ne (by decide), count]
    rfl
  · rw [List.getLast?_cons, Option.some.injEq] at end_
    cases eq : read.getLast? with
    | none => simp [eq] at end_
    | some d =>
      rw [eq, Option.getD_some] at end_
      exact absurd (eq.trans (congrArg some end_)) last
  · rw [next_semicolon, again u (hu rfl)]
    rfl

theorem advances_quote {s : List Char} (h : Text.Quoted.decode cs = .ok (s, rest)) :
    Advances '"' cs (.lexeme (.ofLiteral (.str (String.ofList s)))) rest := by
  obtain ⟨read, eq, clear, again⟩ := Text.Quoted.decode_read h
  refine .lexeme eq (by simpa using clear) fun u _ => ?_
  rw [next_quote, again]

theorem advances_number {l : Literal} (digit : c.isDigit = true)
    (h : number (c :: cs) = .ok (l, rest)) : Advances c cs (.lexeme (.ofLiteral l)) rest := by
  obtain ⟨read, eq, clear, again⟩ := number_read digit h
  refine .lexeme eq clear fun u hu => ?_
  rw [next_digit _ digit, ← List.cons_append, again u hu]
  rfl

theorem advances_word (start : isWordStart c = true) :
    Advances c cs (.lexeme (.ofWord (word (c :: cs)))) (afterWord (c :: cs)) := by
  obtain ⟨read, eq, clear, again⟩ := word_read cs start
  refine .lexeme eq clear fun u hu => ?_
  obtain ⟨same, behind⟩ := again u hu
  rw [next_word _ start, ← List.cons_append, same, behind]

theorem advances_symbol {k : Kind} (punctuation : isPunctuation c = true)
    (h : symbol? (c :: cs) = some (k, rest)) : Advances c cs (.lexeme ⟨k, none⟩) rest := by
  obtain ⟨read, eq, clear, again⟩ := symbol?_read h
  exact .lexeme eq clear fun u hu => next_symbol _ punctuation (again u hu)

theorem advances_sigil {i : Item} (punctuation : isPunctuation c = true)
    (none_ : symbol? (c :: cs) = none) (h : sigilName c cs = .ok (i, rest)) :
    Advances c cs i rest := by
  obtain ⟨read, l, rfl, clear, rfl, again⟩ := sigilName_read h
  refine .lexeme rfl clear fun u hu => ?_
  have still : symbol? (c :: read ++ u) = none := by
    rw [symbol?, Option.map_eq_none_iff] at none_ ⊢
    rw [← none_]
    exact find_symbol_follows hu c
  exact (next_sigil _ punctuation still).trans (again u hu)

theorem next_advances {i : Item} (h : next c cs = .ok (i, rest)) : Advances c cs i rest := by
  by_cases newline : c = '\n'
  · subst newline
    cases h
    exact ⟨[], rfl, rfl, .inl rfl, fun u _ _ => rfl⟩
  by_cases white : c = ' ' ∨ c = '\t' ∨ c = '\r'
  · rw [next_white cs white] at h
    cases h
    exact advances_white white
  by_cases semicolon : c = ';'
  · subst semicolon
    obtain ⟨⟨n, r⟩, found, eq⟩ := map_eq_ok.1 h
    cases eq
    exact advances_comment found
  by_cases quote : c = '"'
  · subst quote
    rw [next_quote] at h
    split at h <;> cases h
    next found => exact advances_quote found
  by_cases digit : c.isDigit = true
  · rw [next_digit cs digit] at h
    obtain ⟨⟨l, r⟩, found, eq⟩ := map_eq_ok.1 h
    cases eq
    exact advances_number digit found
  by_cases start : isWordStart c = true
  · rw [next_word cs start] at h
    cases h
    exact advances_word start
  have punctuation : isPunctuation c = true := by simp_all [isPunctuation]
  cases found : symbol? (c :: cs) with
  | some p =>
    obtain ⟨k, r⟩ := p
    rw [next_symbol cs punctuation found] at h
    cases h
    exact advances_symbol punctuation found
  | none =>
    rw [next_sigil cs punctuation found] at h
    exact advances_sigil punctuation found h

end Advances

end Scan

end Offside
