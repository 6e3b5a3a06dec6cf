import Offside.Proofs.Scan.Item
import Offside.Scan.Lines

/-!
Texts that differ in the white space around their line breaks only: in carriage returns before a
break, and in the indentation behind it. If every physical line measures the same in both, they are
scanned in step, and the same lines come out of both or the same fault.
-/

namespace Offside

inductive Alike {ε α β : Type} (E : ε → ε → Prop) (R : α → β → Prop) :
    Except ε α → Except ε β → Prop
  | ok {a b} : R a b → Alike E R (.ok a) (.ok b)
  | error {e e'} : E e e' → Alike E R (.error e) (.error e')

namespace Alike

variable {ε α β α' β' : Type} {E : ε → ε → Prop} {R : α → β → Prop} {S : α' → β' → Prop}
  {x : Except ε α} {y : Except ε β}

theorem map (h : Alike E R x y) {f : α → α'} {g : β → β'} (hf : ∀ a b, R a b → S (f a) (g b)) :
    Alike E S (x.map f) (y.map g) := by
  cases h with
  | ok h => exact .ok (hf _ _ h)
  | error h => exact .error h

theorem bind (h : Alike E R x y) {f : α → Except ε α'} {g : β → Except ε β'}
    (hf : ∀ a b, R a b → Alike E S (f a) (g b)) : Alike E S (x >>= f) (y >>= g) := by
  cases h with
  | ok h => exact hf _ _ h
  | error h => exact .error h

theorem ok_of (h : Alike E R x y) {a : α} (ok : x = .ok a) : ∃ b, y = .ok b ∧ R a b := by
  subst ok
  cases h with
  | ok h => exact ⟨_, rfl, h⟩

theorem error_of (h : Alike E R x y) {e : ε} (error : x = .error e) :
    ∃ e', y = .error e' ∧ E e e' := by
  subst error
  cases h with
  | error h => exact ⟨_, rfl, h⟩

end Alike

namespace Scan

/-- How white space is changed: from one unit of indentation to another, and whether carriage
returns may be put before line breaks. -/
structure Respacing where
  old : Indentation
  new : Indentation
  returns : Prop

/-- Two texts are the same from inside a physical line on, but for carriage returns before line
breaks and for the indentation of lines that measure the same. -/
inductive Respaced (r : Respacing) : List Char → List Char → Prop
  | nil : Respaced r [] []
  | cons {c cs ds} : c ≠ '\n' → Respaced r cs ds → Respaced r (c :: cs) (c :: ds)
  | newline {cs ds} : level r.new ds = level r.old cs →
      Respaced r (afterIndent cs) (afterIndent ds) → Respaced r ('\n' :: cs) ('\n' :: ds)
  | return_ {cs ds} : r.returns → level r.new ds = level r.old cs →
      Respaced r (afterIndent cs) (afterIndent ds) → Respaced r ('\n' :: cs) ('\r' :: '\n' :: ds)

/-- The same fault, unless a backslash escapes a line break: with a carriage return before it, it
escapes that. -/
inductive SameFault (r : Respacing) : Fault → Fault → Prop
  | refl (f) : SameFault r f f
  | escape : r.returns → SameFault r (.invalidEscape '\n') (.invalidEscape '\r')

def SameFound (r : Respacing) {α : Type} (x y : α × List Char) : Prop :=
  x.1 = y.1 ∧ Respaced r x.2 y.2

def SameError (r : Respacing) (e e' : Error) : Prop :=
  e.line = e'.line ∧ SameFault r e.fault e'.fault

variable {r : Respacing} {c d : Char} {cs ds : List Char} {p : Char → Bool}

theorem sameFault_iff {f f' : Fault} : SameFault r f f' ↔
    f' = f ∨ r.returns ∧ f = .invalidEscape '\n' ∧ f' = .invalidEscape '\r' := by
  constructor
  · rintro (_ | allowed)
    · exact .inl rfl
    · exact .inr ⟨allowed, rfl, rfl⟩
  · rintro (rfl | ⟨allowed, rfl, rfl⟩)
    · exact .refl f'
    · exact .escape allowed

namespace Respaced

section Text

theorem tail (h : Respaced r (c :: cs) ds) (ne : c ≠ '\n') :
    ∃ ds', ds = c :: ds' ∧ Respaced r cs ds' := by
  cases h with
  | cons _ h => exact ⟨_, rfl, h⟩
  | newline | return_ => exact absurd rfl ne

theorem tail_two (h : Respaced r (c :: d :: cs) ds) (first : c ≠ '\n') (second : d ≠ '\n') :
    ∃ ds', ds = c :: d :: ds' ∧ Respaced r cs ds' := by
  obtain ⟨_, rfl, behind⟩ := h.tail first
  obtain ⟨_, rfl, left⟩ := behind.tail second
  exact ⟨_, rfl, left⟩

theorem of_tail (h : Respaced r cs (d :: ds)) (newline : d ≠ '\n') (return_ : d ≠ '\r') :
    ∃ cs', cs = d :: cs' ∧ Respaced r cs' ds := by
  cases h with
  | cons _ h => exact ⟨_, rfl, h⟩
  | newline => exact absurd rfl newline
  | return_ => exact absurd rfl return_

theorem append (h : Respaced r cs ds) {w : List Char} (clear : '\n' ∉ w) :
    Respaced r (w ++ cs) (w ++ ds) := by
  induction w with
  | nil => exact h
  | cons c w ih =>
    rw [List.mem_cons, not_or] at clear
    exact .cons (Ne.symm clear.1) (ih clear.2)

theorem any_head? (h : Respaced r cs ds) (newline : p '\n' = false) (return_ : p '\r' = false) :
    ds.head?.any p = cs.head?.any p := by
  cases h with
  | nil | cons | newline => rfl
  | return_ => simp [newline, return_]

theorem run (h : Respaced r cs ds) (newline : p '\n' = false) (return_ : p '\r' = false) :
    ds.takeWhile p = cs.takeWhile p ∧ Respaced r (cs.dropWhile p) (ds.dropWhile p) := by
  induction h with
  | nil => exact ⟨rfl, .nil⟩
  | @cons c cs ds ne h ih =>
    by_cases more : p c = true
    · simpa [more] using ih
    · simpa [more] using h.cons ne
  | newline measure h => simpa [newline] using h.newline measure
  | return_ allowed measure h => simpa [newline, return_] using h.return_ allowed measure

theorem isPrefixOf (h : Respaced r cs ds) {t : List Char} (newline : '\n' ∉ t)
    (return_ : '\r' ∉ t) : t.isPrefixOf ds = t.isPrefixOf cs ∧
      (t.isPrefixOf cs = true → Respaced r (cs.drop t.length) (ds.drop t.length)) := by
  induction t generalizing cs ds with
  | nil => exact ⟨by simp, fun _ => h⟩
  | cons c t ih =>
    rw [List.mem_cons, not_or] at newline return_
    have notBreak : (c == '\n') = false := beq_eq_false_iff_ne.2 (Ne.symm newline.1)
    have notReturn : (c == '\r') = false := beq_eq_false_iff_ne.2 (Ne.symm return_.1)
    cases h with
    | nil => exact ⟨rfl, nofun⟩
    | cons _ h =>
      obtain ⟨same, left⟩ := ih h newline.2 return_.2
      simp only [List.isPrefixOf, same, Bool.and_eq_true, List.length_cons, List.drop_succ_cons]
      exact ⟨trivial, fun found => left found.2⟩
    | newline => simp [List.isPrefixOf, notBreak]
    | return_ => simp [List.isPrefixOf, notBreak, notReturn]

end Text

end Respaced

section Comments

variable {depth : Nat}

theorem lineBreak_white (white : c = ' ' ∨ c = '\t' ∨ c = '\r') : lineBreak c = 0 := by
  rcases white with rfl | rfl | rfl <;> rfl

theorem map_passed_zero (x : Option (Nat × List Char)) :
    x.map (fun (n, rest) => (0 + n, rest)) = x := by
  cases x <;> simp

theorem blockComment_white (white : c = ' ' ∨ c = '\t' ∨ c = '\r') (cs : List Char) :
    blockComment (c :: cs) = blockComment cs := by
  have other (t : List Char) (semicolon : c = ';') (_ : cs = ';' :: t) : False := by
    simp [semicolon] at white
  rw [blockComment.eq_2 c cs other, lineBreak_white white, map_passed_zero]

theorem nestedComment_white (white : c = ' ' ∨ c = '\t' ∨ c = '\r') (cs : List Char) :
    nestedComment depth (c :: cs) = nestedComment depth cs := by
  have opens (t : List Char) (semicolon : c = ';') (_ : cs = '.' :: t) : False := by
    simp [semicolon] at white
  have closes (t : List Char) (dot : c = '.') (_ : cs = ';' :: t) : False := by
    simp [dot] at white
  rw [nestedComment.eq_4 depth c cs opens closes, lineBreak_white white, map_passed_zero]

theorem white_of_isIndent (h : isIndent c = true) : c = ' ' ∨ c = '\t' ∨ c = '\r' := by
  simp only [isIndent, Bool.or_eq_true, beq_iff_eq] at h
  exact h.elim .inl fun tab => .inr (.inl tab)

theorem afterIndent_passed {α : Type} {f : List Char → α}
    (passed : ∀ c cs, isIndent c = true → f (c :: cs) = f cs) (cs : List Char) :
    f (afterIndent cs) = f cs := by
  induction cs with
  | nil => rfl
  | cons c cs ih =>
    rw [afterIndent, List.dropWhile_cons]
    split
    · next indent => exact ih.trans (passed c cs indent).symm
    · rfl

theorem blockComment_afterIndent (cs : List Char) :
    blockComment (afterIndent cs) = blockComment cs :=
  afterIndent_passed (fun _ cs indent => blockComment_white (white_of_isIndent indent) cs) cs

theorem nestedComment_afterIndent (cs : List Char) :
    nestedComment depth (afterIndent cs) = nestedComment depth cs :=
  afterIndent_passed (fun _ cs indent => nestedComment_white (white_of_isIndent indent) cs) cs

theorem blockComment_newline (cs : List Char) : blockComment ('\n' :: cs) =
    (blockComment cs).map fun (n, rest) => (lineBreak '\n' + n, rest) := rfl

theorem nestedComment_newline (cs : List Char) : nestedComment depth ('\n' :: cs) =
    (nestedComment depth cs).map fun (n, rest) => (lineBreak '\n' + n, rest) := by
  rw [nestedComment.eq_4] <;> simp

end Comments

namespace Respaced

theorem line (h : Respaced r (afterIndent cs) (afterIndent ds)) :
    ∃ ds', Respaced r cs ds' ∧ afterIndent ds' = afterIndent ds := by
  have clear : '\n' ∉ cs.takeWhile isIndent := not_mem_takeWhile (by decide)
  have stop : ∀ c ∈ (afterIndent ds).head?, isIndent c = false :=
    fun c head => of_mem_head?_dropWhile head
  refine ⟨cs.takeWhile isIndent ++ afterIndent ds, ?_, dropWhile_takeWhile_append stop⟩
  have appended := h.append clear
  rwa [afterIndent, List.takeWhile_append_dropWhile] at appended

section Comments

theorem relMap {x y : Option (Nat × List Char)} (h : Option.Rel (SameFound r) x y) (n : Nat) :
    Option.Rel (SameFound r) (x.map fun (m, rest) => (n + m, rest))
      (y.map fun (m, rest) => (n + m, rest)) := by
  cases h with
  | none => exact .none
  | some found => exact .some ⟨congrArg (n + ·) found.1, found.2⟩

theorem behind {f : List Char → Option (Nat × List Char)}
    (skip : ∀ cs, f (afterIndent cs) = f cs)
    (ih : ∀ ds, Respaced r cs ds → Option.Rel (SameFound r) (f cs) (f ds))
    (h : Respaced r (afterIndent cs) (afterIndent ds)) :
    Option.Rel (SameFound r) (f cs) (f ds) := by
  obtain ⟨ds', respaced, same⟩ := h.line
  rw [← skip ds, ← same, skip]
  exact ih ds' respaced

theorem blockComment (h : Respaced r cs ds) :
    Option.Rel (SameFound r) (Scan.blockComment cs) (Scan.blockComment ds) := by
  induction cs using blockComment.induct generalizing ds with
  | case1 rest =>
    obtain ⟨_, rfl, left⟩ := h.tail_two (by decide) (by decide)
    exact .some ⟨rfl, left⟩
  | case2 c rest inside ih =>
    rw [blockComment.eq_2 c rest inside]
    cases h with
    | cons ne h =>
      rw [blockComment.eq_2 c _ ?_]
      · exact relMap (ih h) _
      · rintro t rfl rfl
        obtain ⟨_, rfl, -⟩ := h.of_tail (by decide) (by decide)
        exact inside _ rfl rfl
    | newline _ h =>
      rw [blockComment_newline]
      exact relMap (behind blockComment_afterIndent (fun _ => ih) h) _
    | return_ _ _ h =>
      rw [blockComment_white (.inr (.inr rfl)), blockComment_newline]
      exact relMap (behind blockComment_afterIndent (fun _ => ih) h) _
  | case3 =>
    cases h
    exact .none

theorem nestedComment {depth : Nat} (h : Respaced r cs ds) :
    Option.Rel (SameFound r) (Scan.nestedComment depth cs) (Scan.nestedComment depth ds) := by
  induction depth, cs using nestedComment.induct generalizing ds with
  | case1 depth rest ih =>
    obtain ⟨_, rfl, left⟩ := h.tail_two (by decide) (by decide)
    exact ih left
  | case2 rest =>
    obtain ⟨_, rfl, left⟩ := h.tail_two (by decide) (by decide)
    exact .some ⟨rfl, left⟩
  | case3 rest depth ih =>
    obtain ⟨_, rfl, left⟩ := h.tail_two (by decide) (by decide)
    exact ih left
  | case4 depth c rest opens closes ih =>
    rw [nestedComment.eq_4 depth c rest opens closes]
    cases h with
    | cons ne h =>
      rw [nestedComment.eq_4 depth c _ ?_ ?_]
      · exact relMap (ih h) _
      · rintro t rfl rfl
        obtain ⟨_, rfl, -⟩ := h.of_tail (by decide) (by decide)
        exact opens _ rfl rfl
      · rintro t rfl rfl
        obtain ⟨_, rfl, -⟩ := h.of_tail (by decide) (by decide)
        exact closes _ rfl rfl
    | newline _ h =>
      rw [nestedComment_newline]
      exact relMap (behind nestedComment_afterIndent (fun _ => ih) h) _
    | return_ _ _ h =>
      rw [nestedComment_white (.inr (.inr rfl)), nestedComment_newline]
      exact relMap (behind nestedComment_afterIndent (fun _ => ih) h) _
  | case5 =>
    cases h
    exact .none

theorem toLineEnd (h : Respaced r cs ds) :
    Respaced r (cs.dropWhile (· != '\n')) (ds.dropWhile (· != '\n')) := by
  induction h with
  | nil => exact .nil
  | cons ne _ ih => simpa [ne] using ih
  | newline measure h => simpa using h.newline measure
  | return_ _ measure h => simpa using h.newline measure

theorem closed (fault : Fault) {x y : Option (Nat × List Char)} :
    Option.Rel (SameFound r) x y → Alike (SameFault r) (SameFound r)
      (match x with | some found => .ok found | none => .error fault)
      (match y with | some found => .ok found | none => .error fault) := by
  intro h
  cases h with
  | none => exact .error (.refl _)
  | some found => exact .ok found

theorem comment (h : Respaced r cs ds) :
    Alike (SameFault r) (SameFound r) (Scan.comment cs) (Scan.comment ds) := by
  unfold Scan.comment
  split
  · obtain ⟨_, rfl, within⟩ := h.tail (by decide)
    exact closed _ within.blockComment
  · obtain ⟨_, rfl, within⟩ := h.tail (by decide)
    exact closed _ within.nestedComment
  · next block nested =>
    split
    · obtain ⟨_, rfl, -⟩ := h.of_tail (by decide) (by decide)
      exact absurd rfl (block _)
    · obtain ⟨_, rfl, -⟩ := h.of_tail (by decide) (by decide)
      exact absurd rfl (nested _)
    · exact .ok ⟨rfl, h.toLineEnd⟩

end Comments

section Lexemes

theorem decode (h : Respaced r cs ds) :
    Alike (fun d d' => SameFault r (.ofQuoted d) (.ofQuoted d')) (SameFound r)
      (Text.Quoted.decode cs) (Text.Quoted.decode ds) := by
  induction cs using Text.Quoted.decode.induct generalizing ds with
  | case1 =>
    cases h
    exact .error (.refl _)
  | case2 rest =>
    obtain ⟨_, rfl, left⟩ := h.tail (by decide)
    exact .ok ⟨rfl, left⟩
  | case3 rest =>
    cases h with
    | cons ne => exact absurd rfl ne
    | newline | return_ => exact .error (.refl .unterminatedString)
  | case4 =>
    obtain ⟨_, rfl, left⟩ := h.tail (by decide)
    cases left
    exact .error (.refl _)
  | case5 l rest c meaning ih =>
    have plain : l ≠ '\n' := by
      rintro rfl
      cases meaning
    obtain ⟨_, rfl, left⟩ := h.tail_two (by decide) plain
    simp only [Text.Quoted.decode, meaning]
    exact (ih left).map fun _ _ found => ⟨congrArg (c :: ·) found.1, found.2⟩
  | case6 l rest meaning =>
    obtain ⟨_, rfl, behind⟩ := h.tail (by decide)
    simp only [Text.Quoted.decode, meaning]
    cases behind with
    | cons =>
      simp only [Text.Quoted.decode, meaning]
      exact .error (.refl _)
    | newline => exact .error (.refl _)
    | return_ allowed => exact .error (.escape allowed)
  | case7 c rest quote newline alone escape ih =>
    obtain ⟨_, rfl, left⟩ := h.tail newline
    have plain : c ≠ '"' ∧ c ≠ '\\' ∧ c ≠ '\n' := by
      refine ⟨quote, fun eq => ?_, newline⟩
      cases rest with
      | nil => exact alone eq rfl
      | cons l r => exact escape l r eq rfl
    rw [Text.Quoted.decode_plain plain, Text.Quoted.decode_plain plain]
    exact (ih left).map fun _ _ found => ⟨congrArg (c :: ·) found.1, found.2⟩

theorem hexNumber (h : Respaced r cs ds) :
    Alike (SameFault r) (SameFound r) (Scan.hexNumber cs) (Scan.hexNumber ds) := by
  obtain ⟨digits, left⟩ := h.run (p := isHexDigit) (by decide) (by decide)
  unfold Scan.hexNumber
  rw [digits]
  dsimp only
  split
  · exact .error (.refl _)
  split
  · exact .ok ⟨rfl, left⟩
  · exact .error (.refl _)

theorem number (h : Respaced r cs ds) :
    Alike (SameFault r) (SameFound r) (Scan.number cs) (Scan.number ds) := by
  unfold Scan.number
  split
  · obtain ⟨_, rfl, left⟩ := h.tail_two (by decide) (by decide)
    exact left.hexNumber
  · next decimal =>
    split
    · obtain ⟨_, rfl, h₁⟩ := h.of_tail (by decide) (by decide)
      obtain ⟨_, rfl, -⟩ := h₁.of_tail (by decide) (by decide)
      exact absurd rfl (decimal _)
    · obtain ⟨digits, left⟩ := h.run (p := isDigitOrDot) (by decide) (by decide)
      rw [digits]
      cases Scan.decimal (cs.takeWhile isDigitOrDot) with
      | error => exact .error (.refl _)
      | ok => exact .ok ⟨rfl, left⟩

theorem word (h : Respaced r cs ds) :
    Scan.word ds = Scan.word cs ∧ Respaced r (afterWord cs) (afterWord ds) := by
  obtain ⟨same, left⟩ := h.run (p := isWordChar) (by decide) (by decide)
  exact ⟨congrArg String.ofList same, left⟩

theorem return_not_mem_symbol : ∀ k ∈ Kind.symbols, '\r' ∉ k.text.toList := by
  decide

theorem symbol? (h : Respaced r cs ds) :
    Option.Rel (SameFound r) (Scan.symbol? cs) (Scan.symbol? ds) := by
  have found : (Kind.symbols.find? fun k => k.text.toList.isPrefixOf ds) =
      Kind.symbols.find? fun k => k.text.toList.isPrefixOf cs :=
    List.find?_congr fun k mem =>
      (h.isPrefixOf (newline_not_mem_symbol k mem) (return_not_mem_symbol k mem)).1
  unfold Scan.symbol?
  rw [found]
  cases eq : Kind.symbols.find? fun k => k.text.toList.isPrefixOf cs with
  | none => exact .none
  | some k =>
    have mem := List.mem_of_find?_eq_some eq
    have front : k.text.toList.isPrefixOf cs = true := by simpa using List.find?_some eq
    exact .some ⟨rfl, (h.isPrefixOf (newline_not_mem_symbol k mem)
      (return_not_mem_symbol k mem)).2 front⟩

theorem named (h : Respaced r (d :: cs) ds) (sigil : Sigil) (fault : Fault) :
    ∃ e ds', ds = e :: ds' ∧ Alike (SameFault r) (SameFound r)
      (if isWordStart d then
        .ok (.lexeme (.ofIdent ⟨Scan.word (d :: cs), sigil⟩), afterWord (d :: cs))
      else .error fault)
      (if isWordStart e then
        .ok (Item.lexeme (.ofIdent ⟨Scan.word (e :: ds'), sigil⟩), afterWord (e :: ds'))
      else .error fault) := by
  have first := h.any_head? (p := isWordStart) (by decide) (by decide)
  obtain ⟨same, left⟩ := h.word
  cases ds with
  | nil => cases h
  | cons e ds =>
    refine ⟨e, ds, rfl, ?_⟩
    rw [show isWordStart e = isWordStart d from first, same]
    split
    · exact .ok ⟨rfl, left⟩
    · exact .error (.refl _)

theorem sigilName (h : Respaced r cs ds) :
    Alike (SameFault r) (SameFound r) (Scan.sigilName c cs) (Scan.sigilName c ds) := by
  unfold Scan.sigilName
  split
  · obtain ⟨_, rfl, behind⟩ := h.tail (by decide)
    obtain ⟨_, _, rfl, alike⟩ := behind.named .scope (.unexpectedCharacter ':')
    exact alike
  · obtain ⟨_, _, rfl, alike⟩ := h.named .member (.unexpectedCharacter '@')
    exact alike
  · next scope member =>
    split
    · obtain ⟨_, rfl, behind⟩ := h.of_tail (by decide) (by decide)
      cases behind <;> exact absurd rfl (scope _ _ rfl)
    · cases h <;> exact absurd rfl (member _ _ rfl)
    · exact .error (.refl _)

end Lexemes

theorem next (h : Respaced r cs ds) (ne : c ≠ '\n') :
    Alike (SameFault r) (SameFound r) (Scan.next c cs) (Scan.next c ds) := by
  by_cases white : c = ' ' ∨ c = '\t' ∨ c = '\r'
  · rw [next_white cs white, next_white ds white]
    exact .ok ⟨rfl, h⟩
  by_cases semicolon : c = ';'
  · subst semicolon
    exact h.comment.map fun _ _ found => ⟨congrArg Item.blank found.1, found.2⟩
  by_cases quote : c = '"'
  · subst quote
    rw [next_quote, next_quote]
    cases eq : Text.Quoted.decode cs with
    | ok found =>
      obtain ⟨found', eq', same, left⟩ := h.decode.ok_of eq
      rw [eq']
      exact .ok ⟨congrArg (fun s => Item.lexeme (.ofLiteral (.str (String.ofList s)))) same, left⟩
    | error =>
      obtain ⟨_, eq', same⟩ := h.decode.error_of eq
      rw [eq']
      exact .error same
  by_cases digit : c.isDigit = true
  · rw [next_digit cs digit, next_digit ds digit]
    exact (h.cons ne).number.map fun _ _ found =>
      ⟨congrArg (fun l => Item.lexeme (.ofLiteral l)) found.1, found.2⟩
  by_cases start : isWordStart c = true
  · obtain ⟨same, left⟩ := (h.cons ne).word
    rw [next_word cs start, next_word ds start, same]
    exact .ok ⟨rfl, left⟩
  have punctuation : isPunctuation c = true := by simp_all [isPunctuation]
  have symbols := (h.cons ne).symbol?
  generalize found : Scan.symbol? (c :: cs) = x, found' : Scan.symbol? (c :: ds) = y at symbols
  cases symbols with
  | some same =>
    rw [next_symbol cs punctuation found, next_symbol ds punctuation found', same.1]
    exact .ok ⟨rfl, same.2⟩
  | none =>
    rw [next_sigil cs punctuation found, next_sigil ds punctuation found']
    exact h.sigilName

theorem step {x : Except Fault (Item × List Char)} (h : Respaced r (c :: cs) ds)
    (eq : Scan.next c cs = x) (other : x ≠ .ok (.newline, cs)) :
    ∃ ds', ds = c :: ds' ∧ Alike (SameFault r) (SameFound r) x (Scan.next c ds') := by
  have ne : c ≠ '\n' := by
    rintro rfl
    exact other eq.symm
  obtain ⟨ds', rfl, left⟩ := h.tail ne
  exact ⟨ds', rfl, eq ▸ left.next ne⟩

theorem linesFrom (number : Nat) (measure : level r.new ds = level r.old cs)
    (h : Alike (SameError r) Eq (remainder r.old number (afterIndent cs))
      (remainder r.new number (afterIndent ds))) :
    Alike (SameError r) Eq (Scan.linesFrom r.old number cs) (Scan.linesFrom r.new number ds) := by
  unfold Scan.linesFrom
  rw [measure]
  cases level r.old cs with
  | error => exact .error ⟨rfl, .refl _⟩
  | ok indentation => exact h.bind fun _ _ same => .ok (congrArg (openLine number indentation) same)

/-- From inside a physical line on. Behind a line break both texts are at the beginning of a line
that measures the same. -/
theorem remainder (number : Nat) (h : Respaced r cs ds) :
    Alike (SameError r) Eq (Scan.remainder r.old number cs) (Scan.remainder r.new number ds) := by
  induction number, cs using Scan.remainder.induct generalizing ds with
  | case1 number =>
    cases h
    rw [remainder_nil, remainder_nil]
    exact .ok rfl
  | case2 number c cs fault faulty =>
    obtain ⟨ds, rfl, alike⟩ := h.step faulty nofun
    obtain ⟨fault', faulty', same⟩ := alike.error_of rfl
    rw [remainder_fault faulty, remainder_fault faulty']
    exact .error ⟨rfl, same⟩
  | case3 number c cs l rest lexeme ih =>
    obtain ⟨ds, rfl, alike⟩ := h.step lexeme (by simp)
    obtain ⟨⟨_, rest'⟩, lexeme', rfl, left⟩ := alike.ok_of rfl
    rw [remainder_lexeme lexeme, remainder_lexeme lexeme']
    exact (ih left).map fun _ _ same => congrArg (fun found => (l :: found.1, found.2)) same
  | case4 number c cs n rest blank ih =>
    obtain ⟨ds, rfl, alike⟩ := h.step blank (by simp)
    obtain ⟨⟨_, rest'⟩, blank', rfl, left⟩ := alike.ok_of rfl
    rw [remainder_blank blank, remainder_blank blank']
    exact ih left
  | case5 number c cs rest break_ ih =>
    obtain ⟨-, -, -, rfl | ⟨-, other⟩, -⟩ := next_advances break_
    · obtain rfl : cs = rest := (Prod.mk.inj (Except.ok.inj break_)).2
      rw [remainder_newline break_]
      cases h with
      | cons ne => exact absurd rfl ne
      | newline measure behind =>
        rw [remainder_newline (next_newline _)]
        exact (linesFrom _ measure (ih behind)).map fun _ _ same => congrArg _ same
      | return_ _ measure behind =>
        rw [remainder_blank (next_white _ (.inr (.inr rfl))), remainder_newline (next_newline _)]
        exact (linesFrom _ measure (ih behind)).map fun _ _ same => congrArg _ same
    · exact absurd rfl other

end Respaced

end Scan

end Offside
