import Offside.Proofs.Expr.Leaves
import Offside.Proofs.Scan.RoundTrip

/-!
The text of an expression says what the expression is, and where the text ends. The first lexeme of
the text tells a leaf from an array and from a form in brackets; the word of a form, together with
the number of its parts, tells the operator.
-/

namespace Offside

open Scan

/-- At the end of the text, or in front of a character that goes on with no lexeme. -/
def Ends (u : List Char) : Prop :=
  ∀ d ∈ u.head?, d ∈ separators

theorem Ends.cons {d : Char} (h : d ∈ separators) (u : List Char) : Ends (d :: u) := by
  rintro _ ⟨⟩
  exact h

theorem Ends.follows {u : List Char} (h : Ends u) : Follows [] u := by
  cases u with
  | nil => exact .inl rfl
  | cons d u => exact .inr ⟨rfl, d, h d rfl, rfl⟩

theorem Scan.next_text {l : Lexeme} (h : l.WellShaped) : ∃ c cs, l.text.toList = c :: cs ∧
    ∀ u, Ends u → next c (cs ++ u) = .ok (.lexeme l, u) := by
  obtain ⟨c, cs, text, reads⟩ := readsAs_text h
  have alone := reads [] nofun
  obtain ⟨read, eq, -, -, again⟩ := next_advances alone
  rw [List.append_nil, List.append_nil] at eq
  subst eq
  refine ⟨c, cs, text, fun u ends => again u ends.follows fun semicolon => ?_⟩
  subst semicolon
  obtain ⟨_, -, eq⟩ := map_eq_ok.1 alone
  cases eq

theorem Scan.next_openBracket (cs : List Char) :
    next '(' cs = .ok (.lexeme ⟨.openBracket, none⟩, cs) :=
  next_symbol cs (by decide) rfl

theorem Scan.next_openBrace (cs : List Char) :
    next '\x7b' cs = .ok (.lexeme ⟨.openBrace, none⟩, cs) :=
  next_symbol cs (by decide) rfl

theorem UnaryOp.symbol_inj {op op' : UnaryOp} (h : op.symbol = op'.symbol) : op = op' := by
  revert h
  cases op <;> cases op' <;> decide

theorem BinaryOp.symbol_inj {op op' : BinaryOp} (h : op.symbol = op'.symbol) : op = op' := by
  revert h
  cases op <;> cases op' <;> decide

theorem UnaryOp.symbol_plain (op : UnaryOp) : ' ' ∉ op.symbol.toList ∧ op.symbol ≠ "call" := by
  cases op <;> decide

theorem BinaryOp.symbol_plain (op : BinaryOp) : ' ' ∉ op.symbol.toList ∧ op.symbol ≠ "call" := by
  cases op <;> decide

namespace Expr

/-- The leaves can be read back from their text. -/
def Spelled (e : Expr) : Prop :=
  ∀ l ∈ e.leaves, l.WellShaped

def parts : Expr → List Expr
  | literal _ | ident _ => []
  | unary _ argument => [argument]
  | binary _ left right => [left, right]
  | call callee arguments => callee :: arguments
  | array elements => elements

def word : Expr → String
  | unary op _ => op.symbol
  | binary op _ _ => op.symbol
  | call .. => "call"
  | _ => ""

def opening : Expr → Lexeme
  | literal l => .ofLiteral l
  | ident i => .ofIdent i
  | array _ => ⟨.openBrace, none⟩
  | _ => ⟨.openBracket, none⟩

def separated (sep : List Char) (es : List Expr) : List Char :=
  es.flatMap fun e => sep ++ e.text.toList

def behind : Expr → List Char
  | literal _ | ident _ => []
  | array [] => ['\x7d']
  | array (e :: es) => e.text.toList ++ separated [',', ' '] es ++ ['\x7d']
  | e => e.word.toList ++ separated [' '] e.parts ++ [')']

variable {e e' : Expr} {es : List Expr} {u v : List Char}

section Parts

theorem sizeOf_parts (mem : e ∈ e'.parts) : sizeOf e < sizeOf e' := by
  cases e' with
  | literal | ident => cases mem
  | unary =>
    rw [List.mem_singleton.1 mem]
    simp only [unary.sizeOf_spec]
    omega
  | binary =>
    simp only [parts, List.mem_cons, List.not_mem_nil, or_false] at mem
    rcases mem with rfl | rfl <;> simp only [binary.sizeOf_spec] <;> omega
  | call callee arguments =>
    have less := List.sizeOf_lt_of_mem mem
    simp only [parts, List.cons.sizeOf_spec, call.sizeOf_spec] at less ⊢
    omega
  | array elements =>
    have less := List.sizeOf_lt_of_mem mem
    simp only [parts, array.sizeOf_spec] at less ⊢
    omega

theorem induct_parts {P : Expr → Prop} (h : ∀ e : Expr, (∀ a ∈ e.parts, P a) → P e) (e : Expr) :
    P e :=
  h e fun a _ => induct_parts h a
termination_by sizeOf e
decreasing_by exact sizeOf_parts ‹_›

theorem Spelled.parts (h : e.Spelled) : ∀ a ∈ e.parts, a.Spelled := by
  intro a mem l leaf
  refine h l ?_
  cases e with
  | literal | ident => cases mem
  | unary => exact List.mem_singleton.1 mem ▸ leaf
  | binary =>
    simp only [Expr.parts, List.mem_cons, List.not_mem_nil, or_false] at mem
    rcases mem with rfl | rfl
    · exact List.mem_append_left _ leaf
    · exact List.mem_append_right _ leaf
  | call =>
    rw [leaves, leavesOf_eq_flatMap]
    rcases List.mem_cons.1 mem with rfl | mem
    · exact List.mem_append_left _ leaf
    · exact List.mem_append_right _ (List.mem_flatMap.2 ⟨a, mem, leaf⟩)
  | array =>
    rw [leaves, leavesOf_eq_flatMap]
    exact List.mem_flatMap.2 ⟨a, mem, leaf⟩

end Parts

section Opening

theorem form_toList (w : String) (es : List Expr) : (form (w :: texts es)).toList =
    '(' :: (w.toList ++ separated [' '] es ++ [')']) := by
  have words : (" ".intercalate (w :: texts es)).toList = w.toList ++ separated [' '] es := by
    rw [String.toList_intercalate]
    induction es generalizing w with
    | nil => simp [texts, separated]
    | cons e es ih =>
      rw [texts, List.map_cons, List.map_cons, List.intercalate_cons_cons, ← List.map_cons, ih]
      simp [separated]
  simp [form, words]

theorem array_toList (es : List Expr) :
    (array es).text.toList = '\x7b' :: (array es).behind := by
  have listed (e : Expr) (es : List Expr) : (", ".intercalate (texts (e :: es))).toList =
      e.text.toList ++ separated [',', ' '] es := by
    rw [String.toList_intercalate]
    induction es generalizing e with
    | nil => simp [texts, separated]
    | cons f es ih =>
      rw [texts, texts, List.map_cons, List.map_cons, List.intercalate_cons_cons,
        ← List.map_cons, ← texts, ih]
      simp [separated]
  cases es with
  | nil => rfl
  | cons e es => simp [text, behind, listed]

theorem next_opening (h : e.Spelled) (ends : Ends u) : ∃ c cs, e.text.toList ++ u = c :: cs ∧
    next c cs = .ok (.lexeme e.opening, e.behind ++ u) := by
  have leaf {l : Lexeme} (shaped : l.WellShaped) : ∃ c cs, l.text.toList ++ u = c :: cs ∧
      next c cs = .ok (.lexeme l, u) := by
    obtain ⟨c, cs, text, reads⟩ := next_text shaped
    exact ⟨c, cs ++ u, by rw [text, List.cons_append], reads u ends⟩
  cases e with
  | literal l => exact leaf (h _ List.mem_cons_self)
  | ident i => exact leaf (h _ List.mem_cons_self)
  | array es => exact ⟨_, _, by rw [array_toList, List.cons_append], next_openBrace _⟩
  | unary op a => exact ⟨_, _, congrArg (· ++ u) (form_toList op.symbol [a]), next_openBracket _⟩
  | binary op a b =>
    exact ⟨_, _, congrArg (· ++ u) (form_toList op.symbol [a, b]), next_openBracket _⟩
  | call c as => exact ⟨_, _, congrArg (· ++ u) (form_toList "call" (c :: as)), next_openBracket _⟩

end Opening

/-- The text of `e` leaves no doubt about `e`, nor about its own end. -/
def Decodes (e : Expr) : Prop :=
  ∀ e' u v, e.Spelled → e'.Spelled → Ends u → Ends v →
    e.text.toList ++ u = e'.text.toList ++ v → e = e' ∧ u = v

section Lists

variable {c d : Char} {sep : List Char} {es' : List Expr}

theorem separated_cons (sep : List Char) (e : Expr) (es : List Expr) :
    separated sep (e :: es) = sep ++ (e.text.toList ++ separated sep es) := by
  rw [separated, List.flatMap_cons, List.append_assoc]
  rfl

theorem ends_separated (hc : c ∈ separators) (hd : d ∈ separators) (es : List Expr)
    (u : List Char) : Ends (separated (c :: sep) es ++ d :: u) := by
  cases es with
  | nil => exact .cons hd u
  | cons e es => exact .cons hc _

theorem separated_inj (hc : c ∈ separators) (hd : d ∈ separators) (ne : c ≠ d)
    (decodes : ∀ e ∈ es, e.Decodes) (spelled : ∀ e ∈ es, e.Spelled)
    (spelled' : ∀ e ∈ es', e.Spelled)
    (same : separated (c :: sep) es ++ d :: u = separated (c :: sep) es' ++ d :: v) :
    es = es' ∧ u = v := by
  induction es generalizing es' with
  | nil =>
    cases es' with
    | nil => exact ⟨rfl, (List.cons.inj same).2⟩
    | cons e' es' => exact absurd (List.cons.inj same).1.symm ne
  | cons e es ih =>
    cases es' with
    | nil => exact absurd (List.cons.inj same).1 ne
    | cons e' es' =>
      rw [separated_cons, separated_cons, List.append_assoc, List.append_assoc, List.append_assoc,
        List.append_assoc, List.append_cancel_left_eq] at same
      rw [List.forall_mem_cons] at decodes spelled spelled'
      obtain ⟨rfl, behind⟩ := decodes.1 e' _ _ spelled.1 spelled'.1 (ends_separated hc hd es u)
        (ends_separated hc hd es' v) same
      obtain ⟨rfl, rfl⟩ := ih decodes.2 spelled.2 spelled'.2 behind
      exact ⟨rfl, rfl⟩

theorem text_ne_closeBrace (h : e.Spelled) (ends : Ends u) : e.text.toList ++ u ≠ '\x7d' :: v := by
  intro eq
  obtain ⟨c, cs, text, reads⟩ := next_opening h ends
  cases text.symm.trans eq
  have closing : next '\x7d' v = .ok (.lexeme ⟨.closeBrace, none⟩, v) :=
    next_symbol v (by decide) rfl
  have both := closing.symm.trans reads
  simp only [Except.ok.injEq, Prod.mk.injEq, Item.lexeme.injEq] at both
  cases e <;> cases both.1

theorem array_inj (decodes : ∀ e ∈ es, e.Decodes) (spelled : ∀ e ∈ es, e.Spelled)
    (spelled' : ∀ e ∈ es', e.Spelled) (same : (array es).behind ++ u = (array es').behind ++ v) :
    es = es' ∧ u = v := by
  have listed (e : Expr) (es : List Expr) (u : List Char) :
      separated [',', ' '] (e :: es) ++ '\x7d' :: u =
        [',', ' '] ++ ((array (e :: es)).behind ++ u) := by
    rw [separated_cons]
    simp [behind]
  have ends (es : List Expr) (u : List Char) : Ends (separated [',', ' '] es ++ '\x7d' :: u) :=
    ends_separated (by decide) (by decide) es u
  have listed' (e : Expr) (es : List Expr) (u : List Char) : (array (e :: es)).behind ++ u =
      e.text.toList ++ (separated [',', ' '] es ++ '\x7d' :: u) := by
    simp [behind]
  cases es with
  | nil =>
    cases es' with
    | nil => exact ⟨rfl, (List.cons.inj same).2⟩
    | cons e' es' =>
      rw [listed'] at same
      exact absurd same.symm (text_ne_closeBrace (List.forall_mem_cons.1 spelled').1 (ends es' v))
  | cons e es =>
    cases es' with
    | nil =>
      rw [listed'] at same
      exact absurd same (text_ne_closeBrace (List.forall_mem_cons.1 spelled).1 (ends es u))
    | cons e' es' =>
      have all : separated [',', ' '] (e :: es) ++ '\x7d' :: u =
          separated [',', ' '] (e' :: es') ++ '\x7d' :: v := by
        rw [listed, listed, same]
      exact separated_inj (by decide) (by decide) (by decide) decodes spelled spelled' all

end Lists

section Forms

theorem behind_form (form : e.opening = ⟨.openBracket, none⟩) :
    e.behind = e.word.toList ++ separated [' '] e.parts ++ [')'] ∧ e.parts ≠ [] ∧
      ' ' ∉ e.word.toList := by
  cases e with
  | literal | ident | array => cases form
  | unary op => exact ⟨rfl, nofun, op.symbol_plain.1⟩
  | binary op => exact ⟨rfl, nofun, op.symbol_plain.1⟩
  | call =>
    have free : ' ' ∉ ("call" : String).toList := by decide
    exact ⟨rfl, nofun, free⟩

theorem form_inj (form : e.opening = ⟨.openBracket, none⟩)
    (form' : e'.opening = ⟨.openBracket, none⟩) (word : e.word = e'.word)
    (parts : e.parts = e'.parts) : e = e' := by
  cases e with
  | literal | ident | array => cases form
  | unary op =>
    cases e' with
    | literal | ident | array => cases form'
    | unary op' =>
      cases parts
      rw [UnaryOp.symbol_inj word]
    | binary => cases parts
    | call => exact absurd word op.symbol_plain.2
  | binary op =>
    cases e' with
    | literal | ident | array => cases form'
    | unary => cases parts
    | binary op' =>
      cases parts
      rw [BinaryOp.symbol_inj word]
    | call => exact absurd word op.symbol_plain.2
  | call =>
    cases e' with
    | literal | ident | array => cases form'
    | unary op' => exact absurd word.symm op'.symbol_plain.2
    | binary op' => exact absurd word.symm op'.symbol_plain.2
    | call =>
      cases parts
      rfl

theorem word_inj {w w' : String} (free : ' ' ∉ w.toList) (free' : ' ' ∉ w'.toList)
    (same : w.toList ++ ' ' :: u = w'.toList ++ ' ' :: v) : w = w' ∧ u = v := by
  have run {w : String} (free : ' ' ∉ w.toList) (u : List Char) :
      (w.toList ++ ' ' :: u).takeWhile (· != ' ') = w.toList ∧
        (w.toList ++ ' ' :: u).dropWhile (· != ' ') = ' ' :: u := by
    have all : ∀ c ∈ w.toList, (c != ' ') = true := fun c mem => by
      simp only [bne_iff_ne]
      rintro rfl
      exact free mem
    exact ⟨takeWhile_run all (by simp), dropWhile_run all (by simp)⟩
  obtain ⟨front, back⟩ := run free u
  obtain ⟨front', back'⟩ := run free' v
  rw [same, front', String.toList_inj] at front
  rw [same, back'] at back
  exact ⟨front.symm, (List.cons.inj back).2.symm⟩

end Forms

/-- On the parts: the first lexemes agree, hence the words, the parts and what is behind. -/
theorem decodes (e : Expr) : e.Decodes := by
  induction e using induct_parts with
  | h e ih =>
    intro e' u v spelled spelled' ends ends' same
    obtain ⟨c, cs, text, reads⟩ := next_opening spelled ends
    obtain ⟨c', cs', text', reads'⟩ := next_opening spelled' ends'
    cases text.symm.trans (same.trans text')
    have both := reads.symm.trans reads'
    simp only [Except.ok.injEq, Prod.mk.injEq, Item.lexeme.injEq] at both
    obtain ⟨opening, rest⟩ := both
    by_cases form : e.opening = ⟨.openBracket, none⟩
    · have form' := opening.symm.trans form
      obtain ⟨shown, ne, free⟩ := behind_form form
      obtain ⟨shown', ne', free'⟩ := behind_form form'
      obtain ⟨a, as, parts⟩ := List.exists_cons_of_ne_nil ne
      obtain ⟨b, bs, parts'⟩ := List.exists_cons_of_ne_nil ne'
      rw [shown, shown', List.append_assoc, List.append_assoc, List.append_assoc,
        List.append_assoc] at rest
      have words : e.word = e'.word ∧
          separated [' '] e.parts ++ ([')'] ++ u) = separated [' '] e'.parts ++ ([')'] ++ v) := by
        rw [parts, parts'] at rest ⊢
        obtain ⟨word, behind⟩ := word_inj free free' rest
        exact ⟨word, congrArg _ behind⟩
      obtain ⟨all, rfl⟩ := separated_inj (by decide) (by decide) (by decide) ih spelled.parts
        spelled'.parts words.2
      exact ⟨form_inj form form' words.1 all, rfl⟩
    · cases e with
      | unary | binary | call => exact absurd rfl form
      | literal =>
        cases e' with
        | literal =>
          cases opening
          exact ⟨rfl, rest⟩
        | _ => cases opening
      | ident =>
        cases e' with
        | ident =>
          cases opening
          exact ⟨rfl, rest⟩
        | _ => cases opening
      | array es =>
        cases e' with
        | array es' =>
          obtain ⟨rfl, rfl⟩ := array_inj ih spelled.parts spelled'.parts rest
          exact ⟨rfl, rfl⟩
        | _ => cases opening

end Expr

end Offside
