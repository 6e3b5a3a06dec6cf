import Mathlib
import Offside.Proofs.Expr.Unambiguous
import Offside.Proofs.Module.Depth
import Offside.Proofs.Module.Named

/-!
The rows of a rendered module and what they say. Each row but the first is the header of a
statement, of a class or of a function, or the word between two bodies, and it says which: by its
first lexeme, and then by what the lexeme calls for.
-/

namespace Offside

open Scan

namespace Stmt

def header : Stmt → Header
  | expr e _ => .expression e
  | return_ e _ => .return_ e
  | if_ condition _ _ | ifElse condition _ _ _ => .if_ condition
  | foreach item container _ _ => .foreach item container
  | for_ init condition step _ _ => .for_ init condition step
  | while_ condition _ _ => .while_ condition

end Stmt

def named (x : String) : Expr := .ident ⟨x, .none⟩

theorem named_text (x : String) : (named x).text = x :=
  String.empty_append

theorem IsName.spelled {x : String} (h : IsName x) : (named x).Spelled :=
  List.forall_mem_singleton.2 (.name h.word fun _ => h.free)

namespace Header

/-- The text of the row. No row says that the body of an else-if line follows. -/
def row : Header → String
  | class_ x => " ".intercalate ["class", x]
  | function x arguments => " ".intercalate ("function" :: x :: arguments)
  | if_ c | elseIf c => "if " ++ c.text
  | else_ => "else"
  | while_ c => "while " ++ c.text
  | for_ init c step => "for " ++ init.text ++ ", " ++ c.text ++ ", " ++ step.text
  | foreach item c => "foreach " ++ item.text ++ " in " ++ c.text
  | return_ e => "return " ++ e.text
  | expression e => e.text

def Spelled : Header → Prop
  | class_ x => IsName x
  | function x arguments => ∀ y ∈ x :: arguments, IsName y
  | if_ c | while_ c | return_ c | expression c => c.Spelled
  | elseIf _ => False
  | else_ => True
  | for_ init c step => init.Spelled ∧ c.Spelled ∧ step.Spelled
  | foreach item c => (Expr.ident item).Spelled ∧ c.Spelled

/-- The word that a row begins with, if it is not that of an expression. -/
def keyword? : Header → Option Keyword
  | class_ _ => some .class_
  | function .. => some .function
  | if_ _ | elseIf _ => some .if_
  | else_ => some .else_
  | while_ _ => some .while_
  | for_ .. => some .for_
  | foreach .. => some .foreach
  | return_ _ => some .return_
  | expression _ => none

def tail : Header → List Char
  | class_ x => Expr.separated [' '] [named x]
  | function x arguments => Expr.separated [' '] ((x :: arguments).map named)
  | if_ c | elseIf c | while_ c | return_ c => ' ' :: c.text.toList
  | else_ => []
  | for_ init c step => ' ' :: (init.text.toList ++ (',' :: ' ' :: (c.text.toList ++
      (',' :: ' ' :: step.text.toList))))
  | foreach item c => ' ' :: ((Expr.ident item).text.toList ++
      (' ' :: 'i' :: 'n' :: ' ' :: c.text.toList))
  | expression e => e.behind

variable {h h' : Header} {k : Keyword} {u v : List Char}

theorem intercalate_named (w : String) (xs : List String) :
    (" ".intercalate (w :: xs)).toList = w.toList ++ Expr.separated [' '] (xs.map named) := by
  rw [String.toList_intercalate]
  induction xs generalizing w with
  | nil => simp [Expr.separated]
  | cons x xs ih =>
    rw [List.map_cons, List.map_cons, List.intercalate_cons_cons, ← List.map_cons, ih, List.map_cons,
      Expr.separated_cons, named_text]
    simp

theorem row_toList (lead : h.keyword? = some k) : h.row.toList = k.text.toList ++ h.tail := by
  cases h with
  | expression => cases lead
  | class_ x =>
    cases lead
    exact intercalate_named "class" [x]
  | function x arguments =>
    cases lead
    exact intercalate_named "function" (x :: arguments)
  | _ =>
    cases lead
    simp [row, tail, Keyword.text, Expr.text]

theorem ends_tail (lead : h.keyword? = some k) (ends : Ends u) : Ends (h.tail ++ u) := by
  cases h with
  | expression => cases lead
  | else_ => exact ends
  | _ => exact .cons (by decide) _

theorem next_row (lead : h.keyword? = some k) (ends : Ends u) : ∃ c cs, h.row.toList ++ u = c :: cs ∧
    next c cs = .ok (.lexeme ⟨.keyword k, none⟩, h.tail ++ u) := by
  obtain ⟨c, cs, text, reads⟩ := next_text (.fixed (k := .keyword k) nofun nofun)
  have shown : k.text.toList = c :: cs := text
  exact ⟨c, cs ++ (h.tail ++ u), by rw [row_toList lead, shown, List.append_assoc, List.cons_append],
    reads _ (ends_tail lead ends)⟩

theorem expression_of_keyword? (lead : h.keyword? = none) : ∃ e, h = expression e := by
  cases h with
  | expression e => exact ⟨e, rfl⟩
  | _ => cases lead

theorem opening_ne_keyword (e : Expr) (k : Keyword) : e.opening ≠ ⟨.keyword k, none⟩ := by
  cases e <;> exact nofun

theorem names_inj {xs ys : List String} (names : ∀ x ∈ xs, IsName x) (names' : ∀ y ∈ ys, IsName y)
    (same : Expr.separated [' '] (xs.map named) ++ '\n' :: u =
      Expr.separated [' '] (ys.map named) ++ '\n' :: v) : xs = ys ∧ u = v := by
  have spelled {xs : List String} (names : ∀ x ∈ xs, IsName x) : ∀ e ∈ xs.map named, e.Spelled :=
    List.forall_mem_map.2 fun x mem => (names x mem).spelled
  obtain ⟨all, rest⟩ := Expr.separated_inj (by decide) (by decide) (by decide)
    (fun e _ => e.decodes) (spelled names) (spelled names') same
  have injective : Function.Injective named := fun x y eq => by
    cases eq
    rfl
  exact ⟨injective.list_map all, rest⟩

theorem expression_inj {e e' : Expr} {x : Char} (after : x ∈ separators)
    (spelled : e.Spelled) (spelled' : e'.Spelled)
    (same : e.text.toList ++ x :: u = e'.text.toList ++ x :: v) : e = e' ∧ u = v := by
  have ends (u : List Char) : Ends (x :: u) := .cons after u
  obtain ⟨rfl, rest⟩ := e.decodes e' _ _ spelled spelled' (ends u) (ends v) same
  exact ⟨rfl, (List.cons.inj rest).2⟩

theorem tail_inj (spelled : h.Spelled) (spelled' : h'.Spelled) (lead : h.keyword? = some k)
    (lead' : h'.keyword? = some k) (same : h.tail ++ '\n' :: u = h'.tail ++ '\n' :: v) :
    h = h' ∧ u = v := by
  cases h with
  | expression => cases lead
  | elseIf => cases spelled
  | class_ x =>
    cases lead
    cases h' with
    | class_ y =>
      obtain ⟨all, rfl⟩ := names_inj (List.forall_mem_singleton.2 spelled : ∀ z ∈ [x], IsName z)
        (List.forall_mem_singleton.2 spelled' : ∀ z ∈ [y], IsName z) same
      cases all
      exact ⟨rfl, rfl⟩
    | _ => cases lead'
  | function x arguments =>
    cases lead
    cases h' with
    | function y arguments' =>
      obtain ⟨all, rfl⟩ := names_inj spelled spelled' same
      cases all
      exact ⟨rfl, rfl⟩
    | _ => cases lead'
  | if_ c =>
    cases lead
    cases h' with
    | if_ c' =>
      obtain ⟨rfl, rfl⟩ := expression_inj (by decide) spelled spelled' (List.cons.inj same).2
      exact ⟨rfl, rfl⟩
    | elseIf => cases spelled'
    | _ => cases lead'
  | while_ c =>
    cases lead
    cases h' with
    | while_ c' =>
      obtain ⟨rfl, rfl⟩ := expression_inj (by decide) spelled spelled' (List.cons.inj same).2
      exact ⟨rfl, rfl⟩
    | _ => cases lead'
  | return_ c =>
    cases lead
    cases h' with
    | return_ c' =>
      obtain ⟨rfl, rfl⟩ := expression_inj (by decide) spelled spelled' (List.cons.inj same).2
      exact ⟨rfl, rfl⟩
    | _ => cases lead'
  | else_ =>
    cases lead
    cases h' with
    | else_ => exact ⟨rfl, (List.cons.inj same).2⟩
    | _ => cases lead'
  | for_ a b c =>
    cases lead
    cases h' with
    | for_ a' b' c' =>
      obtain ⟨ha, hb, hc⟩ := spelled
      obtain ⟨ha', hb', hc'⟩ := spelled'
      simp only [tail, List.cons_append, List.append_assoc] at same
      obtain ⟨rfl, behind⟩ := expression_inj (by decide) ha ha' (List.cons.inj same).2
      obtain ⟨rfl, last⟩ := expression_inj (by decide) hb hb' (List.cons.inj behind).2
      obtain ⟨rfl, rfl⟩ := expression_inj (by decide) hc hc' (List.cons.inj last).2
      exact ⟨rfl, rfl⟩
    | _ => cases lead'
  | foreach item c =>
    cases lead
    cases h' with
    | foreach item' c' =>
      obtain ⟨hi, hc⟩ := spelled
      obtain ⟨hi', hc'⟩ := spelled'
      simp only [tail, List.cons_append, List.append_assoc] at same
      obtain ⟨eq, rest⟩ := expression_inj (by decide) hi hi' (List.cons.inj same).2
      cases eq
      simp only [List.cons.injEq, true_and] at rest
      obtain ⟨rfl, rfl⟩ := expression_inj (by decide) hc hc' rest
      exact ⟨rfl, rfl⟩
    | _ => cases lead'

theorem expression_ne_row {e : Expr} (spelled : e.Spelled) (lead : h.keyword? = some k) :
    e.text.toList ++ '\n' :: u ≠ h.row.toList ++ '\n' :: v := by
  intro same
  have ends (u : List Char) : Ends ('\n' :: u) := .cons (by decide) u
  obtain ⟨c, cs, text, reads⟩ := Expr.next_opening spelled (ends u)
  obtain ⟨c', cs', text', reads'⟩ := next_row lead (ends v)
  cases text.symm.trans (same.trans text')
  have both := reads.symm.trans reads'
  simp only [Except.ok.injEq, Prod.mk.injEq, Item.lexeme.injEq] at both
  exact opening_ne_keyword e k both.1

/-- A row leaves no doubt about its header, and ends with its line. -/
theorem row_inj (spelled : h.Spelled) (spelled' : h'.Spelled)
    (same : h.row.toList ++ '\n' :: u = h'.row.toList ++ '\n' :: v) : h = h' ∧ u = v := by
  cases lead : h.keyword? with
  | none =>
    obtain ⟨e, rfl⟩ := expression_of_keyword? lead
    cases lead' : h'.keyword? with
    | none =>
      obtain ⟨e', rfl⟩ := expression_of_keyword? lead'
      obtain ⟨rfl, rfl⟩ := expression_inj (by decide) spelled spelled' same
      exact ⟨rfl, rfl⟩
    | some k => exact absurd same (expression_ne_row spelled lead')
  | some k =>
    cases lead' : h'.keyword? with
    | none =>
      obtain ⟨e', rfl⟩ := expression_of_keyword? lead'
      exact absurd same.symm (expression_ne_row spelled' lead)
    | some k' =>
      have ends (u : List Char) : Ends ('\n' :: u) := .cons (by decide) u
      obtain ⟨c, cs, text, reads⟩ := next_row lead (ends u)
      obtain ⟨c', cs', text', reads'⟩ := next_row lead' (ends v)
      cases text.symm.trans (same.trans text')
      have both := reads.symm.trans reads'
      simp only [Except.ok.injEq, Prod.mk.injEq, Item.lexeme.injEq, Lexeme.mk.injEq,
        Kind.keyword.injEq, and_true] at both
      obtain ⟨rfl, rest⟩ := both
      exact tail_inj spelled spelled' lead lead' rest

end Header

end Offside
