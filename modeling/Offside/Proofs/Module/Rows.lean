import Mathlib
import Offside.Proofs.Module.Heading
import Offside.Proofs.Module.Renumber

/-!
Bodies and their rows. The depth of a row tells where a body ends, and its header what comes next:
another statement, the word between two bodies, or a declaration. So the rows of a body tell the
body, up to the lines that its statements come from.
-/

namespace Offside

open Scan

namespace Row

def Spelled (r : Row) : Prop :=
  ∃ h : Header, h.Spelled ∧ r.text = h.row

variable {r r' : Row} {rows rows' : List Row} {h h' : Header} {u v : List Char}

theorem header_unique (spelled : h.Spelled) (spelled' : h'.Spelled) (same : h.row = h'.row) :
    h = h' :=
  (Header.row_inj (u := []) (v := []) spelled spelled' (by rw [same])).1

theorem render_toList (r : Row) (u : List Char) : r.render.toList ++ u =
    List.replicate (2 * r.depth) ' ' ++ (r.text.toList ++ '\n' :: u) := by
  simp [render]

theorem row_ne_blank (spelled : h.Spelled) : h.row.toList ++ '\n' :: u ≠ ' ' :: v := by
  intro eq
  have ends : Ends ('\n' :: u) := .cons (by decide) u
  have blank {c : Char} {cs rest : List Char} {l : Lexeme} (text : ' ' :: v = c :: cs)
      (reads : next c cs = .ok (.lexeme l, rest)) : False := by
    cases text
    cases reads
  cases lead : h.keyword? with
  | none =>
    obtain ⟨e, rfl⟩ := Header.expression_of_keyword? lead
    obtain ⟨c, cs, text, reads⟩ := Expr.next_opening spelled ends
    exact blank (eq.symm.trans text) reads
  | some k =>
    obtain ⟨c, cs, text, reads⟩ := Header.next_row lead ends
    exact blank (eq.symm.trans text) reads

theorem replicate_inj {m n : Nat} (spelled : h.Spelled) (spelled' : h'.Spelled)
    (same : List.replicate m ' ' ++ (h.row.toList ++ '\n' :: u) =
      List.replicate n ' ' ++ (h'.row.toList ++ '\n' :: v)) : m = n := by
  induction m generalizing n with
  | zero =>
    cases n with
    | zero => rfl
    | succ n => exact absurd same (row_ne_blank spelled)
  | succ m ih =>
    cases n with
    | zero => exact absurd same.symm (row_ne_blank spelled')
    | succ n => rw [ih (List.cons.inj same).2]

theorem render_inj (spelled : r.Spelled) (spelled' : r'.Spelled)
    (same : r.render.toList ++ u = r'.render.toList ++ v) : r = r' ∧ u = v := by
  obtain ⟨h, hs, text⟩ := spelled
  obtain ⟨h', hs', text'⟩ := spelled'
  rw [render_toList, render_toList, text, text'] at same
  have depth := replicate_inj hs hs' same
  rw [depth, List.append_cancel_left_eq] at same
  obtain ⟨rfl, rest⟩ := Header.row_inj hs hs' same
  obtain ⟨d, t⟩ := r
  obtain ⟨d', t'⟩ := r'
  cases text.trans text'.symm
  have same : d = d' := Nat.eq_of_mul_eq_mul_left (by decide) depth
  exact ⟨by rw [same], rest⟩

theorem renderAll_toList (rows : List Row) :
    (renderAll rows).toList = rows.flatMap fun r => r.render.toList := by
  simp [renderAll, String.toList_join, List.flatMap_map]

theorem renderAll_inj (spelled : ∀ r ∈ rows, r.Spelled) (spelled' : ∀ r ∈ rows', r.Spelled)
    (same : renderAll rows = renderAll rows') : rows = rows' := by
  rw [← String.toList_inj, renderAll_toList, renderAll_toList] at same
  have ne {r : Row} (u : List Char) : r.render.toList ++ u ≠ [] := by
    rw [render_toList]
    simp
  induction rows generalizing rows' with
  | nil =>
    cases rows' with
    | nil => rfl
    | cons r' rows' => exact absurd same.symm (ne _)
  | cons r rows ih =>
    cases rows' with
    | nil => exact absurd same (ne _)
    | cons r' rows' =>
      rw [List.forall_mem_cons] at spelled spelled'
      obtain ⟨rfl, rest⟩ := render_inj spelled.1 spelled'.1 same
      rw [ih spelled.2 spelled'.2 rest]

end Row

namespace Stmt

def body : Stmt → List Stmt
  | expr .. | return_ .. => []
  | if_ _ body _ | ifElse _ body _ _ | foreach _ _ body _ | for_ _ _ _ body _ | while_ _ body _ =>
    body

def otherwise? : Stmt → Option (List Stmt)
  | ifElse _ _ otherwise _ => some otherwise
  | _ => none

def Spelled (body : List Stmt) : Prop :=
  Throughout (fun _ s => s.header.Spelled) body

def ofRows : Header → List Stmt → Option (List Stmt) → Stmt
  | .expression e, _, _ => .expr e 0
  | .return_ e, _, _ => .return_ e 0
  | .if_ c, body, none => .if_ c body 0
  | .if_ c, body, some otherwise => .ifElse c body otherwise 0
  | .foreach item c, body, _ => .foreach item c body 0
  | .for_ init c step, body, _ => .for_ init c step body 0
  | .while_ c, body, _ => .while_ c body 0
  | _, _, _ => default

def otherwiseRows (depth : Nat) : Option (List Stmt) → List Row
  | none => []
  | some otherwise => ⟨depth, Header.else_.row⟩ :: bodyRows (depth + 1) otherwise

variable {s s' : Stmt} {a b : List Stmt} {d : Nat} {u v : List Row}

theorem head_eq_row (s : Stmt) : s.head = s.header.row := by
  cases s <;> rfl

theorem inner_eq (s : Stmt) : s.inner = s.body ++ s.otherwise?.getD [] := by
  cases s <;> simp [inner, body, otherwise?]

theorem rows_eq (d : Nat) (s : Stmt) : rows d s =
    ⟨d, s.header.row⟩ :: (bodyRows (d + 1) s.body ++ otherwiseRows d s.otherwise?) := by
  rw [← head_eq_row]
  cases s <;> simp [rows, body, otherwise?, otherwiseRows, bodyRows, Header.row]

theorem renumber_eq (s : Stmt) : s.renumber (fun _ => 0) =
    ofRows s.header (renumberAll (fun _ => 0) s.body)
      (s.otherwise?.map (renumberAll fun _ => 0)) := by
  cases s <;> rfl

theorem sizeOf_body (s : Stmt) : sizeOf s.body < sizeOf s := by
  have pos (e : Expr) : 0 < sizeOf e := by cases e <;> simp
  cases s with
  | expr e | return_ e =>
    have := pos e
    simp [body]
    omega
  | _ =>
    simp [body]
    omega

theorem sizeOf_otherwise (h : s.otherwise? = some a) : sizeOf a < sizeOf s := by
  cases s <;> cases h
  simp
  omega

theorem Spelled.append (ha : Spelled a) (hb : Spelled b) : Spelled (a ++ b) :=
  Throughout.append ha hb

theorem Spelled.left (h : Spelled (a ++ b)) : Spelled a := by
  intro n s inside
  cases inside with
  | here mem => exact h _ _ (.here (List.mem_append_left _ mem))
  | deeper mem inside => exact h _ _ (.deeper (List.mem_append_left _ mem) inside)

theorem Spelled.right (h : Spelled (a ++ b)) : Spelled b := by
  intro n s inside
  cases inside with
  | here mem => exact h _ _ (.here (List.mem_append_right _ mem))
  | deeper mem inside => exact h _ _ (.deeper (List.mem_append_right _ mem) inside)

theorem spelled_cons : Spelled (s :: a) ↔ s.header.Spelled ∧ Spelled s.body ∧
    (∀ o ∈ s.otherwise?, Spelled o) ∧ Spelled a := by
  constructor
  · intro h
    have inner : Spelled s.inner := fun n x inside => h (n + 1) x (.deeper List.mem_cons_self inside)
    rw [inner_eq] at inner
    refine ⟨h 0 s (.here List.mem_cons_self), inner.left, fun o ho => ?_, Spelled.right (a := [s]) h⟩
    rw [Option.mem_def.1 ho] at inner
    exact inner.right
  · rintro ⟨own, body, otherwise, behind⟩
    have inner : Spelled s.inner := by
      rw [inner_eq]
      refine body.append ?_
      cases eq : s.otherwise? with
      | none => exact Throughout.nil
      | some o => exact otherwise o eq
    have first : Spelled [s] := Throughout.of_inner own inner
    exact first.append behind

theorem bodyRows_spelled {a : List Stmt} (d : Nat) (spelled : Spelled a) :
    ∀ r ∈ bodyRows d a, r.Spelled := by
  match a with
  | [] => exact List.forall_mem_nil _
  | s :: a =>
    obtain ⟨own, body, otherwise, rest⟩ := spelled_cons.1 spelled
    have bodies := bodyRows_spelled (d + 1) body
    have others : ∀ r ∈ otherwiseRows d s.otherwise?, r.Spelled := by
      cases eq : s.otherwise? with
      | none => exact List.forall_mem_nil _
      | some o =>
        have smaller := sizeOf_otherwise eq
        exact List.forall_mem_cons.2
          ⟨⟨.else_, trivial, rfl⟩, bodyRows_spelled (d + 1) (otherwise o eq)⟩
    have behind := bodyRows_spelled d rest
    rw [bodyRows, rows_eq]
    exact List.forall_mem_append.2 ⟨List.forall_mem_cons.2 ⟨⟨_, own, rfl⟩,
      List.forall_mem_append.2 ⟨bodies, others⟩⟩, behind⟩
termination_by sizeOf a
decreasing_by
  · have := sizeOf_body s
    simp only [List.cons.sizeOf_spec]
    omega
  · simp only [List.cons.sizeOf_spec]
    omega
  · simp only [List.cons.sizeOf_spec]
    omega

/-- What may follow a body: a row further out, or a declaration beside it. -/
def Closes (d : Nat) (u : List Row) : Prop :=
  ∀ r ∈ u.head?, r.depth < d ∨
    r.depth = d ∧ ∃ h : Header, h.Spelled ∧ h.role.declares ∧ r.text = h.row

theorem role_header (s : Stmt) : s.header.role.declares = false ∧ s.header ≠ .else_ := by
  cases s <;> exact ⟨rfl, nofun⟩

theorem head?_bodyRows (s : Stmt) (a : List Stmt) (u : List Row) :
    (bodyRows d (s :: a) ++ u).head? = some ⟨d, s.header.row⟩ := by
  rw [bodyRows, rows_eq]
  rfl

theorem Closes.not_body (h : Closes d (bodyRows d (s :: a) ++ u)) (spelled : s.header.Spelled) :
    False := by
  rcases h _ (head?_bodyRows s a u) with less | ⟨-, hd, spelled', declares, same⟩
  · exact Nat.lt_irrefl _ less
  · rw [← Row.header_unique spelled spelled' same, (role_header s).1] at declares
    cases declares

theorem Closes.behind (h : Closes d u) (spelled : Spelled a) : ∀ r ∈ (bodyRows d a ++ u).head?,
    r.depth ≤ d ∧ r ≠ ⟨d, Header.else_.row⟩ := by
  cases a with
  | nil =>
    intro r mem
    rcases h r mem with less | ⟨same, hd, spelled', declares, text⟩
    · refine ⟨Nat.le_of_lt less, ?_⟩
      rintro rfl
      exact Nat.lt_irrefl _ less
    · refine ⟨Nat.le_of_eq same, ?_⟩
      rintro rfl
      rw [Row.header_unique spelled' (show Header.else_.Spelled from trivial) text.symm] at declares
      cases declares
  | cons s a =>
    rw [head?_bodyRows]
    rintro r ⟨⟩
    refine ⟨Nat.le_refl d, fun same => ?_⟩
    have own := (spelled_cons.1 spelled).1
    exact (role_header s).2 (Row.header_unique own trivial (congrArg Row.text same))

theorem closes_succ (h : ∀ r ∈ u.head?, r.depth ≤ d) : Closes (d + 1) u :=
  fun r mem => .inl (Nat.lt_succ_of_le (h r mem))

theorem closes_otherwise (h : ∀ r ∈ u.head?, r.depth ≤ d) (o : Option (List Stmt)) :
    Closes (d + 1) (otherwiseRows d o ++ u) := by
  cases o with
  | none => exact closes_succ h
  | some o =>
    refine closes_succ ?_
    rintro r ⟨⟩
    exact Nat.le_refl d

theorem otherwiseRows_inj {o o' : Option (List Stmt)}
    (behind : ∀ r ∈ u.head?, r ≠ ⟨d, Header.else_.row⟩)
    (behind' : ∀ r ∈ v.head?, r ≠ ⟨d, Header.else_.row⟩)
    (same : otherwiseRows d o ++ u = otherwiseRows d o' ++ v) :
    o = none ∧ o' = none ∧ u = v ∨ ∃ a b, o = some a ∧ o' = some b ∧
      bodyRows (d + 1) a ++ u = bodyRows (d + 1) b ++ v := by
  cases o with
  | none =>
    cases o' with
    | none => exact .inl ⟨rfl, rfl, same⟩
    | some b =>
      have front : u.head? = some ⟨d, Header.else_.row⟩ := congrArg List.head? same
      exact absurd rfl (behind _ front)
  | some a =>
    cases o' with
    | none =>
      have front : v.head? = some ⟨d, Header.else_.row⟩ := congrArg List.head? same.symm
      exact absurd rfl (behind' _ front)
    | some b => exact .inr ⟨a, b, rfl, rfl, (List.cons.inj same).2⟩

/-- On the statements: the rows tell the header, the bodies one after the other, and the rest. -/
theorem bodyRows_inj {a b : List Stmt} {d : Nat} {u v : List Row} (spelled : Spelled a)
    (spelled' : Spelled b) (closes : Closes d u) (closes' : Closes d v)
    (same : bodyRows d a ++ u = bodyRows d b ++ v) :
    renumberAll (fun _ => 0) a = renumberAll (fun _ => 0) b ∧ u = v := by
  match a, b with
  | [], [] => exact ⟨rfl, same⟩
  | [], s' :: b =>
    rw [show u = bodyRows d (s' :: b) ++ v from same] at closes
    exact (closes.not_body (spelled_cons.1 spelled').1).elim
  | s :: a, [] =>
    rw [show v = bodyRows d (s :: a) ++ u from same.symm] at closes'
    exact (closes'.not_body (spelled_cons.1 spelled).1).elim
  | s :: a, s' :: b =>
    obtain ⟨own, body, otherwise, rest⟩ := spelled_cons.1 spelled
    obtain ⟨own', body', otherwise', rest'⟩ := spelled_cons.1 spelled'
    have behind := closes.behind rest
    have behind' := closes'.behind rest'
    simp only [bodyRows, rows_eq, List.cons_append, List.append_assoc, List.cons.injEq,
      Row.mk.injEq, true_and] at same
    obtain ⟨head, same⟩ := same
    have header := Row.header_unique own own' head
    obtain ⟨bodies, same⟩ := bodyRows_inj body body'
      (closes_otherwise (fun r mem => (behind r mem).1) _)
      (closes_otherwise (fun r mem => (behind' r mem).1) _) same
    have both : s.otherwise?.map (renumberAll fun _ => 0) =
        s'.otherwise?.map (renumberAll fun _ => 0) ∧ bodyRows d a ++ u = bodyRows d b ++ v := by
      rcases otherwiseRows_inj (fun r mem => (behind r mem).2) (fun r mem => (behind' r mem).2) same
        with ⟨eq, eq', same⟩ | ⟨o, o', eq, eq', same⟩
      · rw [eq, eq']
        exact ⟨rfl, same⟩
      · have smaller := sizeOf_otherwise eq
        obtain ⟨all, same⟩ := bodyRows_inj (otherwise o eq) (otherwise' o' eq')
          (closes_succ fun r mem => (behind r mem).1) (closes_succ fun r mem => (behind' r mem).1) same
        rw [eq, eq']
        exact ⟨congrArg some all, same⟩
    obtain ⟨all, rest⟩ := bodyRows_inj rest rest' closes closes' both.2
    refine ⟨?_, rest⟩
    rw [renumberAll, renumberAll, renumber_eq s, renumber_eq s', header, bodies, both.1, all]
termination_by sizeOf a
decreasing_by
  · have := sizeOf_body s
    simp only [List.cons.sizeOf_spec]
    omega
  · simp only [List.cons.sizeOf_spec]
    omega
  · simp only [List.cons.sizeOf_spec]
    omega

end Stmt

end Offside
