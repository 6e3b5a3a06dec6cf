import Mathlib
import Offside.Proofs.Module.Rows
import Offside.Module

/-!
What a module holds, apart from the numbers of its symbols and lines, and that its rows tell it.
Variables have no rows: they are the arguments of the function that they are declared in, and stand
among the other declarations in the order of the names.
-/

namespace Offside

/-- Names, kinds, arguments and bodies, nested as the declarations are. -/
inductive Content
  | node (name : String) (kind : SymbolKind) (function : Option Function) (children : List Content)

namespace Content

def name : Content → String
  | node name _ _ _ => name

def argument (x : String) : Content := node x .variable_ none []

def Before (a b : Content) : Prop := a.name < b.name

instance : Std.Irrefl Before := ⟨fun a => lt_irrefl a.name⟩

instance : Std.Antisymm Before := ⟨fun _ _ h h' => absurd h' (lt_asymm h)⟩

end Content

namespace Outline

def symbol : Outline → Symbol
  | node _ s _ => s

def children : Outline → List Outline
  | node _ _ children => children

def isVariable (o : Outline) : Bool :=
  decide (o.symbol.kind = .variable_)

mutual

/-- The outline without the numbers of symbols and lines. -/
def content : Outline → Content
  | node _ s children =>
    .node s.name s.kind (s.function.map (Function.renumber fun _ => 0)) (contents children)

def contents : List Outline → List Content
  | [] => []
  | o :: os => o.content :: contents os

end

theorem contents_eq_map (os : List Outline) : contents os = os.map content := by
  induction os with
  | nil => rfl
  | cons o os ih => rw [contents, ih, List.map_cons]

def header (s : Symbol) : Header :=
  if s.kind = .class_ then .class_ s.name else .function s.name s.arguments

structure Legible (s : Symbol) : Prop where
  function : s.function.isSome ↔ s.kind = .function
  arguments : ∀ x ∈ s.arguments, IsName x
  body : Stmt.Spelled s.body

/-- In a scope the names are in their order, and the variables are the arguments. -/
structure Arranged (s : Symbol) (children : List Outline) : Prop where
  legible : Legible s
  sorted : (contents children).Pairwise Content.Before
  names : ∀ o ∈ children, IsName o.symbol.name
  bound : ∀ x, (∃ o ∈ children, o.isVariable ∧ o.symbol.name = x) ↔ x ∈ s.arguments
  leaf : ∀ o ∈ children, o.isVariable → o.children = []

inductive Tidy : Outline → Prop
  | node {id s children} : Arranged s children → (∀ o ∈ children, Tidy o) →
      Tidy (node id s children)

theorem Tidy.arranged {o : Outline} : Tidy o → Arranged o.symbol o.children
  | node arranged _ => arranged

theorem Tidy.inner {o : Outline} : Tidy o → ∀ c ∈ o.children, Tidy c
  | node _ inner => inner

variable {o o' : Outline} {s s' : Symbol} {os os' : List Outline} {d : Nat} {u v : List Row}

section Legible

variable (legible : Legible s)

include legible

theorem Legible.noFunction (other : s.kind ≠ .function) : s.function = none :=
  Option.not_isSome_iff_eq_none.1 fun some_ => other (legible.function.1 some_)

theorem Legible.noArguments (other : s.kind ≠ .function) : s.arguments = [] := by
  rw [Symbol.arguments, legible.noFunction other]
  rfl

theorem Legible.head_eq_row (shown : s.kind ≠ .variable_) : head s = (header s).row := by
  obtain ⟨x, kind, parent, children, function⟩ := s
  cases kind with
  | variable_ => exact absurd rfl shown
  | function => rfl
  | class_ =>
    have none_ := legible.noArguments nofun
    rw [head, none_]
    rfl

theorem Legible.spelled (name : IsName s.name) : (header s).Spelled := by
  unfold header
  split
  · exact name
  · exact List.forall_mem_cons.2 ⟨name, legible.arguments⟩

theorem Legible.same (legible' : Legible s') (shown : s.kind ≠ .variable_)
    (shown' : s'.kind ≠ .variable_) (head : header s = header s')
    (body : Stmt.renumberAll (fun _ => 0) s.body = Stmt.renumberAll (fun _ => 0) s'.body) :
    s.name = s'.name ∧ s.kind = s'.kind ∧ s.arguments = s'.arguments ∧
      s.function.map (Function.renumber fun _ => 0) =
        s'.function.map (Function.renumber fun _ => 0) := by
  obtain ⟨x, kind, parent, children, function⟩ := s
  obtain ⟨x', kind', parent', children', function'⟩ := s'
  cases kind with
  | variable_ => exact absurd rfl shown
  | class_ =>
    cases kind' with
    | variable_ => exact absurd rfl shown'
    | function => cases (head : Header.class_ x = .function ..)
    | class_ =>
      cases (head : Header.class_ x = .class_ x')
      obtain rfl : function = none := legible.noFunction nofun
      obtain rfl : function' = none := legible'.noFunction nofun
      exact ⟨rfl, rfl, rfl, rfl⟩
  | function =>
    cases kind' with
    | variable_ => exact absurd rfl shown'
    | class_ => cases (head : Header.function .. = .class_ x')
    | function =>
      obtain ⟨⟨arguments, body⟩, rfl⟩ := Option.isSome_iff_exists.1 (legible.function.2 rfl)
      obtain ⟨⟨arguments', body'⟩, rfl⟩ := Option.isSome_iff_exists.1 (legible'.function.2 rfl)
      cases (head : Header.function x arguments = .function x' arguments')
      exact ⟨rfl, rfl, rfl, congrArg (fun body => some (Function.mk arguments body)) body⟩

end Legible

theorem declares_header (s : Symbol) : (header s).role.declares := by
  unfold header
  split <;> rfl

theorem content_congr (name : o.symbol.name = o'.symbol.name)
    (kind : o.symbol.kind = o'.symbol.kind)
    (function : o.symbol.function.map (Function.renumber fun _ => 0) =
      o'.symbol.function.map (Function.renumber fun _ => 0))
    (children : contents o.children = contents o'.children) : o.content = o'.content := by
  obtain ⟨id, s, cs⟩ := o
  obtain ⟨id', s', cs'⟩ := o'
  rw [content, content, Content.node.injEq]
  exact ⟨name, kind, function, children⟩

theorem sizeOf_children (o : Outline) : sizeOf o.children < sizeOf o := by
  obtain ⟨id, s, cs⟩ := o
  simp only [children, node.sizeOf_spec]
  omega

section Rows

theorem rows_shown (shown : o.isVariable = false) (d : Nat) : o.rows d =
    ⟨d, head o.symbol⟩ ::
      (Stmt.bodyRows (d + 1) o.symbol.body ++ rowsAll (d + 1) o.children) := by
  obtain ⟨id, s, children⟩ := o
  exact if_neg (of_decide_eq_false shown)

theorem rows_variable (variable_ : o.isVariable) (d : Nat) : o.rows d = [] := by
  obtain ⟨id, s, children⟩ := o
  exact if_pos (of_decide_eq_true variable_)

theorem closes_rowsAll (tidy : ∀ o ∈ os, Tidy o) (names : ∀ o ∈ os, IsName o.symbol.name)
    (ends : ∀ r ∈ u.head?, r.depth < d) : Stmt.Closes d (rowsAll d os ++ u) := by
  induction os with
  | nil => exact fun r mem => .inl (ends r mem)
  | cons o os ih =>
    rw [List.forall_mem_cons] at tidy names
    rw [rowsAll]
    cases kind : o.isVariable with
    | true =>
      rw [rows_variable kind]
      exact ih tidy.2 names.2
    | false =>
      rw [rows_shown kind]
      rintro r ⟨⟩
      have legible := tidy.1.arranged.legible
      exact .inr ⟨rfl, header _, legible.spelled names.1, declares_header _,
        legible.head_eq_row (of_decide_eq_false kind)⟩

theorem content_of_variable (legible : Legible o.symbol) (variable_ : o.isVariable)
    (leaf : o.children = []) : o.content = .argument o.symbol.name := by
  obtain ⟨id, ⟨x, kind, parent, children, function⟩, inner⟩ := o
  obtain rfl : kind = .variable_ := of_decide_eq_true variable_
  obtain rfl : function = none := legible.noFunction nofun
  obtain rfl : inner = [] := leaf
  rfl

theorem Tidy.mem_contents {c : Content} (tidy : Tidy o) : c ∈ contents o.children ↔
    c ∈ contents (o.children.filter (!·.isVariable)) ∨
      ∃ x ∈ o.symbol.arguments, c = .argument x := by
  have argument {a : Outline} (mem : a ∈ o.children) (kind : a.isVariable) :
      a.content = .argument a.symbol.name :=
    content_of_variable (tidy.inner a mem).arranged.legible kind (tidy.arranged.leaf a mem kind)
  simp only [contents_eq_map, List.mem_map, List.mem_filter]
  constructor
  · rintro ⟨a, mem, rfl⟩
    cases kind : a.isVariable with
    | false => exact .inl ⟨a, ⟨mem, by rw [kind]; rfl⟩, rfl⟩
    | true => exact .inr ⟨_, (tidy.arranged.bound _).1 ⟨a, mem, kind, rfl⟩, argument mem kind⟩
  · rintro (⟨a, ⟨mem, -⟩, rfl⟩ | ⟨x, mem, rfl⟩)
    · exact ⟨a, mem, rfl⟩
    · obtain ⟨a, child, kind, rfl⟩ := (tidy.arranged.bound x).2 mem
      exact ⟨a, child, argument child kind⟩

theorem Tidy.contents_inj (tidy : Tidy o) (tidy' : Tidy o')
    (arguments : o.symbol.arguments = o'.symbol.arguments)
    (same : contents (o.children.filter (!·.isVariable)) =
      contents (o'.children.filter (!·.isVariable))) :
    contents o.children = contents o'.children := by
  refine tidy.arranged.sorted.eq_of_mem_iff tidy'.arranged.sorted fun c => ?_
  rw [tidy.mem_contents, tidy'.mem_contents, same, arguments]

theorem closes_succ_rowsAll (tidy : ∀ o ∈ os, Tidy o) (names : ∀ o ∈ os, IsName o.symbol.name)
    (ends : ∀ r ∈ u.head?, r.depth < d) : ∀ r ∈ (rowsAll d os ++ u).head?, r.depth < d + 1 := by
  intro r mem
  rcases closes_rowsAll tidy names ends r mem with less | ⟨same, -⟩
  · exact Nat.lt_succ_of_lt less
  · exact Nat.lt_succ_of_le (Nat.le_of_eq same)

theorem Tidy.rows_inj (tidy : Tidy o) (tidy' : Tidy o') (name : IsName o.symbol.name)
    (name' : IsName o'.symbol.name) (kind : o.isVariable = false) (kind' : o'.isVariable = false)
    (ends : ∀ r ∈ u.head?, r.depth < d + 1) (ends' : ∀ r ∈ v.head?, r.depth < d + 1)
    (same : o.rows d ++ u = o'.rows d ++ v) : header o.symbol = header o'.symbol ∧
      Stmt.renumberAll (fun _ => 0) o.symbol.body = Stmt.renumberAll (fun _ => 0) o'.symbol.body ∧
      rowsAll (d + 1) o.children ++ u = rowsAll (d + 1) o'.children ++ v := by
  have arranged := tidy.arranged
  have arranged' := tidy'.arranged
  have legible := arranged.legible
  have legible' := arranged'.legible
  have row := legible.head_eq_row (of_decide_eq_false kind)
  have row' := legible'.head_eq_row (of_decide_eq_false kind')
  simp only [rows_shown kind, rows_shown kind', List.cons_append, List.append_assoc,
    List.cons.injEq, Row.mk.injEq, true_and] at same
  obtain ⟨first, same⟩ := same
  have head := Row.header_unique (legible.spelled name) (legible'.spelled name')
    (row.symm.trans (first.trans row'))
  have body := Stmt.bodyRows_inj legible.body legible'.body
    (closes_rowsAll tidy.inner arranged.names ends)
    (closes_rowsAll tidy'.inner arranged'.names ends') same
  exact ⟨head, body⟩

theorem Tidy.content_eq (tidy : Tidy o) (tidy' : Tidy o') (kind : o.isVariable = false)
    (kind' : o'.isVariable = false) (head : header o.symbol = header o'.symbol)
    (body : Stmt.renumberAll (fun _ => 0) o.symbol.body =
      Stmt.renumberAll (fun _ => 0) o'.symbol.body)
    (nested : contents (o.children.filter (!·.isVariable)) =
      contents (o'.children.filter (!·.isVariable))) : o.content = o'.content := by
  obtain ⟨name, kinds, arguments, function⟩ := tidy.arranged.legible.same tidy'.arranged.legible
    (of_decide_eq_false kind) (of_decide_eq_false kind') head body
  exact content_congr name kinds function (tidy.contents_inj tidy' arguments nested)

theorem rowsAll_variable (variable_ : o.isVariable) : rowsAll d (o :: os) = rowsAll d os := by
  rw [rowsAll, rows_variable variable_]
  rfl

theorem filter_variable (variable_ : o.isVariable) :
    (o :: os).filter (!·.isVariable) = os.filter (!·.isVariable) :=
  List.filter_cons_of_neg (by simp [variable_])

theorem rowsAll_ne (kind : o.isVariable = false) (ends : ∀ r ∈ u.head?, r.depth < d) :
    u ≠ rowsAll d (o :: os) ++ v := by
  rintro rfl
  rw [rowsAll, rows_shown kind] at ends
  exact Nat.lt_irrefl d (ends _ rfl)

/-- On the declarations: the rows tell all of them but the variables. -/
theorem rowsAll_inj {os os' : List Outline} {d : Nat} {u v : List Row} (tidy : ∀ o ∈ os, Tidy o)
    (tidy' : ∀ o ∈ os', Tidy o) (names : ∀ o ∈ os, IsName o.symbol.name)
    (names' : ∀ o ∈ os', IsName o.symbol.name) (ends : ∀ r ∈ u.head?, r.depth < d)
    (ends' : ∀ r ∈ v.head?, r.depth < d) (same : rowsAll d os ++ u = rowsAll d os' ++ v) :
    contents (os.filter (!·.isVariable)) = contents (os'.filter (!·.isVariable)) ∧ u = v := by
  match os, os' with
  | [], [] => exact ⟨rfl, same⟩
  | o :: os, [] =>
    rw [List.forall_mem_cons] at tidy names
    cases kind : o.isVariable with
    | true =>
      rw [rowsAll_variable kind] at same
      rw [filter_variable kind]
      exact rowsAll_inj tidy.2 tidy' names.2 names' ends ends' same
    | false => exact absurd same.symm (rowsAll_ne kind ends')
  | [], o' :: os' =>
    rw [List.forall_mem_cons] at tidy' names'
    cases kind' : o'.isVariable with
    | true =>
      rw [rowsAll_variable kind'] at same
      rw [filter_variable kind']
      exact rowsAll_inj tidy tidy'.2 names names'.2 ends ends' same
    | false => exact absurd same (rowsAll_ne kind' ends)
  | o :: os, o' :: os' =>
    rw [List.forall_mem_cons] at tidy names tidy' names'
    cases kind : o.isVariable with
    | true =>
      rw [rowsAll_variable kind] at same
      rw [filter_variable kind]
      exact rowsAll_inj tidy.2 (List.forall_mem_cons.2 tidy') names.2
        (List.forall_mem_cons.2 names') ends ends' same
    | false =>
      cases kind' : o'.isVariable with
      | true =>
        rw [rowsAll_variable kind'] at same
        rw [filter_variable kind']
        exact rowsAll_inj (List.forall_mem_cons.2 tidy) tidy'.2 (List.forall_mem_cons.2 names)
          names'.2 ends ends' same
      | false =>
        rw [rowsAll, rowsAll, List.append_assoc, List.append_assoc] at same
        have behind := closes_succ_rowsAll tidy.2 names.2 ends
        have behind' := closes_succ_rowsAll tidy'.2 names'.2 ends'
        obtain ⟨head, body, same⟩ :=
          tidy.1.rows_inj tidy'.1 names.1 names'.1 kind kind' behind behind' same
        have smaller := sizeOf_children o
        have smaller' := sizeOf_children o'
        obtain ⟨nested, same⟩ := rowsAll_inj tidy.1.inner tidy'.1.inner tidy.1.arranged.names
          tidy'.1.arranged.names behind behind' same
        obtain ⟨rest, eq⟩ := rowsAll_inj tidy.2 tidy'.2 names.2 names'.2 ends ends' same
        have first := tidy.1.content_eq tidy'.1 kind kind' head body nested
        refine ⟨?_, eq⟩
        rw [List.filter_cons, List.filter_cons, kind, kind']
        exact congrArg₂ _ first rest
termination_by sizeOf os + sizeOf os'
decreasing_by
  all_goals
    simp only [List.cons.sizeOf_spec]
    omega

end Rows

end Outline

end Offside
