import Mathlib
import Offside.Proofs.Module.Content
import Offside.Proofs.Module.Edited
import Offside.Proofs.Module.Member
import Offside.Proofs.Symbol.Outline

/-!
Modules that come of a source have an outline that its rows tell. The leaves of the expressions were
scanned, so they can be read back unless a number was too large to be finite; the names are names,
and the variables of a function are its arguments.
-/

namespace Offside

namespace Expr

variable {s : Setting} {ws : List Lexeme} {e : Expr} {es : List Expr}

theorem operand_scanned {inClass : Bool} {l : Lexeme} (scanned : l.Scanned)
    (ok : operand inClass l = .ok e) : ∀ x ∈ e.leaves, x.Scanned := by
  rcases operand_eq_ok.1 ok with ⟨i, payload, -, rfl⟩ | ⟨x, payload, rfl⟩
  · refine List.forall_mem_singleton.2 ?_
    cases scanned with
    | fixed | literal => cases payload
    | name word free =>
      cases payload
      exact .name word free
  · refine List.forall_mem_singleton.2 ?_
    cases scanned with
    | fixed | name => cases payload
    | literal unsigned =>
      cases payload
      exact .literal unsigned

theorem parseStatement_scanned (scanned : ∀ l ∈ ws, l.Scanned)
    (ok : parseStatement s ws = .ok e) : ∀ x ∈ e.leaves, x.Scanned :=
  (derives_of_parseStatement ok).all (hereditary_leaves _) fun l mem _ read =>
    operand_scanned (scanned l mem) read

theorem parseStatements_scanned (scanned : ∀ l ∈ ws, l.Scanned)
    (ok : parseStatements s ws = .ok es) : ∀ e ∈ es, ∀ x ∈ e.leaves, x.Scanned :=
  (derives_of_parseStatements ok).all (hereditary_leaves _) fun l mem _ read =>
    operand_scanned (scanned l mem) read

end Expr

namespace Header

/-- The names and the literals of a line that are not declared there. -/
def leaves : Header → List Lexeme
  | foreach item c => .ofIdent item :: c.leaves
  | h => h.exprs.flatMap Expr.leaves

theorem Reads.scanned {s : Expr.Setting} {ws : List Lexeme} {h : Header} (reads : h.Reads s ws)
    (scanned : ∀ l ∈ ws, l.Scanned) : ∀ x ∈ h.leaves, x.Scanned := by
  have one {vs : List Lexeme} {e : Expr} (scanned : ∀ l ∈ vs, l.Scanned)
      (parses : Expr.parseStatement s vs = .ok e) : ∀ x ∈ [e].flatMap Expr.leaves, x.Scanned := by
    rw [List.flatMap_singleton]
    exact Expr.parseStatement_scanned scanned parses
  cases reads with
  | class_ | function | else_ => exact List.forall_mem_nil _
  | if_ _ parses | while_ _ parses | return_ _ _ parses =>
    exact one (List.forall_mem_cons.1 scanned).2 parses
  | elseIf _ _ parses =>
    exact one (List.forall_mem_cons.1 (List.forall_mem_cons.1 scanned).2).2 parses
  | expression _ _ parses => exact one scanned parses
  | nothing => exact List.forall_mem_singleton.2 (.literal rfl)
  | for_ _ parses =>
    exact List.forall_mem_flatMap.2
      (Expr.parseStatements_scanned (List.forall_mem_cons.1 scanned).2 parses)
  | foreach _ plain _ parses =>
    simp only [List.forall_mem_cons] at scanned
    obtain ⟨-, item, -, rest⟩ := scanned
    have name := item.isName plain
    exact List.forall_mem_cons.2
      ⟨.name name.word fun _ => name.free, Expr.parseStatement_scanned rest parses⟩

end Header

namespace Module

variable {config : Config} {ls : List Line} {name : String} {t : SymbolTree}

section Bodies

variable {P : Stmt → Prop}

mutual

theorem Yields.throughout (own : ∀ i s, Yields config ls i s → P s) {i : Nat} {s : Stmt} :
    Yields config ls i s → Stmt.Throughout (fun _ => P) [s]
  | .expression told => .of_inner (own _ _ (.expression told)) .nil
  | .return_ told => .of_inner (own _ _ (.return_ told)) .nil
  | .while_ told body => .of_inner (own _ _ (.while_ told body)) (body.throughout own)
  | .for_ told body => .of_inner (own _ _ (.for_ told body)) (body.throughout own)
  | .foreach told body => .of_inner (own _ _ (.foreach told body)) (body.throughout own)
  | .if_ tests last body => .of_inner (own _ _ (.if_ tests last body)) (body.throughout own)
  | .ifElse tests next body otherwise =>
    .of_inner (own _ _ (.ifElse tests next body otherwise))
      ((body.throughout own).append (otherwise.throughout own))

theorem YieldsElse.throughout (own : ∀ i s, Yields config ls i s → P s) {j : Nat}
    {otherwise : List Stmt} :
    YieldsElse config ls j otherwise → Stmt.Throughout (fun _ => P) otherwise
  | .else_ _ body => body.throughout own
  | .elseIf _ one => one.throughout own

theorem YieldsAll.throughout (own : ∀ i s, Yields config ls i s → P s) {is : List Nat}
    {body : List Stmt} : YieldsAll config ls is body → Stmt.Throughout (fun _ => P) body
  | .nil => .nil
  | .cons one all => (one.throughout own).append (all.throughout own)

end

variable (sourced : ∀ l ∈ ls, ∀ x ∈ l.lexemes, x.Scanned)

include sourced

theorem Says.scanned {i : Nat} {h : Header} (told : Says config ls i h) :
    ∀ x ∈ h.leaves, x.Scanned :=
  Header.Reads.scanned told (lineAt_scanned sourced i)

theorem Yields.scanned {i : Nat} {s : Stmt} (h : Yields config ls i s) :
    ∀ x ∈ s.header.leaves, x.Scanned := by
  cases h with
  | expression told | return_ told | while_ told | for_ told | foreach told =>
    exact told.scanned sourced
  | if_ tests | ifElse tests => exact tests.elim (·.scanned sourced) (·.scanned sourced)

end Bodies

section Arguments

variable {x : String} {id i : Nat} {s : Symbol}

theorem kind_ne_variable (r : Role) : r.kind ≠ .variable_ := by
  cases r <;> nofun

theorem variable_mem_declared : ⟨x, .variable_, some id⟩ ∈ declared ls i ↔
    symbolAt ls i = id ∧ x ∈ (names ls i).tail := by
  have other := (kind_ne_variable (roleAt ls i)).symm
  unfold declared
  split
  · next none_ => simp [none_]
  · next y arguments some_ => simp [some_, other, and_comm]

theorem declares_of_names (named : names ls i ≠ []) : (roleAt ls i).declares := by
  by_contra other
  exact named (names_eq_nil (by simpa using other))

variable (finished : Finished config ls name t)

include finished

theorem Finished.variable_iff : ⟨x, .variable_, some id⟩ ∈ t.declarations ↔
    ∃ i < ls.length, symbolAt ls i = id ∧ x ∈ (names ls i).tail := by
  rw [finished.declarations]
  simp [Module.declarations, variable_mem_declared]

variable (h : Readable config ls)

include h

theorem exists_function (lt : i < ls.length) (mem : x ∈ (names ls i).tail) :
    ∃ f, t.function? (symbolAt ls i) = some f ∧ f.arguments = (names ls i).tail := by
  obtain ⟨hd, told⟩ := (h.accepted i lt).header
  have declares := declares_of_names fun none_ => List.not_mem_nil (none_ ▸ mem : x ∈ [].tail)
  cases hd with
  | class_ y =>
    rw [names_class told] at mem
    cases mem
  | function y arguments =>
    obtain ⟨f, does, same, -⟩ := finished.functions i lt told.role
    exact ⟨f, does, same⟩
  | _ =>
    rw [told.role] at declares
    cases declares

theorem mem_arguments (known : t.get? id = some s) :
    x ∈ s.arguments ↔ ⟨x, .variable_, some id⟩ ∈ t.declarations := by
  have does : t.function? id = s.function := by
    rw [SymbolTree.function?, known]
    rfl
  rw [finished.variable_iff, Symbol.arguments]
  constructor
  · intro mem
    cases eq : s.function with
    | none =>
      rw [eq] at mem
      cases mem
    | some f =>
      rw [eq] at mem does
      obtain ⟨o, rfl, line, -⟩ := finished.body does
      cases o with
      | none =>
        obtain ⟨f', does', none_, -⟩ := finished.entry
        cases does.symm.trans does'
        rw [Option.map_some, Option.getD_some, none_] at mem
        cases mem
      | some i =>
        obtain ⟨lt, role⟩ := line i rfl
        obtain ⟨f', does', same, -⟩ := finished.functions i lt role
        cases does.symm.trans does'
        exact ⟨i, lt, rfl, same ▸ mem⟩
  · rintro ⟨i, lt, rfl, mem⟩
    obtain ⟨f, does', same⟩ := exists_function finished h lt mem
    rw [← does, does', Option.map_some, Option.getD_some, same]
    exact mem

theorem parent_ne_variable {d : Declaration} (mem : d ∈ t.declarations)
    (parent : d.parent = some id) (known : t.get? id = some s) : s.kind ≠ .variable_ := by
  have shown {p : Nat} (lt : p < ls.length) (declares : (roleAt ls p).declares)
      (known : t.get? (symbolAt ls p) = some s) : s.kind ≠ .variable_ := by
    obtain ⟨s', known', kind, -⟩ := get?_declares finished h lt declares
    cases known.symm.trans known'
    exact kind ▸ kind_ne_variable _
  rw [finished.declarations] at mem
  rcases List.mem_cons.1 mem with rfl | mem
  · cases parent
  obtain ⟨i, hi, mem⟩ := List.mem_flatMap.1 mem
  have lt := List.mem_range.1 hi
  unfold declared at mem
  split at mem
  · cases mem
  next y arguments named =>
  have declares := declares_of_names (named ▸ List.cons_ne_nil y arguments)
  rcases List.mem_cons.1 mem with rfl | mem
  · cases parent
    unfold scopeAt at known
    cases declarer : declarer? ls i with
    | none =>
      obtain ⟨_, root⟩ := finished.wellFormed.root
      rw [declarer] at known
      rw [SymbolTree.declarations_getElem?, show t.get? SymbolTree.root = some s from known] at root
      intro kind
      rw [show s.kind = .function from congrArg Declaration.kind (Option.some.inj root)] at kind
      cases kind
    | some p =>
      rw [declarer] at known
      obtain ⟨before, declares⟩ := declarer?_lt declarer
      exact shown (Nat.lt_trans before lt) declares known
  · obtain ⟨z, -, rfl⟩ := List.mem_map.1 mem
    cases parent
    exact shown lt declares known

end Arguments

end Module

end Offside
