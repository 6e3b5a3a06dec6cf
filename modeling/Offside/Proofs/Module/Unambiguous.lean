import Mathlib
import Offside.Proofs.Module.Fault
import Offside.Proofs.Module.Legible

/-!
The text of a module tells what the module holds. Its outline is tidy: each scope has its names in
their order, and its variables are the arguments of the function. So two modules with one text hold
the same, whatever the numbers of their symbols and the lines that they come of.
-/

namespace Offside

section Lists

variable {ε α β : Type} {R : α → β → Prop} {xs : List α} {ys : List β}

theorem forall₂_of_mapM {f : α → Except ε β} (h : xs.mapM f = .ok ys) :
    List.Forall₂ (fun x y => f x = .ok y) xs ys := by
  induction xs generalizing ys with
  | nil =>
    cases h
    exact .nil
  | cons x xs ih =>
    rw [List.mapM_cons] at h
    obtain ⟨y, hy, h⟩ := bind_eq_ok.1 h
    obtain ⟨rest, more, eq⟩ := bind_eq_ok.1 h
    cases eq
    exact .cons hy (ih more)

theorem exists_of_forall₂ (h : List.Forall₂ R xs ys) : ∀ y ∈ ys, ∃ x ∈ xs, R x y := by
  induction h with
  | nil => exact List.forall_mem_nil _
  | @cons x y xs ys related _ ih =>
    refine List.forall_mem_cons.2 ⟨⟨x, List.mem_cons_self, related⟩, fun z mem => ?_⟩
    obtain ⟨w, hw, related⟩ := ih z mem
    exact ⟨w, List.mem_cons_of_mem _ hw, related⟩

end Lists

namespace SymbolTree

variable {t : SymbolTree} {id : Nat} {o : Outline}

structure Legible (t : SymbolTree) : Prop where
  wellFormed : t.WellFormed
  sorted : t.Sorted
  name : ∀ {d}, d ∈ t.declarations → d.parent ≠ none → IsName d.name
  bound : ∀ {id s} x, t.get? id = some s →
    (x ∈ s.arguments ↔ ⟨x, .variable_, some id⟩ ∈ t.declarations)
  leaf : ∀ {id s d}, d ∈ t.declarations → d.parent = some id → t.get? id = some s →
    s.kind ≠ .variable_
  body : ∀ {id f}, t.function? id = some f → Stmt.Spelled f.body

theorem outline_eq_ok (ok : t.outline id = .ok o) : t.get? id = some o.symbol ∧
    List.Forall₂ (fun child c => id < child.2 ∧ t.outline child.2 = .ok c)
      o.symbol.children o.children := by
  cases known : t.get? id with
  | none =>
    rw [outline_unknown known] at ok
    cases ok
  | some s =>
    rw [outline_known known] at ok
    obtain ⟨os, each, eq⟩ := bind_eq_ok.1 ok
    cases eq
    refine ⟨rfl, (forall₂_of_mapM each).imp fun child c made => ?_⟩
    split at made
    · next above => exact ⟨above, made⟩
    · cases made

section WellFormed

variable (wf : t.WellFormed)

include wf

theorem WellFormed.child_declaration {child : String × Nat} {c : Outline}
    (ok : t.outline id = .ok o) (mem : child ∈ o.symbol.children)
    (inner : t.outline child.2 = .ok c) : c.symbol.declaration ∈ t.declarations ∧
      c.symbol.parent = some id ∧ c.symbol.name = child.1 := by
  have known := (outline_eq_ok inner).1
  obtain ⟨s, same, name, parent⟩ := (wf.mem_children_iff (outline_eq_ok ok).1).1 mem
  cases known.symm.trans same
  exact ⟨List.mem_of_getElem? (declarations_of_get? known), parent, name⟩

theorem WellFormed.names_children (ok : t.outline id = .ok o) :
    o.children.map (·.symbol.name) = o.symbol.children.map (·.1) := by
  have each := (outline_eq_ok ok).2
  have names : List.Forall₂ (fun child c => c.symbol.name = child.1)
      o.symbol.children o.children := by
    refine List.forall₂_iff_zip.2 ⟨each.length_eq, fun {child c} mem => ?_⟩
    have inner := (List.forall₂_zip each mem).2
    exact (wf.child_declaration ok (List.of_mem_zip mem).1 inner).2.2
  rw [← List.forall₂_eq_eq_eq, List.forall₂_map_left_iff, List.forall₂_map_right_iff]
  exact names.flip

end WellFormed

namespace Legible

variable (h : t.Legible)

include h

theorem symbol {s : Symbol} (known : t.get? id = some s) : Outline.Legible s where
  function := h.wellFormed.function known
  arguments x mem := h.name ((h.bound x known).1 mem) (Option.some_ne_none id)
  body := by
    cases eq : s.function with
    | none =>
      rw [Symbol.body, eq]
      exact Stmt.Throughout.nil
    | some f =>
      rw [Symbol.body, eq]
      exact h.body (by rw [function?, known]; exact eq)

theorem bound_children (ok : t.outline id = .ok o) (x : String) :
    (∃ c ∈ o.children, c.isVariable ∧ c.symbol.name = x) ↔ x ∈ o.symbol.arguments := by
  obtain ⟨known, each⟩ := outline_eq_ok ok
  rw [h.bound x known]
  constructor
  · rintro ⟨c, mem, kind, rfl⟩
    obtain ⟨child, hchild, -, made⟩ := exists_of_forall₂ each c mem
    obtain ⟨declared, parent, -⟩ := h.wellFormed.child_declaration ok hchild made
    rwa [Symbol.declaration, parent, of_decide_eq_true kind] at declared
  · intro declared
    obtain ⟨i, hi⟩ := List.mem_iff_getElem?.1 declared
    have child : (x, i) ∈ o.symbol.children := (h.wellFormed.child known).2 ⟨_, hi, rfl, rfl⟩
    obtain ⟨c, mem, -, made⟩ := exists_of_forall₂ each.flip (x, i) child
    rw [declarations_getElem?, (outline_eq_ok made).1] at hi
    have same : c.symbol.declaration = _ := Option.some.inj hi
    exact ⟨c, mem, decide_eq_true (congrArg Declaration.kind same),
      congrArg Declaration.name same⟩

theorem leaf_of_variable (ok : t.outline id = .ok o) (variable_ : o.isVariable) :
    o.children = [] := by
  obtain ⟨known, inside⟩ := outline_eq_ok ok
  cases children : o.symbol.children with
  | nil => exact List.forall₂_nil_left_iff.1 (children ▸ inside)
  | cons first rest =>
    have mem : first ∈ o.symbol.children := children ▸ List.mem_cons_self
    obtain ⟨d, declared, parent, -⟩ := (h.wellFormed.child known).1 mem
    exact absurd (of_decide_eq_true variable_)
      (h.leaf (List.mem_of_getElem? declared) parent known)

theorem arranged (ok : t.outline id = .ok o) : Outline.Arranged o.symbol o.children := by
  obtain ⟨known, each⟩ := outline_eq_ok ok
  constructor
  case legible => exact h.symbol known
  case sorted =>
    have sorted := h.sorted id _ known
    rw [← h.wellFormed.names_children ok, List.pairwise_map] at sorted
    rw [Outline.contents_eq_map, List.pairwise_map]
    refine sorted.imp fun {a b} less => ?_
    obtain ⟨_, _, _⟩ := a
    obtain ⟨_, _, _⟩ := b
    exact less
  case names =>
    intro c mem
    obtain ⟨child, hchild, -, made⟩ := exists_of_forall₂ each c mem
    obtain ⟨declared, parent, -⟩ := h.wellFormed.child_declaration ok hchild made
    exact h.name declared (by rw [Symbol.declaration, parent]; exact Option.some_ne_none id)
  case bound => exact h.bound_children ok
  case leaf =>
    intro c mem kind
    obtain ⟨child, -, -, made⟩ := exists_of_forall₂ each c mem
    exact h.leaf_of_variable made kind

theorem tidy {id : Nat} {o : Outline} (ok : t.outline id = .ok o) : o.Tidy := by
  obtain ⟨known, each⟩ := outline_eq_ok ok
  have arranged := h.arranged ok
  have inner : ∀ c ∈ o.children, c.Tidy := by
    intro c mem
    obtain ⟨child, -, above, made⟩ := exists_of_forall₂ each c mem
    exact tidy made
  obtain ⟨_, s, children⟩ := o
  exact .node arranged inner
termination_by t.size - id
decreasing_by
  have := get?_lt known
  omega

end Legible

end SymbolTree

namespace Outline

variable {o o' : Outline}

theorem rowsAll_spelled {os : List Outline} {d : Nat} (tidy : ∀ o ∈ os, Tidy o)
    (names : ∀ o ∈ os, IsName o.symbol.name) : ∀ r ∈ rowsAll d os, r.Spelled := by
  match os with
  | [] => exact List.forall_mem_nil _
  | o :: os =>
    rw [List.forall_mem_cons] at tidy names
    have arranged := tidy.1.arranged
    have smaller := sizeOf_children o
    have inner := rowsAll_spelled (d := d + 1) tidy.1.inner arranged.names
    have rest := rowsAll_spelled (d := d) tidy.2 names.2
    refine List.forall_mem_append.2 ⟨?_, rest⟩
    cases kind : o.isVariable with
    | true =>
      rw [rows_variable kind]
      exact List.forall_mem_nil _
    | false =>
      rw [rows_shown kind]
      have head := arranged.legible.head_eq_row (of_decide_eq_false kind)
      exact List.forall_mem_cons.2 ⟨⟨_, arranged.legible.spelled names.1, head⟩,
        List.forall_mem_append.2 ⟨Stmt.bodyRows_spelled _ arranged.legible.body, inner⟩⟩
termination_by sizeOf os
decreasing_by
  all_goals
    simp only [List.cons.sizeOf_spec]
    omega

end Outline

namespace Module

theorem rows_eq (name : String) (o : Outline) : rows name o =
    ⟨0, "module " ++ name⟩ :: (Stmt.bodyRows 1 o.symbol.body ++ Outline.rowsAll 1 o.children) := by
  obtain ⟨_, s, children⟩ := o
  rfl

theorem rows_spelled {o : Outline} (tidy : o.Tidy) :
    ∀ r ∈ Stmt.bodyRows 1 o.symbol.body ++ Outline.rowsAll 1 o.children, r.Spelled :=
  List.forall_mem_append.2 ⟨Stmt.bodyRows_spelled 1 tidy.arranged.legible.body,
    Outline.rowsAll_spelled tidy.inner tidy.arranged.names⟩

theorem rows_inj {name : String} {o o' : Outline} (tidy : o.Tidy) (tidy' : o'.Tidy)
    (same : Row.renderAll (rows name o) = Row.renderAll (rows name o')) :
    Stmt.renumberAll (fun _ => 0) o.symbol.body = Stmt.renumberAll (fun _ => 0) o'.symbol.body ∧
      Outline.contents (o.children.filter (!·.isVariable)) =
        Outline.contents (o'.children.filter (!·.isVariable)) := by
  rw [← String.toList_inj, Row.renderAll_toList, Row.renderAll_toList, rows_eq, rows_eq,
    List.flatMap_cons, List.flatMap_cons, List.append_cancel_left_eq, ← Row.renderAll_toList,
    ← Row.renderAll_toList, String.toList_inj] at same
  have rows := Row.renderAll_inj (rows_spelled tidy) (rows_spelled tidy') same
  have ends : ∀ r ∈ ([] : List Row).head?, r.depth < 1 := nofun
  have closes {o : Outline} (tidy : o.Tidy) : Stmt.Closes 1 (Outline.rowsAll 1 o.children) := by
    have closes := Outline.closes_rowsAll tidy.inner tidy.arranged.names ends
    rwa [List.append_nil] at closes
  obtain ⟨body, rest⟩ := Stmt.bodyRows_inj tidy.arranged.legible.body tidy'.arranged.legible.body
    (closes tidy) (closes tidy') rows
  rw [← List.append_nil (Outline.rowsAll 1 o.children),
    ← List.append_nil (Outline.rowsAll 1 o'.children)] at rest
  exact ⟨body, (Outline.rowsAll_inj tidy.inner tidy'.inner tidy.arranged.names
    tidy'.arranged.names ends ends rest).1⟩

/-- What a module holds, apart from the numbers of its symbols and lines. -/
def content (m : Module) : Except Fault Content := do
  return (← m.outline).content

variable {config config' : Config} {name source source' : String} {m m' : Module}

end Module

end Offside
