import Mathlib
import Offside.Proofs.Symbol.Edit

/-!
Qualified names as addresses. The path of a symbol climbs from it to the root, and resolution goes
down from the root by the parts of a dotted name: where no name has a dot in it, each undoes the
other, so that a symbol has one qualified name and no other symbol has it.
-/

namespace Offside

namespace SymbolTree

variable {t u : SymbolTree} {id p : Nat} {s r : Symbol} {name x : String} {names : List String}

section Text

theorem intercalate_segments (x : String) : ".".intercalate (segments x) = x := by
  rw [← String.toList_inj, String.toList_intercalate, segments, List.map_map]
  have plain : String.toList ∘ String.ofList = id := funext fun cs => String.toList_ofList
  rw [plain, List.map_id]
  exact List.intercalate_splitOn '.'

theorem segments_intercalate (ne : names ≠ []) (dotless : ∀ x ∈ names, '.' ∉ x.toList) :
    segments (".".intercalate names) = names := by
  have split : (String.toList "." |>.intercalate (names.map String.toList)).splitOn '.' =
      names.map String.toList := by
    refine List.splitOn_intercalate '.' (fun cs mem => ?_) (by simpa using ne)
    obtain ⟨x, hx, rfl⟩ := List.mem_map.1 mem
    exact dotless x hx
  have plain : String.ofList ∘ String.toList = id := funext fun x => String.ofList_toList
  rw [segments, String.toList_intercalate, split, List.map_map, plain, List.map_id]

theorem segments_ne_nil (x : String) : segments x ≠ [] := by
  rw [segments, ne_eq, List.map_eq_nil_iff]
  exact List.splitOnP_ne_nil _ _

theorem intercalate_cons (ne : names ≠ []) :
    ".".intercalate (x :: names) = x ++ "." ++ ".".intercalate names := by
  obtain ⟨y, rest, rfl⟩ := List.exists_cons_of_ne_nil ne
  rw [← String.toList_inj]
  simp [String.toList_intercalate]

end Text

def descend (t : SymbolTree) (names : List String) : Option Nat :=
  names.foldlM t.lookup root

theorem descend_concat : t.descend (names ++ [x]) = t.descend names >>= (t.lookup · x) := by
  rw [descend, List.foldlM_append]
  simp [descend]

section Linked

variable (linked : t.Linked)

include linked

theorem Linked.scopes_root : t.scopes SymbolTree.root = [SymbolTree.root] := by
  obtain ⟨s, known, parent⟩ := linked.root
  rw [scopes, known]
  simp only [parent]

theorem Linked.resolve_root (x : String) : t.resolve SymbolTree.root x = t.descend (segments x) := by
  obtain ⟨first, rest, eq⟩ := List.exists_cons_of_ne_nil (segments_ne_nil x)
  rw [resolve, eq, linked.scopes_root, descend, List.foldlM_cons]
  cases h : t.lookup SymbolTree.root first <;> simp [h]

theorem Linked.path_root (known : t.get? SymbolTree.root = some r) :
    t.path SymbolTree.root = [r.name] := by
  rw [path, linked.scopes_root]
  simp [known]

omit linked in
theorem path_child (known : t.get? id = some s) (parent : s.parent = some p) (lt : p < id) :
    t.path id = t.path p ++ [s.name] := by
  rw [path, scopes, known]
  simp only [parent, if_pos lt, List.filterMap_cons, known, Option.map_some, List.reverse_cons]
  rfl

theorem Linked.descend_path (isRoot : t.get? SymbolTree.root = some r) (lt : id < t.size) :
    ∃ names, t.path id = r.name :: names ∧ t.descend names = some id ∧
      ∀ x ∈ names, ∃ i s, i ≠ SymbolTree.root ∧ t.get? i = some s ∧ s.name = x := by
  induction id using Nat.strongRecOn with
  | _ id ih =>
    by_cases eq : id = SymbolTree.root
    · subst eq
      exact ⟨[], linked.path_root isRoot, rfl, List.forall_mem_nil _⟩
    · obtain ⟨s, known⟩ := exists_get? lt
      obtain ⟨p, parent, less, found⟩ := linked.parent id s known eq
      obtain ⟨names, path, down, all⟩ := ih p less (Nat.lt_trans less lt)
      refine ⟨names ++ [s.name], ?_, ?_, List.forall_mem_append.2 ⟨all, ?_⟩⟩
      · rw [path_child known parent less, path, List.cons_append]
      · rw [descend_concat, down]
        exact found
      · exact List.forall_mem_singleton.2 ⟨id, s, eq, known, rfl⟩

theorem Linked.path_of_descend (isRoot : t.get? SymbolTree.root = some r) (h : t.descend names = some id) :
    t.path id = r.name :: names := by
  induction names using List.reverseRecOn generalizing id with
  | nil =>
    cases h
    exact linked.path_root isRoot
  | append_singleton names x ih =>
    rw [descend_concat] at h
    obtain ⟨p, down, found⟩ := Option.bind_eq_some_iff.1 h
    obtain ⟨scope, around, child⟩ := Option.bind_eq_some_iff.1 found
    obtain ⟨before, behind, eq, -⟩ := List.lookup_eq_some_iff.1 child
    have mem : (x, id) ∈ scope.children := eq ▸ List.mem_append_right _ List.mem_cons_self
    obtain ⟨s, known, rfl, parent⟩ := linked.child p scope x id around mem
    have ne : id ≠ SymbolTree.root := by
      rintro rfl
      obtain ⟨r', known', none_⟩ := linked.root
      cases known.symm.trans known'
      cases parent.symm.trans none_
    obtain ⟨q, parent', less, -⟩ := linked.parent id s known ne
    cases parent.symm.trans parent'
    rw [path_child known parent less, ih down, List.cons_append]

end Linked

/-- Qualified names and resolution from the root undo each other: the qualified name of a symbol is
that of the root, a dot, and what is resolved as the symbol, and nothing else is. -/
structure Addressed (t : SymbolTree) (name : String) : Prop where
  root : t.qualifiedName root = name
  resolved : ∀ id, id < t.size → id ≠ SymbolTree.root →
    ∃ path, t.qualifiedName id = name ++ "." ++ path ∧
      ∀ x, t.resolve SymbolTree.root x = some id ↔ x = path
  distinct : ∀ i j, i < t.size → j < t.size → t.qualifiedName i = t.qualifiedName j → i = j

def Edit.Plain : Edit → Prop
  | .declare _ x _ => '.' ∉ x.toList
  | .replace .. => True

structure Dotless (t : SymbolTree) (name : String) : Prop where
  wellFormed : t.WellFormed
  root : t.declarations[root]? = some ⟨name, .function, none⟩
  names : ∀ d ∈ t.declarations, d.parent ≠ none → '.' ∉ d.name.toList

namespace Dotless

theorem get?_root (h : t.Dotless name) : ∃ r, t.get? SymbolTree.root = some r ∧ r.name = name := by
  have root := h.root
  rw [declarations_getElem?] at root
  obtain ⟨r, known, eq⟩ := Option.map_eq_some_iff.1 root
  exact ⟨r, known, congrArg Declaration.name eq⟩

theorem plain (h : t.Dotless name) (known : t.get? id = some s) (ne : id ≠ SymbolTree.root) :
    '.' ∉ s.name.toList := by
  obtain ⟨p, parent, -⟩ := h.wellFormed.linked.parent id s known ne
  have mem : s.declaration ∈ t.declarations := List.mem_of_getElem? (declarations_of_get? known)
  exact h.names _ mem (by simp [Symbol.declaration, parent])

theorem qualifiedName_root (h : t.Dotless name) : t.qualifiedName SymbolTree.root = name := by
  obtain ⟨r, known, rfl⟩ := h.get?_root
  rw [qualifiedName, h.wellFormed.linked.path_root known]
  rfl

theorem resolved (h : t.Dotless name) (lt : id < t.size) (ne : id ≠ SymbolTree.root) :
    ∃ path, t.qualifiedName id = name ++ "." ++ path ∧
      ∀ x, t.resolve SymbolTree.root x = some id ↔ x = path := by
  have linked := h.wellFormed.linked
  obtain ⟨r, isRoot, rfl⟩ := h.get?_root
  obtain ⟨names, path, down, all⟩ := linked.descend_path isRoot lt
  have some : names ≠ [] := by
    rintro rfl
    exact ne (Option.some.inj down).symm
  have dotless : ∀ x ∈ names, '.' ∉ x.toList := fun x mem => by
    obtain ⟨i, s, inner, known, rfl⟩ := all x mem
    exact h.plain known inner
  refine ⟨".".intercalate names, by rw [qualifiedName, path, intercalate_cons some], fun x => ?_⟩
  rw [linked.resolve_root]
  constructor
  · intro found
    have same := path.symm.trans (linked.path_of_descend isRoot found)
    rw [List.cons.inj same |>.2, intercalate_segments]
  · rintro rfl
    rw [segments_intercalate some dotless, down]

theorem addressed (h : t.Dotless name) : t.Addressed name := by
  refine ⟨h.qualifiedName_root, fun id => h.resolved, fun i j hi hj same => ?_⟩
  have root := h.qualifiedName_root
  have longer (path : String) : name ≠ name ++ "." ++ path := fun eq => by
    have length := congrArg String.length eq
    simp only [String.length_append] at length
    have one : ("." : String).length = 1 := rfl
    omega
  by_cases eqi : i = SymbolTree.root <;> by_cases eqj : j = SymbolTree.root
  · rw [eqi, eqj]
  · obtain ⟨path, eq, -⟩ := h.resolved hj eqj
    rw [eqi, root, eq] at same
    exact absurd same (longer path)
  · obtain ⟨path, eq, -⟩ := h.resolved hi eqi
    rw [eqj, root, eq] at same
    exact absurd same.symm (longer path)
  · obtain ⟨path, eq, found⟩ := h.resolved hi eqi
    obtain ⟨path', eq', found'⟩ := h.resolved hj eqj
    rw [eq, eq', ← String.toList_inj] at same
    simp only [String.toList_append, List.append_cancel_left_eq, String.toList_inj] at same
    have both := ((found path).2 rfl).symm.trans ((found' path).2 same)
    exact Option.some.inj both

theorem new (name : String) : (new name).Dotless name where
  wellFormed := .new name
  root := rfl
  names d mem inner := by
    cases List.mem_singleton.1 mem
    exact absurd rfl inner

theorem edit (h : t.Dotless name) {e : Edit} (plain : e.Plain) : (t.edit e).Dotless name := by
  have wellFormed := h.wellFormed.edit e
  cases e with
  | declare scope x kind =>
    rw [SymbolTree.edit] at wellFormed ⊢
    split at wellFormed
    · next u id made =>
      have same := declarations_declare made
      refine ⟨wellFormed, (declarations_declare_eq_some made).2 (.inl h.root), ?_⟩
      rw [same]
      exact List.forall_mem_append.2 ⟨h.names, List.forall_mem_singleton.2 fun _ => plain⟩
    · exact h
  | replace id f =>
    rw [SymbolTree.edit] at wellFormed ⊢
    split at wellFormed
    · next u made =>
      have same := declarations_setFunction made
      exact ⟨wellFormed, same ▸ h.root, same ▸ h.names⟩
    · exact h

theorem editAll (h : t.Dotless name) {es : List Edit} (plain : ∀ e ∈ es, e.Plain) :
    (t.editAll es).Dotless name := by
  induction es generalizing t with
  | nil => exact h
  | cons e es ih =>
    obtain ⟨own, behind⟩ := List.forall_mem_cons.1 plain
    exact ih (h.edit own) behind

end Dotless

end SymbolTree

end Offside
