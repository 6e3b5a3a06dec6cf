import Mathlib
import Offside.Proofs.Module.Unambiguous
import Offside.Proofs.Symbol.Graft

/-!
What the root of a symbol tree shows: the name and the rows of each of its declarations. Under
other numbers the same symbols have the same rows, so that two trees under one root show what each
of them shows by itself.
-/

namespace Offside

structure Shown where
  name : String
  rows : List Row

namespace Shown

def Before (a b : Shown) : Prop := a.name < b.name

instance : Std.Irrefl Before := ⟨fun a => lt_irrefl a.name⟩

instance : Std.Antisymm Before := ⟨fun _ _ h h' => absurd h' (lt_asymm h)⟩

end Shown

section Lists

variable {α β γ : Type} {R : α → β → Prop} {S : α → γ → Prop} {T : β → γ → Prop}

theorem forall₂_along {xs : List α} {ys : List β} {zs : List γ} (h : List.Forall₂ R xs ys)
    (h' : List.Forall₂ S xs zs) (imp : ∀ x y z, R x y → S x z → T y z) :
    List.Forall₂ T ys zs := by
  induction h generalizing zs with
  | nil =>
    cases h'
    exact .nil
  | cons related _ ih =>
    cases h' with
    | cons related' rest => exact .cons (imp _ _ _ related related') (ih rest)

end Lists

namespace Outline

variable {o o' : Outline} {os os' : List Outline}

theorem rowsAll_eq_flatMap (d : Nat) (os : List Outline) : rowsAll d os = os.flatMap (rows d) := by
  induction os with
  | nil => rfl
  | cons o os ih => rw [rowsAll, ih, List.flatMap_cons]

theorem rowsAll_congr (same : List.Forall₂ (fun o o' => ∀ d, o'.rows d = o.rows d) os os')
    (d : Nat) : rowsAll d os' = rowsAll d os := by
  induction same with
  | nil => rfl
  | cons first _ ih => rw [rowsAll, rowsAll, first, ih]

theorem rows_congr (name : o'.symbol.name = o.symbol.name) (kind : o'.symbol.kind = o.symbol.kind)
    (function : o'.symbol.function = o.symbol.function)
    (same : List.Forall₂ (fun o o' => ∀ d, o'.rows d = o.rows d) o.children o'.children)
    (d : Nat) : o'.rows d = o.rows d := by
  have shown : o'.isVariable = o.isVariable := by rw [isVariable, isVariable, kind]
  cases variable_ : o.isVariable with
  | true => rw [rows_variable variable_, rows_variable (shown.trans variable_)]
  | false =>
    rw [rows_shown variable_, rows_shown (shown.trans variable_), rowsAll_congr same, head, head,
      Symbol.arguments, Symbol.arguments, Symbol.body, Symbol.body, name, kind, function]

def shown (o : Outline) : List Shown :=
  o.children.map fun c => ⟨c.symbol.name, c.rows 1⟩

theorem rowsAll_eq_shown (o : Outline) : rowsAll 1 o.children = o.shown.flatMap Shown.rows := by
  rw [rowsAll_eq_flatMap, shown, List.flatMap_map]

end Outline

namespace SymbolTree

variable {f : Nat → Nat} {t u : SymbolTree} {id : Nat} {r s : Symbol} {o o' : Outline}

/-- The symbols below the root of a tree are in the other one, under other numbers. -/
def Embeds (f : Nat → Nat) (t u : SymbolTree) : Prop :=
  ∀ id s, id ≠ root → t.get? id = some s → ∃ s', u.get? (f id) = some s' ∧ s'.name = s.name ∧
    s'.kind = s.kind ∧ s'.function = s.function ∧
    s'.children = s.children.map fun c => (c.1, f c.2)

namespace Embeds

theorem rows_eq {id : Nat} {o o' : Outline} (h : Embeds f t u) (inner : id ≠ root)
    (ok : t.outline id = .ok o) (ok' : u.outline (f id) = .ok o') (d : Nat) :
    o'.rows d = o.rows d := by
  obtain ⟨known, each⟩ := outline_eq_ok ok
  obtain ⟨known', each'⟩ := outline_eq_ok ok'
  obtain ⟨s', same, name, kind, function, children⟩ := h id _ inner known
  cases known'.symm.trans same
  rw [children, List.forall₂_map_left_iff] at each'
  refine Outline.rows_congr name kind function ?_ d
  refine forall₂_along each each' fun child c c' made made' => ?_
  obtain ⟨above, made⟩ := made
  exact rows_eq h (Nat.ne_of_gt (Nat.lt_of_le_of_lt (Nat.zero_le id) above)) made made'.2
termination_by t.size - id
decreasing_by
  have := get?_lt known
  omega

end Embeds

def Shows (t : SymbolTree) (e : Shown) : Prop :=
  ∃ r x id o, t.get? root = some r ∧ (x, id) ∈ r.children ∧ t.outline id = .ok o ∧
    e = ⟨x, o.rows 1⟩

section Shows

variable {e : Shown}

theorem mem_shown (wf : t.WellFormed) (ok : t.outline root = .ok o) :
    e ∈ o.shown ↔ t.Shows e := by
  obtain ⟨known, each⟩ := outline_eq_ok ok
  rw [Outline.shown, List.mem_map]
  constructor
  · rintro ⟨c, mem, rfl⟩
    obtain ⟨child, mem, -, made⟩ := exists_of_forall₂ each c mem
    rw [(wf.child_declaration ok mem made).2.2]
    exact ⟨_, child.1, child.2, c, known, mem, made, rfl⟩
  · rintro ⟨r, x, id, c, same, mem, made, rfl⟩
    cases known.symm.trans same
    obtain ⟨c', mem', -, made'⟩ := exists_of_forall₂ each.flip (x, id) mem
    cases made.symm.trans made'
    refine ⟨c, mem', ?_⟩
    rw [(wf.child_declaration ok mem made).2.2]

theorem shown_sorted (wf : t.WellFormed) (sorted : t.Sorted) (ok : t.outline root = .ok o) :
    o.shown.Pairwise Shown.Before := by
  have names := sorted root _ (outline_eq_ok ok).1
  rw [← wf.names_children ok, List.pairwise_map] at names
  rw [Outline.shown, List.pairwise_map]
  exact names

theorem rowsAll_eq_of_shows (wf : t.WellFormed) (wf' : u.WellFormed) (sorted : t.Sorted)
    (sorted' : u.Sorted) (ok : t.outline root = .ok o) (ok' : u.outline root = .ok o')
    (same : ∀ e, t.Shows e ↔ u.Shows e) :
    Outline.rowsAll 1 o.children = Outline.rowsAll 1 o'.children := by
  have shown : o.shown = o'.shown := by
    refine (shown_sorted wf sorted ok).eq_of_mem_iff (shown_sorted wf' sorted' ok') fun e => ?_
    rw [mem_shown wf ok, mem_shown wf' ok', same]
  rw [Outline.rowsAll_eq_shown, Outline.rowsAll_eq_shown, shown]

end Shows

section Graft

theorem embeds_left (ht : t.get? root = some r) (hu : u.get? root = some s) :
    Embeds (·) t (t.graft u) := by
  intro id s' inner known
  have same := get?_graft_left ht hu inner (get?_lt known)
  exact ⟨s', same.trans known, rfl, rfl, rfl, (List.map_id' _).symm⟩

theorem embeds_right (ht : t.get? root = some r) (hu : u.get? root = some s) :
    Embeds (raise (t.size - 1)) u (t.graft u) := by
  intro id s' inner known
  have moved := get?_graft ht hu id
  rw [known, Option.map_some, Symbol.placed_of_ne inner] at moved
  exact ⟨_, moved, rfl, rfl, rfl, rfl⟩

theorem Embeds.shown (h : Embeds f t u) (wf : t.WellFormed) (wf' : u.WellFormed)
    (known : t.get? root = some r) {x : String} (mem : (x, id) ∈ r.children) :
    ∃ o o', t.outline id = .ok o ∧ u.outline (f id) = .ok o' ∧ o'.rows 1 = o.rows 1 := by
  obtain ⟨above, lt⟩ := wf.child_lt known mem
  obtain ⟨s, hs⟩ := get?_isSome_of_lt lt
  obtain ⟨s', hs', -⟩ := h id s (Nat.ne_of_gt above) hs
  obtain ⟨o, ok⟩ := wf.outline_isOk lt
  obtain ⟨o', ok'⟩ := wf'.outline_isOk (get?_lt hs')
  exact ⟨o, o', ok, ok', h.rows_eq (Nat.ne_of_gt above) ok ok' 1⟩

theorem shows_graft (wf : t.WellFormed) (wf' : u.WellFormed) (whole : (t.graft u).WellFormed)
    {e : Shown} : (t.graft u).Shows e ↔ t.Shows e ∨ u.Shows e := by
  obtain ⟨r, ht⟩ := get?_isSome_of_lt wf.root_lt
  obtain ⟨s, hu⟩ := get?_isSome_of_lt wf'.root_lt
  have known := get?_graft_root ht hu
  have left := embeds_left ht hu
  have right := embeds_right ht hu
  constructor
  · rintro ⟨q, x, id, o, same, mem, ok, rfl⟩
    cases known.symm.trans same
    rcases Symbol.mem_union.1 mem with mem | mem
    · obtain ⟨c, c', made, made', rows⟩ := left.shown wf whole ht mem
      cases ok.symm.trans made'
      exact .inl ⟨r, x, id, c, ht, mem, made, by rw [rows]⟩
    · obtain ⟨child, here, eq⟩ := List.mem_map.1 mem
      cases eq
      obtain ⟨c, c', made, made', rows⟩ := right.shown wf' whole hu here
      cases ok.symm.trans made'
      exact .inr ⟨s, child.1, child.2, c, hu, here, made, by rw [rows]⟩
  · rintro (⟨q, x, id, o, same, mem, ok, rfl⟩ | ⟨q, x, id, o, same, mem, ok, rfl⟩)
    · cases ht.symm.trans same
      obtain ⟨c, c', made, made', rows⟩ := left.shown wf whole ht mem
      cases ok.symm.trans made
      exact ⟨_, x, id, c', known, Symbol.mem_union.2 (.inl mem), made', by rw [rows]⟩
    · cases hu.symm.trans same
      obtain ⟨c, c', made, made', rows⟩ := right.shown wf' whole hu mem
      cases ok.symm.trans made
      have moved : (x, raise (t.size - 1) id) ∈ (s.raise (t.size - 1)).children :=
        List.mem_map.2 ⟨_, mem, rfl⟩
      exact ⟨_, x, _, c', known, Symbol.mem_union.2 (.inr moved), made', by rw [rows]⟩

end Graft

end SymbolTree

end Offside
