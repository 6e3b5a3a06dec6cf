import Mathlib
import Offside.Proofs.Symbol.Qualified

/-!
Dotted names before and behind a declaration. The first part is looked for from the inside out and is
not looked for again once it is found, so that a new name may hide a whole path that led further out.
Main statement: a declaration changes what a name stands for in no other way, unless the name stood
for nothing and is that of the new symbol.
-/

namespace Offside.SymbolTree

variable {t u : SymbolTree} {scope k s i : Nat} {x y : String} {kind : SymbolKind}

theorem eq_or_encloses_of_mem_scopes (mem : i ∈ t.scopes s) : i = s ∨ t.Encloses i s := by
  induction s using Nat.strongRecOn with
  | _ s ih =>
    rw [scopes] at mem
    cases known : t.get? s with
    | none => simp [known] at mem
    | some symbol =>
      cases parent : symbol.parent with
      | none =>
        simp only [known, parent, List.mem_singleton] at mem
        exact .inl mem
      | some p =>
        simp only [known, parent] at mem
        split at mem
        · next lt =>
          rcases List.mem_cons.1 mem with rfl | mem
          · exact .inl rfl
          · rcases ih p lt mem with rfl | further
            · exact .inr (.scope known parent)
            · exact .inr (.further known parent further)
        · exact .inl (List.mem_singleton.1 mem)

section Declared

variable (made : t.declare scope x kind = .ok (u, k))

include made

theorem lookup_of_declared : t.lookup scope x = none := by
  obtain ⟨symbol, known, free, -, -⟩ := declare_eq_ok made
  rw [lookup_eq known, free]

theorem lookup_declare (i : Nat) (y : String) :
    u.lookup i y = if i = scope ∧ y = x then some k else t.lookup i y := by
  obtain ⟨symbol, known, -, rfl, symbols⟩ := declare_eq_ok made
  have lt := get?_lt known
  by_cases eq : i = scope
  · subst eq
    rw [(declaring lt x kind).found u _ made y]
    simp only [true_and]
  · rw [if_neg fun both => eq both.1, lookup, lookup, symbols, if_neg eq]
    by_cases latest : i = t.size
    · have unknown : t.get? i = none := by simp [get?, size, latest]
      rw [if_pos latest, unknown]
      rfl
    · rw [if_neg latest]

theorem lookup_latest (y : String) : u.lookup k y = none := by
  obtain ⟨symbol, known, -, rfl, -⟩ := declare_eq_ok made
  have unknown : t.get? t.size = none := by simp [get?, size]
  rw [lookup_declare made, if_neg fun both => Nat.ne_of_gt (get?_lt known) both.1, lookup, unknown]
  rfl

theorem foldlM_latest (names : List String) :
    names.foldlM u.lookup k = if names = [] then some k else none := by
  cases names with
  | nil => rfl
  | cons y names =>
    rw [List.foldlM_cons, lookup_latest made, if_neg (List.cons_ne_nil _ _)]
    rfl

theorem scopes_declare (lt : s < t.size) : u.scopes s = t.scopes s := by
  obtain ⟨symbol, known, -, rfl, symbols⟩ := declare_eq_ok made
  induction s using Nat.strongRecOn with
  | _ s ih =>
    obtain ⟨before, old⟩ := exists_get? lt
    obtain ⟨children, new, -⟩ := (declaring (get?_lt known) x kind).others u _ made s before old
    rw [scopes, scopes, old, new]
    cases parent : before.parent with
    | none => simp only [parent]
    | some p =>
      simp only [parent]
      split
      · next less => rw [ih p less (Nat.lt_trans less lt)]
      · rfl

theorem findSome?_declare (y : String) (around : List Nat) :
    around.findSome? (u.lookup · y) = around.findSome? (t.lookup · y) ∨
      y = x ∧ scope ∈ around ∧ around.findSome? (u.lookup · y) = some k := by
  induction around with
  | nil => exact .inl rfl
  | cons i around ih =>
    rw [List.findSome?_cons, List.findSome?_cons, lookup_declare made]
    by_cases here : i = scope ∧ y = x
    · rw [if_pos here]
      exact .inr ⟨here.2, here.1 ▸ List.mem_cons_self, rfl⟩
    · rw [if_neg here]
      cases t.lookup i y with
      | some j => exact .inl rfl
      | none => exact ih.imp id fun ⟨same, mem, found⟩ => ⟨same, List.mem_cons_of_mem i mem, found⟩

theorem foldlM_declare (names : List String) (i : Nat) :
    names.foldlM u.lookup i = names.foldlM t.lookup i ∨
      names.foldlM t.lookup i = none ∧ names.foldlM u.lookup i = some k := by
  induction names generalizing i with
  | nil => exact .inl rfl
  | cons y names ih =>
    rw [List.foldlM_cons, List.foldlM_cons, lookup_declare made]
    by_cases here : i = scope ∧ y = x
    · obtain ⟨rfl, rfl⟩ := here
      rw [if_pos ⟨rfl, rfl⟩, lookup_of_declared made]
      change names.foldlM u.lookup k = none ∨ _ ∧ names.foldlM u.lookup k = some k
      rw [foldlM_latest made]
      split
      · exact .inr ⟨rfl, rfl⟩
      · exact .inl rfl
    · rw [if_neg here]
      cases t.lookup i y with
      | none => exact .inl rfl
      | some j => exact ih j

end Declared

section Resolve

variable {name first : String} {rest : List String}

theorem resolve_cons (t : SymbolTree) (s : Nat) (parts : segments name = first :: rest) :
    t.resolve s name =
      ((t.scopes s).findSome? (t.lookup · first)).bind (rest.foldlM t.lookup) := by
  rw [resolve, parts]
  rfl

/-- A declaration changes what a dotted name stands for, as seen from any scope, in two ways only. A
name that stood for nothing may stand for the new symbol. And a name that stood for something may no
longer do so, if its first part is the one declared and it is declared in that scope or around it: it
stands for the new symbol then, or for nothing. -/
theorem resolve_declare (made : t.declare scope x kind = .ok (u, k)) (known : s < t.size)
    (name : String) :
    (t.resolve s name = none → u.resolve s name = none ∨ u.resolve s name = some k) ∧
    ∀ id, t.resolve s name = some id → u.resolve s name = some id ∨
      (segments name).head? = some x ∧ (scope = s ∨ t.Encloses scope s) ∧
        (u.resolve s name = some k ∨ u.resolve s name = none) := by
  obtain ⟨first, rest, parts⟩ := List.exists_cons_of_ne_nil (segments_ne_nil name)
  rw [resolve_cons t s parts, resolve_cons u s parts, scopes_declare made known, parts]
  rcases findSome?_declare made first (t.scopes s) with same | ⟨rfl, mem, hidden⟩
  · rw [same]
    cases (t.scopes s).findSome? (t.lookup · first) with
    | none => exact ⟨fun _ => .inl rfl, nofun⟩
    | some i =>
      simp only [Option.bind_some]
      rcases foldlM_declare made rest i with same | ⟨nothing, latest⟩
      · rw [same]
        exact ⟨.inl, fun id => .inl⟩
      · rw [nothing, latest]
        exact ⟨fun _ => .inr rfl, nofun⟩
  · have latest : rest.foldlM u.lookup k = some k ∨ rest.foldlM u.lookup k = none := by
      rw [foldlM_latest made]
      split
      · exact .inl rfl
      · exact .inr rfl
    rw [hidden, Option.bind_some]
    exact ⟨fun _ => latest.symm, fun id _ => .inr ⟨rfl, eq_or_encloses_of_mem_scopes mem, latest⟩⟩

/-- A class, a method in it, and then a variable in the class that is called like the class: from the
method, the path to the method is hidden and leads nowhere. -/
theorem resolve_declare_hidden :
    let t := (new "m").editAll [.declare 0 "A" .class_, .declare 1 "f" .function]
    let u := t.edit (.declare 1 "A" .variable_)
    t.declare 1 "A" .variable_ = .ok (u, 3) ∧ 2 < t.size ∧ t.resolve 2 "A.f" = some 2 ∧
      u.resolve 2 "A.f" = none ∧ (1 = 2 ∨ t.Encloses 1 2) := by
  intro t u
  have made : t.declare 1 "A" .variable_ = .ok (u, 3) := by cbv
  have known : 2 < t.size := by decide
  have before : t.resolve 2 "A.f" = some 2 := by cbv
  have behind : u.resolve 2 "A.f" = none := by cbv
  rcases (resolve_declare made known "A.f").2 2 before with same | ⟨-, around, -⟩
  · cases behind.symm.trans same
  · exact ⟨made, known, before, behind, around⟩

end Resolve

end Offside.SymbolTree
