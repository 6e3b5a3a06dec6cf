import Mathlib.Data.String.Basic
import Offside.Proofs.Symbol.Outline

/-!
Two symbol trees under one root. The symbols of the second tree follow those of the first, all
their numbers raised by the same amount, and the two roots become one. A declaration in the
second tree and the same declaration in both together come to the same.
-/

namespace Offside

namespace SymbolTree

/-- The number of a symbol that is moved behind `n` others; the root stays. -/
def raise (n id : Nat) : Nat :=
  if id = root then root else id + n

theorem raise_root (n : Nat) : raise n root = root := rfl

theorem raise_of_ne {id : Nat} (n : Nat) (h : id ≠ root) : raise n id = id + n := if_neg h

theorem raise_inj {n i j : Nat} : raise n i = raise n j ↔ i = j := by
  unfold raise root
  split <;> split <;> omega

theorem raise_eq_root {n id : Nat} : raise n id = root ↔ id = root :=
  raise_inj (n := n) (j := root)

end SymbolTree

namespace Symbol

def raise (n : Nat) (s : Symbol) : Symbol :=
  { s with
    parent := s.parent.map (SymbolTree.raise n)
    children := s.children.map fun c => (c.1, SymbolTree.raise n c.2) }

def union (a b : List (String × Nat)) : List (String × Nat) :=
  b.foldr (fun c children => insertChild c.1 c.2 children) a

/-- One root for two: the children of both, and the statements of the one before those of the
other. -/
def join (n : Nat) (r s : Symbol) : Symbol :=
  { r with
    children := union r.children (s.raise n).children
    function := some ⟨r.arguments, r.body ++ s.body⟩ }

variable {n id i j : Nat} {x y name : String} {a b children : List (String × Nat)}

theorem mem_union {c : String × Nat} : c ∈ union a b ↔ c ∈ a ∨ c ∈ b := by
  induction b with
  | nil => simp [union]
  | cons d b ih =>
    rw [union, List.foldr_cons, mem_insertChild, List.mem_cons, ← union, ih]
    tauto

theorem insertChild_comm (ne : x ≠ y) (children : List (String × Nat)) :
    insertChild x i (insertChild y j children) = insertChild y j (insertChild x i children) := by
  induction children with
  | nil =>
    rcases lt_or_gt_of_ne ne with lt | gt
    · simp [insertChild, lt, lt.not_gt]
    · simp [insertChild, gt, gt.not_gt]
  | cons c rest ih =>
    rcases lt_or_gt_of_ne ne with lt | gt
    · by_cases hy : y < c.1
      · simp [insertChild, hy, lt, lt.trans hy, lt.not_gt]
      · by_cases hx : x < c.1
        · simp [insertChild, hx, hy, lt.not_gt]
        · simp [insertChild, hx, hy, ih]
    · by_cases hx : x < c.1
      · simp [insertChild, hx, gt, gt.trans hx, gt.not_gt]
      · by_cases hy : y < c.1
        · simp [insertChild, hx, hy, gt.not_gt]
        · simp [insertChild, hx, hy, ih]

theorem union_insertChild (absent : x ∉ b.map (·.1)) :
    union a (insertChild x i b) = insertChild x i (union a b) := by
  induction b with
  | nil => rfl
  | cons c b ih =>
    rw [List.map_cons, List.mem_cons, not_or] at absent
    rw [insertChild]
    split
    · rfl
    · calc union a (c :: insertChild x i b)
          = insertChild c.1 c.2 (union a (insertChild x i b)) := rfl
        _ = insertChild c.1 c.2 (insertChild x i (union a b)) := by rw [ih absent.2]
        _ = insertChild x i (insertChild c.1 c.2 (union a b)) :=
            insertChild_comm (Ne.symm absent.1) _

theorem map_insertChild (f : Nat → Nat) (x : String) (i : Nat) (children : List (String × Nat)) :
    (insertChild x i children).map (fun c => (c.1, f c.2)) =
      insertChild x (f i) (children.map fun c => (c.1, f c.2)) := by
  induction children with
  | nil => rfl
  | cons c rest ih =>
    simp only [insertChild, List.map_cons]
    split
    · rfl
    · rw [List.map_cons, ih]

theorem mem_keys_union : x ∈ (union a b).map (·.1) ↔ x ∈ a.map (·.1) ∨ x ∈ b.map (·.1) := by
  simp only [List.mem_map, mem_union, or_and_right, exists_or]

theorem keys_raise (s : Symbol) : (s.raise n).children.map (·.1) = s.children.map (·.1) := by
  simp [raise, Function.comp_def]

def placed (n : Nat) (r : Symbol) (id : Nat) (s : Symbol) : Symbol :=
  if id = SymbolTree.root then r.join n s else s.raise n

variable {r s : Symbol}

theorem placed_of_ne (ne : id ≠ SymbolTree.root) : placed n r id = raise n :=
  funext fun _ => if_neg ne

theorem mem_keys_placed : x ∈ (placed n r id s).children.map (·.1) ↔
    id = SymbolTree.root ∧ x ∈ r.children.map (·.1) ∨ x ∈ s.children.map (·.1) := by
  unfold placed
  split
  · next eq => rw [join, mem_keys_union, keys_raise, eq_true eq, true_and]
  · next ne => rw [keys_raise, eq_false ne, false_and, false_or]

theorem placed_insertChild (absent : x ∉ s.children.map (·.1)) :
    placed n r id { s with children := insertChild x i s.children } =
      { placed n r id s with
        children := insertChild x (SymbolTree.raise n i) (placed n r id s).children } := by
  have moved := map_insertChild (SymbolTree.raise n) x i s.children
  unfold placed
  split
  · simp only [join, raise, moved]
    rw [union_insertChild]
    · rfl
    · simpa [Function.comp_def] using absent
  · simp only [raise, moved]

theorem join_fresh (h : r.function.isSome) (kind : SymbolKind) (parent : Option Nat) :
    r.join n (fresh name kind parent) = r := by
  obtain ⟨f, hf⟩ := Option.isSome_iff_exists.1 h
  have nothing : (fresh name kind parent).body = [] := by
    cases kind <;> rfl
  rw [join, nothing, List.append_nil]
  cases r
  cases hf
  rfl

end Symbol

namespace SymbolTree

/-- The symbols of `t`, and behind them those of `u` without its root, which is joined to that
of `t`. -/
def graft (t u : SymbolTree) : SymbolTree :=
  match t.get? root, u.get? root with
  | some r, some s =>
    ⟨t.symbols.setIfInBounds root (r.join (t.size - 1) s) ++
      (u.symbols.extract 1 u.size).map (Symbol.raise (t.size - 1))⟩
  | _, _ => t

variable {t u v w : SymbolTree} {r s : Symbol} {scope id i : Nat} {x name : String}
  {kind : SymbolKind} {f : Function}

theorem ext_get? (h : ∀ i, t.get? i = u.get? i) : t = u := by
  obtain ⟨a⟩ := t
  obtain ⟨b⟩ := u
  exact congrArg mk (Array.ext_getElem? h)

theorem ne_raise (ne : i ≠ root) (lt : i < t.size) (id : Nat) : i ≠ raise (t.size - 1) id := by
  unfold raise
  split
  · exact ne
  · simp only [root] at *
    omega

section Roots

variable (ht : t.get? root = some r) (hu : u.get? root = some s)

include ht hu

theorem symbols_graft : (t.graft u).symbols =
    t.symbols.setIfInBounds root (r.join (t.size - 1) s) ++
      (u.symbols.extract 1 u.size).map (Symbol.raise (t.size - 1)) := by
  unfold graft
  rw [ht, hu]

theorem size_graft : (t.graft u).size = raise (t.size - 1) u.size := by
  have ht' := get?_lt ht
  have hu' := get?_lt hu
  rw [raise_of_ne _ (Nat.ne_of_gt hu'), size, symbols_graft ht hu, Array.size_append,
    Array.size_setIfInBounds, Array.size_map, Array.size_extract]
  simp only [size, root] at *
  omega

theorem get?_graft_left (ne : i ≠ root) (lt : i < t.size) : (t.graft u).get? i = t.get? i := by
  rw [get?, symbols_graft ht hu, Array.getElem?_append_left (by simpa [size] using lt),
    Array.getElem?_setIfInBounds_ne (Ne.symm ne)]
  rfl

theorem get?_graft (id : Nat) : (t.graft u).get? (raise (t.size - 1) id) =
    (u.get? id).map (Symbol.placed (t.size - 1) r id) := by
  have lt : root < t.symbols.size := get?_lt ht
  by_cases eq : id = root
  · rw [eq, raise_root, hu, get?, symbols_graft ht hu,
      Array.getElem?_append_left (by simpa using lt), Array.getElem?_setIfInBounds_self_of_lt lt]
    rfl
  · have beyond : t.symbols.size ≤ id + (t.symbols.size - 1) := by
      simp only [root] at eq
      omega
    have index : 1 + (id + (t.symbols.size - 1) - t.symbols.size) = id := by omega
    rw [raise_of_ne _ eq, get?, symbols_graft ht hu,
      Array.getElem?_append_right (by simpa [size] using beyond), Array.getElem?_map,
      Array.getElem?_extract, Symbol.placed_of_ne eq]
    simp only [size, Array.size_setIfInBounds, get?, index]
    split
    · rfl
    · rw [Array.getElem?_eq_none (by omega)]

theorem get?_graft_root : (t.graft u).get? root = some (r.join (t.size - 1) s) := by
  have placed := get?_graft ht hu root
  rwa [hu, Option.map_some] at placed

theorem eq_graft (left : ∀ i, i ≠ root → i < t.size → w.get? i = t.get? i)
    (right : ∀ id, w.get? (raise (t.size - 1) id) =
      (u.get? id).map (Symbol.placed (t.size - 1) r id)) : w = t.graft u := by
  refine ext_get? fun i => ?_
  have positive : 0 < t.size := get?_lt ht
  by_cases near : i ≠ root ∧ i < t.size
  · rw [left i near.1 near.2, get?_graft_left ht hu near.1 near.2]
  · obtain ⟨id, rfl⟩ : ∃ id, i = raise (t.size - 1) id := by
      by_cases eq : i = root
      · exact ⟨root, eq⟩
      · simp only [root] at *
        have ne : i - (t.size - 1) ≠ root := by
          simp only [root]
          omega
        exact ⟨i - (t.size - 1), by rw [raise_of_ne _ ne]; omega⟩
    rw [right, get?_graft ht hu]

end Roots

theorem setFunction_of_known (known : t.get? id = some s) (isFunction : s.function.isSome)
    (f : Function) : ∃ v, t.setFunction id f = .ok v := by
  simp [setFunction, known, isFunction]

section Declare

variable (ht : t.get? root = some r) (hu : u.get? root = some s)

include ht hu

theorem declare_graft_taken (taken : r.children.lookup x ≠ none) (kind : SymbolKind) :
    (t.graft u).declare root x kind = .error (.nameTaken x) := by
  refine declare_of_taken (get?_graft_root ht hu) ?_ kind
  rw [Ne, lookup_eq_none, not_not] at taken ⊢
  exact Symbol.mem_keys_union.2 (.inl taken)

/-- What is declared in the second tree is declared in both together, if its name is not taken
in the first one. -/
theorem declare_graft (lt : scope < u.size) (free : scope = root → r.children.lookup x = none)
    (kind : SymbolKind) : (t.graft u).declare (raise (t.size - 1) scope) x kind =
      (u.declare scope x kind).map fun d => (t.graft d.1, raise (t.size - 1) d.2) := by
  obtain ⟨p, known⟩ := get?_isSome_of_lt lt
  have known' := get?_graft ht hu scope
  rw [known, Option.map_some] at known'
  by_cases taken : p.children.lookup x = none
  · have absent := lookup_eq_none.1 taken
    have free' : (Symbol.placed (t.size - 1) r scope p).children.lookup x = none := by
      rw [lookup_eq_none, Symbol.mem_keys_placed, not_or]
      exact ⟨fun ⟨eq, mem⟩ => lookup_eq_none.1 (free eq) mem, absent⟩
    obtain ⟨v, hv⟩ := declare_of_free known taken kind
    obtain ⟨w, hw⟩ := declare_of_free known' free' kind
    obtain ⟨_, same, -, -, get⟩ := declare_eq_ok hv
    cases known.symm.trans same
    obtain ⟨_, same', -, -, get'⟩ := declare_eq_ok hw
    cases known'.symm.trans same'
    rw [size_graft ht hu] at get'
    have grown : root < v.size := (size_declare hv).2 ▸ Nat.succ_pos u.size
    obtain ⟨s', hv'⟩ := get?_isSome_of_lt grown
    have whole : w = t.graft v := by
      refine eq_graft ht hv' (fun i ne less => ?_) fun i => ?_
      · rw [get', if_neg (ne_raise ne less _), if_neg (ne_raise ne less _),
          get?_graft_left ht hu ne less]
      · simp only [get', get, raise_inj]
        split
        · next eq =>
          have inner : i ≠ root := eq ▸ Nat.ne_of_gt (get?_lt hu)
          rw [Option.map_some, Symbol.placed_of_ne inner]
          rfl
        · split
          · next eq =>
            rw [eq, Option.map_some, Symbol.placed_insertChild absent]
          · rw [get?_graft ht hu]
    rw [hw, hv, size_graft ht hu, whole]
    rfl
  · have taken' : (Symbol.placed (t.size - 1) r scope p).children.lookup x ≠ none := by
      rw [lookup_eq_none, not_not] at taken
      rw [Ne, lookup_eq_none, not_not]
      exact Symbol.mem_keys_placed.2 (.inr taken)
    rw [declare_of_taken known taken, declare_of_taken known' taken']
    rfl

theorem setFunction_graft (ne : id ≠ root) (h : u.setFunction id f = .ok v) :
    (t.graft u).setFunction (raise (t.size - 1) id) f = .ok (t.graft v) := by
  obtain ⟨p, known, isFunction, get⟩ := setFunction_eq_ok h
  have known' := get?_graft ht hu id
  rw [known, Option.map_some, Symbol.placed_of_ne ne] at known'
  have hv : v.get? root = some s := by rw [get, if_neg (Ne.symm ne), hu]
  obtain ⟨w, hw⟩ := setFunction_of_known known' isFunction f
  obtain ⟨_, same, -, get'⟩ := setFunction_eq_ok hw
  cases known'.symm.trans same
  rw [hw]
  refine congrArg Except.ok (eq_graft ht hv (fun i other less => ?_) fun i => ?_)
  · rw [get', if_neg (ne_raise other less _), get?_graft_left ht hu other less]
  · simp only [get', get, raise_inj]
    split
    · next eq =>
      rw [eq, Option.map_some, Symbol.placed_of_ne ne]
      rfl
    · rw [get?_graft ht hu]

theorem setFunction_graft_root {a b : List Stmt} {t' u' : SymbolTree}
    (ha : t.setFunction root ⟨[], a⟩ = .ok t') (hb : u.setFunction root ⟨[], b⟩ = .ok u') :
    (t.graft u).setFunction root ⟨[], a ++ b⟩ = .ok (t'.graft u') := by
  obtain ⟨_, same, -, get⟩ := setFunction_eq_ok ha
  cases ht.symm.trans same
  obtain ⟨_, same, -, get'⟩ := setFunction_eq_ok hb
  cases hu.symm.trans same
  have ht' := get root
  have hu' := get' root
  rw [if_pos rfl] at ht' hu'
  have size : t'.size = t.size := size_setFunction ha
  have known := get?_graft_root ht hu
  obtain ⟨w, hw⟩ := setFunction_of_known known rfl ⟨[], a ++ b⟩
  obtain ⟨_, same, -, got⟩ := setFunction_eq_ok hw
  cases known.symm.trans same
  rw [hw]
  refine congrArg Except.ok (eq_graft ht' hu' (fun i other less => ?_) fun i => ?_)
  · rw [size] at less
    rw [got, if_neg other, get?_graft_left ht hu other less, get, if_neg other]
  · rw [size]
    by_cases eq : i = root
    · rw [eq, raise_root, got, if_pos rfl, hu']
      rfl
    · rw [got, if_neg (raise_eq_root.not.2 eq), get?_graft ht hu, get', if_neg eq,
        Symbol.placed_of_ne eq, Symbol.placed_of_ne eq]

end Declare

theorem graft_new (wf : t.WellFormed) (name : String) : t.graft (new name) = t := by
  obtain ⟨r, ht⟩ := get?_isSome_of_lt wf.root_lt
  have isFunction : r.function.isSome := by
    obtain ⟨x, declared⟩ := wf.root
    rw [declarations_getElem?, ht] at declared
    exact (wf.function ht).2 (congrArg Declaration.kind (Option.some.inj declared))
  refine (eq_graft ht (get?_new name root) (fun _ _ _ => rfl) fun id => ?_).symm
  rw [get?_new]
  split
  · next eq =>
    rw [eq, raise_root, ht]
    exact congrArg some (Symbol.join_fresh isFunction _ _).symm
  · next ne =>
    have beyond : t.symbols.size ≤ id + (t.symbols.size - 1) := by
      simp only [root] at ne
      omega
    rw [raise_of_ne _ ne]
    exact Array.getElem?_eq_none beyond

end SymbolTree
end Offside
